import Freecoin.Foundation.CoZLadder
import Mathlib.Data.Nat.Size

/-!
# The sum of two multiples

Two scalars are read together, from the highest bit down: the accumulator is doubled, and a point
of a table, or none, is added to it.  A doubling that gives no point, and an addition of two points
with one abscissa, leave a denominator of zero, which every later step keeps.
-/

namespace Foundation.CoZ

open WeierstrassCurve.Affine

variable {F : Type*} [Field F] [DecidableEq F]

/-- A denominator and the coordinates that it scales. -/
abbrev Jacobian (F : Type*) := F × (F × F)

/-- The doubling, which leaves a denominator of zero as it is. -/
def jacobianDouble (a : F) (acc : Jacobian F) : Jacobian F :=
  if acc.1 = 0 then acc else (acc.2.2 * acc.1, double a acc.1 acc.2)

/-- The addition of a point of the table. -/
def jacobianAdd (acc : Jacobian F) (t : F × F) : Jacobian F :=
  let t' := rescale acc.1 t
  (acc.1 * (acc.2.1 - t'.1), (add t' acc.2).2)

/-- One step: a doubling and, where the table has a point, an addition. -/
def shamirStep (a : F) (t : Option (F × F)) (acc : Jacobian F) : Jacobian F :=
  let doubled := jacobianDouble a acc
  t.elim doubled (jacobianAdd doubled)

theorem shamirStep_of_zero (a : F) (t : Option (F × F)) {acc : Jacobian F} (zero : acc.1 = 0) :
    (shamirStep a t acc).1 = 0 := by
  have doubled : (jacobianDouble a acc).1 = 0 := by rw [jacobianDouble, if_pos zero, zero]
  cases t with
  | none => exact doubled
  | some t => exact mul_eq_zero_of_left doubled _

variable {a b : F}

/-- A point of the table. -/
def InTable (t : Option (F × F)) (T : (shortCurve a b).Point) : Prop :=
  t.elim (T = 0) fun t => Scaled 1 t T

/-- The steps in which the formulas fail: a doubling of a point of order two, or an addition of a
point of the table to itself or to its opposite. -/
def Exceptional (added : Bool) (T A : (shortCurve a b).Point) : Prop :=
  A + A = 0 ∨ (added = true ∧ (A + A = T ∨ A + A = -T))

section Step

variable {t : Option (F × F)} {T A : (shortCurve a b).Point} {acc : Jacobian F} (two : (2 : F) ≠ 0)

include two

theorem jacobianDouble_spec (follows : Scaled acc.1 acc.2 A) :
    (A + A ≠ 0 ∧ Scaled (jacobianDouble a acc).1 (jacobianDouble a acc).2 (A + A)) ∨
      (A + A = 0 ∧ (jacobianDouble a acc).1 = 0) := by
  rw [jacobianDouble, if_neg follows.denominator_ne_zero]
  by_cases flat : acc.2.2 = 0
  · refine .inr ⟨?_, mul_eq_zero_of_left flat _⟩
    obtain ⟨nonzero, x, y, nonsingular, rfl, coordinates⟩ := follows
    rw [coordinates] at flat
    have ordinate : y = 0 := (mul_eq_zero.mp flat).resolve_right (pow_ne_zero 3 nonzero)
    apply Point.add_self_of_Y_eq
    simp only [negY, shortCurve, ordinate]
    ring
  · have doubled := follows.double flat two
    exact .inl ⟨doubled.point_ne_zero, doubled⟩

/-- A step adds the point of the table to the double, or leaves a denominator of zero. -/
theorem shamirStep_spec (table : InTable t T) (follows : Scaled acc.1 acc.2 A) :
    (¬ Exceptional t.isSome T A ∧
        Scaled (shamirStep a t acc).1 (shamirStep a t acc).2 (A + A + T)) ∨
      (Exceptional t.isSome T A ∧ (shamirStep a t acc).1 = 0) := by
  rcases jacobianDouble_spec two follows with ⟨regular, doubled⟩ | ⟨zero, lost⟩
  · cases t with
    | none =>
        have none : T = 0 := table
        refine .inl ⟨by simp [Exceptional, regular], ?_⟩
        rw [none, add_zero]
        exact doubled
    | some t =>
        have scaled := (show Scaled 1 t T from table).rescale doubled.denominator_ne_zero
        rw [one_mul] at scaled
        have apart := doubled.fst_eq_iff scaled
        by_cases same : (jacobianDouble a acc).2.1 = (rescale (jacobianDouble a acc).1 t).1
        · refine .inr ⟨.inr ⟨rfl, apart.mp same⟩, ?_⟩
          change (jacobianDouble a acc).1 * ((jacobianDouble a acc).2.1 - _) = 0
          rw [same, sub_self, mul_zero]
        · refine .inl ⟨?_, ?_⟩
          · rintro (zero | ⟨_, equal⟩)
            · exact regular zero
            · exact same (apart.mpr equal)
          · have sum := (scaled.add doubled (Ne.symm same)).2
            rwa [add_comm T] at sum
  · refine .inr ⟨.inl zero, ?_⟩
    cases t with
    | none => exact lost
    | some t => exact mul_eq_zero_of_left lost _

end Step

/-! ## Runs -/

variable {P Q : (shortCurve a b).Point}

/-- The sum of the multiples by two scalars without their lowest bits. -/
def prefixSum (P Q : (shortCurve a b).Point) (u v level : Nat) : (shortCurve a b).Point :=
  (u / 2 ^ level) • P + (v / 2 ^ level) • Q

/-- The point that the table holds for two bits. -/
def tableSum (P Q : (shortCurve a b).Point) (u v : Bool) : (shortCurve a b).Point :=
  u.toNat • P + v.toNat • Q

theorem prefixSum_eq (P Q : (shortCurve a b).Point) (u v level : Nat) :
    prefixSum P Q u v (level + 1) + prefixSum P Q u v (level + 1) +
        tableSum P Q (u.testBit level) (v.testBit level) =
      prefixSum P Q u v level := by
  have left := div_two_pow_eq u level
  have right := div_two_pow_eq v level
  rw [prefixSum, prefixSum, tableSum, ← left, ← right, add_nsmul, add_nsmul, two_mul, two_mul,
    add_nsmul, add_nsmul]
  abel

/-- A table holds for every pair of bits the sum of the points whose bits are set, and nothing when
none is set. -/
structure Table (P Q : (shortCurve a b).Point) (table : Bool → Bool → Option (F × F)) : Prop where
  isSome_eq : ∀ u v, (table u v).isSome = (u || v)
  holds : ∀ u v, InTable (table u v) (tableSum P Q u v)

/-- The table of two points and their sum. -/
def pairTable (p q t : F × F) (u v : Bool) : Option (F × F) :=
  if v then some (if u then t else q) else if u then some p else none

theorem table_pairTable {p q t : F × F} (first : Scaled 1 p P) (second : Scaled 1 q Q)
    (both : Scaled 1 t (P + Q)) : Table P Q (pairTable p q t) where
  isSome_eq u v := by cases u <;> cases v <;> rfl
  holds u v := by
    rw [tableSum]
    cases u <;> cases v
    · rw [Bool.toNat_false, zero_nsmul, zero_nsmul, add_zero]
      rfl
    · rw [Bool.toNat_false, Bool.toNat_true, zero_nsmul, one_nsmul, zero_add]
      exact second
    · rw [Bool.toNat_false, Bool.toNat_true, zero_nsmul, one_nsmul, add_zero]
      exact first
    · rw [Bool.toNat_true, one_nsmul, one_nsmul]
      exact both

/-- The step that reads the bits at `level` is exceptional. -/
def ExceptionalAt (P Q : (shortCurve a b).Point) (u v level : Nat) : Prop :=
  Exceptional (u.testBit level || v.testBit level)
    (tableSum P Q (u.testBit level) (v.testBit level)) (prefixSum P Q u v (level + 1))

/-- Where the accumulator is when the bits from `level` to `top` have been read. -/
def Accumulates (P Q : (shortCurve a b).Point) (u v top level : Nat) (acc : Jacobian F) : Prop :=
  ((∀ i, level ≤ i → i < top → ¬ ExceptionalAt P Q u v i) ∧
      Scaled acc.1 acc.2 (prefixSum P Q u v level)) ∨
    ((∃ i, level ≤ i ∧ i < top ∧ ExceptionalAt P Q u v i) ∧ acc.1 = 0)

theorem Accumulates.step (two : (2 : F) ≠ 0) {table : Bool → Bool → Option (F × F)}
    (holds : Table P Q table) {u v top level : Nat} {acc : Jacobian F} (below : level < top)
    (accumulates : Accumulates P Q u v top (level + 1) acc) :
    Accumulates P Q u v top level
      (shamirStep a (table (u.testBit level) (v.testBit level)) acc) := by
  rcases accumulates with ⟨regular, scaled⟩ | ⟨⟨i, above, inside, exceptional⟩, zero⟩
  · have spec := shamirStep_spec two (holds.holds (u.testBit level) (v.testBit level)) scaled
    rw [holds.isSome_eq] at spec
    rcases spec with ⟨here, next⟩ | ⟨here, zero⟩
    · rw [prefixSum_eq] at next
      refine .inl ⟨?_, next⟩
      intro i above inside
      rcases Nat.eq_or_lt_of_le above with same | further
      · rwa [← same]
      · exact regular i further inside
    · exact .inr ⟨⟨level, le_rfl, below, here⟩, zero⟩
  · exact .inr ⟨⟨i, Nat.le_of_succ_le above, inside, exceptional⟩, shamirStep_of_zero a _ zero⟩

/-- The highest bit that one of the scalars has. -/
def highestBit (u v : Nat) : Nat := max u.size v.size - 1

theorem lt_two_pow_highestBit (u v : Nat) :
    u < 2 ^ (highestBit u v + 1) ∧ v < 2 ^ (highestBit u v + 1) := by
  constructor <;>
    · rw [← Nat.size_le, highestBit]
      omega

theorem testBit_highestBit {u v : Nat} (positive : 0 < u ∨ 0 < v) :
    (u.testBit (highestBit u v) || v.testBit (highestBit u v)) = true := by
  obtain ⟨left, right⟩ := lt_two_pow_highestBit u v
  have sizes : 0 < max u.size v.size := by
    rcases positive with first | second
    · exact lt_max_of_lt_left (Nat.size_pos.mpr first)
    · exact lt_max_of_lt_right (Nat.size_pos.mpr second)
  rw [Bool.or_eq_true]
  rcases le_total v.size u.size with larger | larger
  · refine .inl (Nat.testBit_of_two_pow_le_and_two_pow_add_one_gt ?_ left)
    rw [← Nat.lt_size, highestBit]
    omega
  · refine .inr (Nat.testBit_of_two_pow_le_and_two_pow_add_one_gt ?_ right)
    rw [← Nat.lt_size, highestBit]
    omega

/-- One of the steps below the highest bit is exceptional. -/
def LosesSum (P Q : (shortCurve a b).Point) (u v : Nat) : Prop :=
  ∃ i, i < highestBit u v ∧ ExceptionalAt P Q u v i

section Ends

variable {u v : Nat}

/-- The first point is the one of the table for the highest bits. -/
theorem Accumulates.start {table : Bool → Bool → Option (F × F)} (holds : Table P Q table)
    {t : F × F}
    (entry : table (u.testBit (highestBit u v)) (v.testBit (highestBit u v)) = some t) :
    Accumulates P Q u v (highestBit u v) (highestBit u v) (1, t) := by
  obtain ⟨left, right⟩ := lt_two_pow_highestBit u v
  have above : prefixSum P Q u v (highestBit u v + 1) = 0 := by
    rw [prefixSum, Nat.div_eq_of_lt left, Nat.div_eq_of_lt right, zero_nsmul, zero_nsmul, add_zero]
  have first := holds.holds (u.testBit (highestBit u v)) (v.testBit (highestBit u v))
  rw [entry] at first
  refine .inl ⟨fun i above below => absurd below (Nat.not_lt_of_le above), ?_⟩
  rw [← prefixSum_eq, above, zero_add, zero_add]
  exact first

/-- Without its denominator the last accumulator is the sum, or zeros when it has been lost. -/
theorem Accumulates.last {acc : Jacobian F}
    (accumulates : Accumulates P Q u v (highestBit u v) 0 acc) :
    (¬ LosesSum P Q u v ∧ Scaled 1 (rescale acc.1⁻¹ acc.2) (u • P + v • Q)) ∨
      (LosesSum P Q u v ∧ rescale acc.1⁻¹ acc.2 = 0) := by
  rcases accumulates with ⟨regular, scaled⟩ | ⟨⟨i, _, inside, exceptional⟩, zero⟩
  · refine .inl ⟨?_, ?_⟩
    · rintro ⟨i, inside, exceptional⟩
      exact regular i (Nat.zero_le i) inside exceptional
    · have nonzero := scaled.denominator_ne_zero
      have sum : prefixSum P Q u v 0 = u • P + v • Q := by
        rw [prefixSum, pow_zero, Nat.div_one, Nat.div_one]
      have affine := scaled.rescale (inv_ne_zero nonzero)
      rwa [mul_inv_cancel₀ nonzero, sum] at affine
  · refine .inr ⟨⟨i, inside, exceptional⟩, ?_⟩
    rw [zero, inv_zero]
    ext <;> simp [rescale]

end Ends

end Foundation.CoZ
