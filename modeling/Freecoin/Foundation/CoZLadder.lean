import Freecoin.Foundation.CoZ

/-!
# Montgomery's ladder with a common denominator

The ladder keeps `m P` and `(m + 1) P`.  A prefix `m` of the scalar for which `(2 m + 1) P` is zero
makes it lose them: from then on the coordinates are those of no point, and the result is `(0, 0)`.
Nothing else can go wrong when the order of the point is odd.
-/

namespace Foundation.CoZ

open WeierstrassCurve.Affine

variable {F : Type*} [Field F]

/-- The conjugate addition of a step, which leaves the difference and the sum. -/
def ladderConjugate (bit : Bool) (R : PointPair F) : PointPair F :=
  if bit then addConjugate R.2 R.1 else addConjugate R.1 R.2

/-- One step of the ladder. -/
def ladderStep (bit : Bool) (R : PointPair F) : PointPair F :=
  let c := ladderConjugate bit R
  let s := add c.2 c.1
  if bit then s else s.swap

/-- The inverse denominator of the result, from the difference and the sum in the last step. -/
def ladderInverse (bit : Bool) (base : F × F) (c : PointPair F) : F :=
  let difference := if bit then c.1.1 - c.2.1 else c.2.1 - c.1.1
  (difference * c.1.2 * base.1)⁻¹ * base.2 * c.1.1

/-- The last step of the ladder, with the result in affine coordinates. -/
def ladderLast (bit : Bool) (base : F × F) (R : PointPair F) : F × F :=
  let c := ladderConjugate bit R
  let s := add c.2 c.1
  rescale (ladderInverse bit base c) (if bit then s.1 else s.2)

/-- The coordinates of no point that the ladder runs into. -/
def Lost (R : PointPair F) : Prop :=
  (R.1 = 0 ∧ R.2.1 ^ 3 = R.2.2 ^ 2) ∨ (R.2 = 0 ∧ R.1.1 ^ 3 = R.1.2 ^ 2)

section Lost

theorem Lost.swap {R : PointPair F} (lost : Lost R) : Lost R.swap := lost.symm

theorem Lost.addConjugate_eq_zero {R : PointPair F} (lost : Lost R) :
    addConjugate R.1 R.2 = 0 := by
  obtain ⟨p, q⟩ := R
  rcases lost with ⟨zero, cusp⟩ | ⟨zero, cusp⟩
  · obtain rfl : p = 0 := zero
    ext <;> simp only [addConjugate, Prod.fst_zero, Prod.snd_zero] at cusp ⊢ <;> grind
  · obtain rfl : q = 0 := zero
    ext <;> simp only [addConjugate, Prod.fst_zero, Prod.snd_zero] at cusp ⊢ <;> grind

theorem Lost.ladderConjugate_eq_zero {R : PointPair F} (lost : Lost R) (bit : Bool) :
    ladderConjugate bit R = 0 := by
  unfold ladderConjugate
  split
  · exact lost.swap.addConjugate_eq_zero
  · exact lost.addConjugate_eq_zero

/-- A difference of zero next to a sum that satisfies the equation of a cusp. -/
theorem lost_add {c : PointPair F} (zero : c.1 = 0) (cusp : c.2.1 ^ 3 = c.2.2 ^ 2) :
    Lost (add c.2 c.1) := by
  obtain ⟨d, s⟩ := c
  obtain rfl : d = 0 := zero
  refine .inr ⟨?_, ?_⟩
  · ext <;> simp only [add, Prod.fst_zero, Prod.snd_zero] at cusp ⊢ <;> grind
  · simp only [add, Prod.fst_zero, Prod.snd_zero] at cusp ⊢
    grind

theorem lost_ladderStep {bit : Bool} {R : PointPair F} (zero : (ladderConjugate bit R).1 = 0)
    (cusp : (ladderConjugate bit R).2.1 ^ 3 = (ladderConjugate bit R).2.2 ^ 2) :
    Lost (ladderStep bit R) := by
  have lost := lost_add zero cusp
  unfold ladderStep
  dsimp only
  split
  · exact lost
  · exact lost.swap

theorem Lost.step {R : PointPair F} (lost : Lost R) (bit : Bool) : Lost (ladderStep bit R) := by
  have zero := lost.ladderConjugate_eq_zero bit
  apply lost_ladderStep <;> rw [zero]
  · rfl
  · simp

theorem ladderLast_eq_zero {bit : Bool} {R : PointPair F} (base : F × F)
    (zero : (ladderConjugate bit R).1 = 0) : ladderLast bit base R = 0 := by
  have inverse : ladderInverse bit base (ladderConjugate bit R) = 0 := by
    simp [ladderInverse, zero]
  unfold ladderLast
  ext <;> simp [inverse, rescale]

end Lost

variable {a b : F} {P : (shortCurve a b).Point}

/-- The coordinates of the difference are those of the point, up to the sign, in the denominator of
the last step, which they reveal. -/
theorem ladderInverse_eq {z x y : F} {bit : Bool} {c : PointPair F}
    {nonsingular : (shortCurve a b).Nonsingular x y} (point_eq : P = .some x y nonsingular)
    (abscissa : x ≠ 0) (ordinate : y ≠ 0) (difference : Scaled z c.1 (if bit then P else -P))
    (apart : c.2.1 ≠ c.1.1) :
    z * (c.1.1 - c.2.1) * ladderInverse bit (x, y) c = 1 := by
  have nonzero := difference.denominator_ne_zero
  have base : Scaled z (rescale z (x, y)) P := by
    have scaled := (Scaled.of_some nonsingular).rescale nonzero
    rwa [one_mul, ← point_eq] at scaled
  obtain ⟨d, s⟩ := c
  have gap := sub_ne_zero.mpr apart.symm
  cases bit with
  | true =>
      obtain rfl : d = rescale z (x, y) := difference.eq_of_same base
      simp only [ladderInverse, if_pos, rescale] at gap ⊢
      generalize x * z ^ 2 - s.1 = difference at gap ⊢
      field_simp
  | false =>
      obtain rfl : d = (x * z ^ 2, -(y * z ^ 3)) := difference.eq_of_same base.neg
      simp only [ladderInverse, if_neg Bool.false_ne_true, ← neg_sub (x * z ^ 2) s.1] at gap ⊢
      generalize x * z ^ 2 - s.1 = difference at gap ⊢
      field_simp

variable [DecidableEq F]

/-- The two points of the ladder are `m P` and `(m + 1) P`. -/
def Follows (P : (shortCurve a b).Point) (m : Nat) (R : PointPair F) : Prop :=
  ∃ z, Scaled z R.1 (m • P) ∧ Scaled z R.2 ((m + 1) • P)

namespace Follows

variable {m : Nat} {R : PointPair F}

theorem smul_ne_zero (follows : Follows P m R) : m • P ≠ 0 ∧ (m + 1) • P ≠ 0 := by
  obtain ⟨z, first, second⟩ := follows
  exact ⟨first.point_ne_zero, second.point_ne_zero⟩

theorem add_smul {m : Nat} : (m + 1) • P + m • P = (2 * m + 1) • P := by
  rw [← add_nsmul]
  congr 1
  omega

/-- The points have different abscissas unless their sum is zero. -/
theorem apart (follows : Follows P m R) (regular : (2 * m + 1) • P ≠ 0) : R.1.1 ≠ R.2.1 := by
  obtain ⟨smul, _⟩ := follows.smul_ne_zero
  obtain ⟨z, first, second⟩ := follows
  rw [Ne, first.fst_eq_iff second]
  rintro (same | opposite)
  · rw [succ_nsmul, left_eq_add] at same
    exact smul (by rw [same, nsmul_zero])
  · exact regular (by rw [← add_smul, opposite, add_neg_cancel])

theorem conjugate (follows : Follows P m R) (apart : R.1.1 ≠ R.2.1) (bit : Bool) :
    ∃ z, Scaled z (ladderConjugate bit R).1 (if bit then P else -P) ∧
      Scaled z (ladderConjugate bit R).2 ((2 * m + 1) • P) := by
  obtain ⟨z, first, second⟩ := follows
  cases bit with
  | true =>
      obtain ⟨difference, sum⟩ := second.addConjugate first apart.symm
      rw [succ_nsmul, add_sub_cancel_left] at difference
      rw [add_smul] at sum
      exact ⟨_, difference, sum⟩
  | false =>
      obtain ⟨difference, sum⟩ := first.addConjugate second apart
      rw [succ_nsmul, sub_add_cancel_left] at difference
      rw [add_comm, add_smul] at sum
      exact ⟨_, difference, sum⟩

/-- A step reads one more bit of the scalar, as long as the abscissas that it subtracts differ. -/
theorem step (follows : Follows P m R) (apart : R.1.1 ≠ R.2.1) (bit : Bool)
    (gap : (ladderConjugate bit R).2.1 ≠ (ladderConjugate bit R).1.1) :
    Follows P (2 * m + bit.toNat) (ladderStep bit R) := by
  obtain ⟨z, difference, sum⟩ := follows.conjugate apart bit
  obtain ⟨kept, total⟩ := sum.add difference gap
  refine ⟨z * ((ladderConjugate bit R).1.1 - (ladderConjugate bit R).2.1), ?_⟩
  cases bit with
  | true =>
      rw [if_pos rfl, ← succ_nsmul] at total
      exact ⟨kept, total⟩
  | false =>
      rw [if_neg Bool.false_ne_true, succ_nsmul, add_neg_cancel_right] at total
      exact ⟨total, kept⟩

/-- When the sum is zero, the difference comes out as zero and the sum on a cusp. -/
theorem conjugate_lost (follows : Follows P m R) (middle : (2 * m + 1) • P = 0) (bit : Bool) :
    (ladderConjugate bit R).1 = 0 ∧
      (ladderConjugate bit R).2.1 ^ 3 = (ladderConjugate bit R).2.2 ^ 2 := by
  obtain ⟨z, first, second⟩ := follows
  have opposite : (m + 1) • P = -(m • P) := by
    rw [eq_neg_iff_add_eq_zero, add_smul, middle]
  rw [opposite] at second
  have coordinates := second.eq_of_same first.neg
  rw [ladderConjugate, coordinates]
  split
  · exact ⟨by ext <;> simp [addConjugate], by simp only [addConjugate]; ring⟩
  · exact ⟨by ext <;> simp [addConjugate], by simp only [addConjugate]; ring⟩

end Follows

section Odd

variable (odd : Odd (addOrderOf P))

include odd

theorem smul_eq_zero_of_two_mul {m : Nat} (zero : (2 * m) • P = 0) : m • P = 0 := by
  rw [← addOrderOf_dvd_iff_nsmul_eq_zero] at zero ⊢
  exact (Nat.coprime_two_right.mpr odd).dvd_of_dvd_mul_left zero

namespace Follows

variable {m : Nat} {R : PointPair F}

/-- The sum is neither the point nor its opposite. -/
theorem gap (follows : Follows P m R) (regular : (2 * m + 1) • P ≠ 0) (bit : Bool) :
    (ladderConjugate bit R).2.1 ≠ (ladderConjugate bit R).1.1 := by
  obtain ⟨first, second⟩ := follows.smul_ne_zero
  obtain ⟨z, difference, sum⟩ := follows.conjugate (follows.apart regular) bit
  have notSame : (2 * m + 1) • P ≠ P := by
    intro same
    rw [succ_nsmul, add_eq_right] at same
    exact first (smul_eq_zero_of_two_mul odd same)
  have notOpposite : (2 * m + 1) • P ≠ -P := by
    intro opposite
    rw [eq_neg_iff_add_eq_zero, ← succ_nsmul] at opposite
    exact second (smul_eq_zero_of_two_mul odd opposite)
  rw [Ne, sum.fst_eq_iff difference]
  cases bit <;> simp [notSame, notOpposite]

end Follows

end Odd

section Odd

variable (odd : Odd (addOrderOf P))

include odd

/-- The last step recovers the denominator from the coordinates of the point. -/
theorem Follows.last {m : Nat} {R : PointPair F} (follows : Follows P m R)
    (regular : (2 * m + 1) • P ≠ 0) (bit : Bool) {x y : F}
    {nonsingular : (shortCurve a b).Nonsingular x y} (point_eq : P = .some x y nonsingular)
    (abscissa : x ≠ 0) (ordinate : y ≠ 0) :
    Scaled 1 (ladderLast bit (x, y) R) ((2 * m + bit.toNat) • P) := by
  obtain ⟨z, difference, sum⟩ := follows.conjugate (follows.apart regular) bit
  have apart := follows.gap odd regular bit
  obtain ⟨kept, total⟩ := sum.add difference apart
  have inverse := ladderInverse_eq point_eq abscissa ordinate difference apart
  have nonzero := right_ne_zero_of_mul_eq_one inverse
  unfold ladderLast
  cases bit with
  | true =>
      have last := kept.rescale nonzero
      rwa [inverse] at last
  | false =>
      have last := total.rescale nonzero
      rwa [inverse, if_neg Bool.false_ne_true, succ_nsmul, add_neg_cancel_right] at last

end Odd

/-! ## Runs -/

/-- Where the ladder is when it has read the bits of `scalar` from `level` on: it follows the
multiples unless a longer prefix made it lose them. -/
def Position (P : (shortCurve a b).Point) (scalar level : Nat) (R : PointPair F) : Prop :=
  (Follows P (scalar / 2 ^ level) R ∧
    ∀ j, level < j → (2 * (scalar / 2 ^ j) + 1) • P ≠ 0) ∨
  (Lost R ∧ ∃ j, level < j ∧ (2 * (scalar / 2 ^ j) + 1) • P = 0)

theorem div_two_pow_eq (scalar level : Nat) :
    2 * (scalar / 2 ^ (level + 1)) + (scalar.testBit level).toNat = scalar / 2 ^ level := by
  rw [Nat.toNat_testBit, pow_succ, ← Nat.div_div_eq_div_mul, Nat.div_add_mod]

namespace Position

variable (odd : Odd (addOrderOf P)) {scalar level : Nat} {R : PointPair F}

include odd

theorem step (position : Position P scalar (level + 1) R) :
    Position P scalar level (ladderStep (scalar.testBit level) R) := by
  rcases position with ⟨follows, regular⟩ | ⟨lost, j, above, middle⟩
  · by_cases middle : (2 * (scalar / 2 ^ (level + 1)) + 1) • P = 0
    · obtain ⟨zero, cusp⟩ := follows.conjugate_lost middle (scalar.testBit level)
      exact .inr ⟨lost_ladderStep zero cusp, level + 1, Nat.lt_succ_self level, middle⟩
    · have next := follows.step (follows.apart middle) _
        (follows.gap odd middle (scalar.testBit level))
      rw [div_two_pow_eq] at next
      refine .inl ⟨next, ?_⟩
      intro j above
      rcases Nat.eq_or_lt_of_le (Nat.succ_le_of_lt above) with same | further
      · rwa [← same]
      · exact regular j further
  · exact .inr ⟨lost.step _, j, Nat.lt_of_succ_lt above, middle⟩

/-- The result of the whole ladder: the multiple of the point, or `(0, 0)` when it was lost. -/
theorem last (position : Position P scalar 1 R) {x y : F}
    {nonsingular : (shortCurve a b).Nonsingular x y} (point_eq : P = .some x y nonsingular)
    (abscissa : x ≠ 0) (ordinate : y ≠ 0) :
    ((∀ j, 0 < j → (2 * (scalar / 2 ^ j) + 1) • P ≠ 0) ∧
        Scaled 1 (ladderLast (scalar.testBit 0) (x, y) R) (scalar • P)) ∨
      ((∃ j, 0 < j ∧ (2 * (scalar / 2 ^ j) + 1) • P = 0) ∧
        ladderLast (scalar.testBit 0) (x, y) R = 0) := by
  rcases position with ⟨follows, regular⟩ | ⟨lost, j, above, middle⟩
  · by_cases middle : (2 * (scalar / 2 ^ 1) + 1) • P = 0
    · have zero := (follows.conjugate_lost middle (scalar.testBit 0)).1
      exact .inr ⟨⟨1, Nat.one_pos, middle⟩, ladderLast_eq_zero _ zero⟩
    · have result := follows.last odd middle (scalar.testBit 0) point_eq abscissa ordinate
      rw [div_two_pow_eq, pow_zero, Nat.div_one] at result
      refine .inl ⟨?_, result⟩
      intro j positive
      rcases Nat.eq_or_lt_of_le (Nat.succ_le_of_lt positive) with same | further
      · rwa [← same]
      · exact regular j further
  · have zero := congrArg Prod.fst (lost.ladderConjugate_eq_zero (scalar.testBit 0))
    exact .inr ⟨⟨j, Nat.zero_lt_of_lt above, middle⟩, ladderLast_eq_zero _ zero⟩

end Position

/-! ## The order of a point -/

/-- The ladder from `level` down, with the tests that it adds points of different abscissas, up to
the test that its two points have the same one. -/
def ladderCheck (scalar : Nat) : (level : Nat) → PointPair F → Bool
  | 0, R => R.1.1 == R.2.1
  | level + 1, R =>
      let c := ladderConjugate (scalar.testBit level) R
      R.1.1 != R.2.1 && c.2.1 != c.1.1 &&
        ladderCheck scalar level (ladderStep (scalar.testBit level) R)

theorem Follows.smul_eq_zero_of_ladderCheck {scalar level : Nat} {R : PointPair F}
    (follows : Follows P (scalar / 2 ^ level) R) (checked : ladderCheck scalar level R = true) :
    (2 * scalar + 1) • P = 0 := by
  induction level generalizing R with
  | zero =>
      rw [pow_zero, Nat.div_one] at follows
      by_contra regular
      exact follows.apart regular (beq_iff_eq.mp checked)
  | succ level ih =>
      simp only [ladderCheck, Bool.and_eq_true, bne_iff_ne] at checked
      obtain ⟨⟨apart, gap⟩, rest⟩ := checked
      have next := follows.step apart _ gap
      rw [div_two_pow_eq] at next
      exact ih next rest

/-- The point and its double, with twice the ordinate as the denominator. -/
def ladderStart (a : F) (p : F × F) : PointPair F :=
  let d := p.2 + p.2
  let x := p.1 * d ^ 2
  let y := p.2 * d ^ 3
  let M := p.1 ^ 2 + p.1 ^ 2 + p.1 ^ 2 + a
  let X := M ^ 2 - (x + x)
  ((x, y), (X, M * (x - X) - y))

theorem follows_ladderStart {x y : F} {nonsingular : (shortCurve a b).Nonsingular x y}
    (point_eq : P = .some x y nonsingular) (two : (2 : F) ≠ 0) (ordinate : y ≠ 0) :
    Follows P 1 (ladderStart a (x, y)) := by
  have base := Scaled.of_some nonsingular
  have doubled := (base.double ordinate two).rescale two
  have kept := base.rescale (mul_ne_zero ordinate two)
  rw [← point_eq] at doubled kept
  have same : CoZ.rescale (y * 2) (x, y) = (ladderStart a (x, y)).1 := by
    ext <;> simp only [CoZ.rescale, ladderStart] <;> ring
  have double : CoZ.rescale 2 (CoZ.double a 1 (x, y)) = (ladderStart a (x, y)).2 := by
    ext <;>
      · simp only [CoZ.rescale, CoZ.double, ladderStart]
        field_simp
        ring
  rw [same, one_mul] at kept
  rw [double, mul_one] at doubled
  refine ⟨y * 2, ?_, ?_⟩
  · rwa [one_nsmul]
  · rwa [one_add_one_eq_two, two_nsmul]

/-- A check of the ladder up to half of a prime proves that it is the order of the point. -/
theorem addOrderOf_eq_of_ladderCheck {scalar level : Nat} (prime : Nat.Prime (2 * scalar + 1))
    (top : scalar / 2 ^ level = 1) {x y : F} {nonsingular : (shortCurve a b).Nonsingular x y}
    (point_eq : P = .some x y nonsingular) (two : (2 : F) ≠ 0) (ordinate : y ≠ 0)
    (checked : ladderCheck scalar level (ladderStart a (x, y)) = true) :
    addOrderOf P = 2 * scalar + 1 := by
  have follows := follows_ladderStart point_eq two ordinate
  rw [← top] at follows
  have : Fact (Nat.Prime (2 * scalar + 1)) := ⟨prime⟩
  apply addOrderOf_eq_prime (follows.smul_eq_zero_of_ladderCheck checked)
  rw [point_eq]
  exact Point.some_ne_zero nonsingular

end Foundation.CoZ
