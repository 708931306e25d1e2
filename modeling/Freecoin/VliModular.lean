import Freecoin.VliProducts
import Mathlib.Data.Nat.ModEq

/-!
# Modular arithmetic on very long integers

Sums and differences of reduced numbers, and the reduction `ecdsa_vli_mmod` by shifting and
subtracting, which is made for moduli whose highest word is not zero.
-/

namespace Freecoin

open Foundation

variable {w : Nat}

/-! ## Sums and differences -/

/-- `ecdsa_vli_modAdd`. -/
def vliModAdd (left right mod : Vli w) : Vli w :=
  let sum := vliAdd left right
  if sum.2 ≠ 0#w ∨ vliCmpUnsafe mod sum.1 ≠ 1 then (vliSub sum.1 mod).1 else sum.1

/-- `ecdsa_vli_modSub`. -/
def vliModSub (left right mod : Vli w) : Vli w :=
  let diff := vliSub left right
  if diff.2 ≠ 0#w then (vliAdd diff.1 mod).1 else diff.1

section Reduced

variable {left right mod : Vli w} (leftLength : left.length = mod.length)
  (rightLength : right.length = mod.length)

include leftLength rightLength

theorem length_vliModAdd : (vliModAdd left right mod).length = mod.length := by
  have length_eq := length_vliAdd (leftLength.trans rightLength.symm)
  unfold vliModAdd
  dsimp only
  split
  · rw [length_vliSub (length_eq.trans leftLength), length_eq, leftLength]
  · rw [length_eq, leftLength]

theorem length_vliModSub : (vliModSub left right mod).length = mod.length := by
  have length_eq := length_vliSub (leftLength.trans rightLength.symm)
  unfold vliModSub
  dsimp only
  split
  · rw [length_vliAdd (length_eq.trans leftLength), length_eq, leftLength]
  · rw [length_eq, leftLength]

/-- When one of the numbers is reduced the sum is right up to one subtraction, also when it does not
fit in the words. -/
theorem vliModAdd_cases (rightSmall : Limbs.value right < Limbs.value mod) :
    (Limbs.value left + Limbs.value right < Limbs.value mod ∧
        Limbs.value (vliModAdd left right mod) = Limbs.value left + Limbs.value right) ∨
      (Limbs.value mod ≤ Limbs.value left + Limbs.value right ∧
        Limbs.value (vliModAdd left right mod) =
          Limbs.value left + Limbs.value right - Limbs.value mod) := by
  have lengths := leftLength.trans rightLength.symm
  have sumLength := (length_vliAdd lengths).trans leftLength
  have total := vliAdd_spec lengths
  have bound := Limbs.value_lt mod
  have leftBound := Limbs.value_lt left
  rw [leftLength] at total leftBound
  unfold vliModAdd
  dsimp only
  by_cases carried : (vliAdd left right).2 = 0#w
  · rw [carried, BitVec.toNat_zero, mul_zero, add_zero] at total
    by_cases below : Limbs.value (vliAdd left right).1 < Limbs.value mod
    · have smaller := (vliCmpUnsafe_eq_one_iff sumLength.symm).mpr below
      rw [if_neg (by simp [carried, smaller])]
      exact .inl ⟨total ▸ below, total⟩
    · have notBelow := (vliCmpUnsafe_eq_one_iff sumLength.symm).not.mpr below
      rw [if_pos (.inr notBelow), value_vliSub_of_le sumLength (by omega), total]
      exact .inr ⟨by omega, rfl⟩
  · have one := vliAdd_carry_le lengths
    have positive := Limbs.toNat_pos_of_ne_zero carried
    have carry : (vliAdd left right).2.toNat = 1 := by
      omega
    rw [carry, mul_one] at total
    rw [if_pos (.inl carried), value_vliSub_of_lt sumLength (by omega), sumLength]
    exact .inr ⟨by omega, by omega⟩

variable (leftSmall : Limbs.value left < Limbs.value mod)
  (rightSmall : Limbs.value right < Limbs.value mod)

include leftSmall rightSmall

/-- The sum of two reduced numbers is reduced. -/
theorem value_vliModAdd :
    Limbs.value (vliModAdd left right mod) =
      (Limbs.value left + Limbs.value right) % Limbs.value mod := by
  rcases vliModAdd_cases leftLength rightLength rightSmall with ⟨below, sum⟩ | ⟨above, sum⟩
  · rw [sum, Nat.mod_eq_of_lt below]
  · rw [sum, Nat.mod_eq_sub_mod above, Nat.mod_eq_of_lt (by omega)]

/-- A difference that wraps is put right by one addition that wraps back. -/
theorem value_vliModSub :
    Limbs.value (vliModSub left right mod) =
      (Limbs.value left + Limbs.value mod - Limbs.value right) % Limbs.value mod := by
  have lengths := leftLength.trans rightLength.symm
  have diffLength := (length_vliSub lengths).trans leftLength
  have bound := Limbs.value_lt mod
  unfold vliModSub
  dsimp only
  by_cases below : Limbs.value right ≤ Limbs.value left
  · have none := (vliSub_borrow_eq_zero_iff lengths).mpr below
    rw [if_neg (not_not_intro none), value_vliSub_of_le lengths below,
      Nat.mod_eq_sub_mod (by omega), Nat.mod_eq_of_lt (by omega)]
    omega
  · have borrowed := (vliSub_borrow_eq_zero_iff lengths).not.mpr below
    rw [if_pos borrowed, value_vliAdd diffLength, value_vliSub_of_lt lengths (by omega), diffLength,
      leftLength, Nat.mod_eq_of_lt (show Limbs.value left + Limbs.value mod - Limbs.value right <
        Limbs.value mod by omega), Nat.mod_eq_sub_mod (by omega), Nat.mod_eq_of_lt (by omega)]
    omega

end Reduced

/-- On reduced numbers the modular sum and the modular difference undo each other. -/
theorem vliModAdd_vliModSub_inverse {left right mod : Vli w} (leftLength : left.length = mod.length)
    (rightLength : right.length = mod.length) (leftSmall : Limbs.value left < Limbs.value mod)
    (rightSmall : Limbs.value right < Limbs.value mod) :
    vliModSub (vliModAdd left right mod) right mod = left ∧
      vliModAdd (vliModSub left right mod) right mod = left := by
  have sumLength := length_vliModAdd leftLength rightLength
  have diffLength := length_vliModSub leftLength rightLength
  have sum := value_vliModAdd leftLength rightLength leftSmall rightSmall
  have diff := value_vliModSub leftLength rightLength leftSmall rightSmall
  have positive : 0 < Limbs.value mod := Nat.zero_lt_of_lt leftSmall
  have sumSmall : Limbs.value (vliModAdd left right mod) < Limbs.value mod :=
    sum ▸ Nat.mod_lt _ positive
  have diffSmall : Limbs.value (vliModSub left right mod) < Limbs.value mod :=
    diff ▸ Nat.mod_lt _ positive
  constructor
  · apply Limbs.eq_of_value_eq
      ((length_vliModSub sumLength rightLength).trans leftLength.symm)
    rw [value_vliModSub sumLength rightLength sumSmall rightSmall, sum,
      Nat.add_sub_assoc rightSmall.le, Nat.mod_add_mod, Nat.add_assoc,
      Nat.add_sub_cancel' rightSmall.le, Nat.add_mod_right, Nat.mod_eq_of_lt leftSmall]
  · apply Limbs.eq_of_value_eq
      ((length_vliModAdd diffLength rightLength).trans leftLength.symm)
    rw [value_vliModAdd diffLength rightLength diffSmall rightSmall, diff, Nat.mod_add_mod,
      Nat.sub_add_cancel (by omega), Nat.add_mod_right, Nat.mod_eq_of_lt leftSmall]

theorem vliModAdd_vliModSub_inverse_overflowing :
    vliModSub (vliModAdd [0xf0#8] [0xf1#8] [0xfb#8]) [0xf1#8] [0xfb#8] = [0xf0#8] :=
  (@vliModAdd_vliModSub_inverse 8 [0xf0] [0xf1] [0xfb] rfl rfl (by decide) (by decide)).1

/-! ## Reduction -/

/-- The loop of `ecdsa_vli_mmod` that shifts the modulus by less than a word. -/
def mmodShifted (bitShift : Nat) : (mod : Vli w) → (carry : BitVec w) → Vli w
  | [], _ => []
  | word :: mod, carry =>
      (word <<< bitShift ||| carry) :: mmodShifted bitShift mod (word >>> (w - bitShift))

/-- `shift` of `ecdsa_vli_mmod`. -/
def mmodShift (mod : Vli w) : Nat := mod.length * 2 * w - vliNumBits mod

/-- `mod_multiple` before the first step, as far as the steps read it. -/
def mmodMultiple (mod : Vli w) : Vli w :=
  let wordShift := mmodShift mod / w
  let bitShift := mmodShift mod % w
  (vliClear wordShift ++ if bitShift > 0 then mmodShifted bitShift mod 0#w else mod).take
    (mod.length * 2)

/-- The variables of `ecdsa_vli_mmod`: `v[0]` is `tmp` and `v[1]` is `product`. -/
structure MmodState (w : Nat) where
  tmp : Vli w
  product : Vli w
  index : Bool
  modMultiple : Vli w

/-- `v[index]`. -/
def MmodState.current (state : MmodState w) : Vli w :=
  if state.index then state.product else state.tmp

/-- One step of `ecdsa_vli_mmod`; the subtraction is the loop of `ecdsa_vli_sub`, and the multiple
is halved as two numbers of `numWords` words. -/
def mmodStep (numWords : Nat) (state : MmodState w) : MmodState w :=
  let diff := vliSub state.current state.modMultiple
  let low := vliRshift1 (state.modMultiple.take numWords)
  let high := state.modMultiple.drop numWords
  { tmp := if state.index then diff.1 else state.tmp
    product := if state.index then state.product else diff.1
    index := !(state.index ^^ (diff.2 != 0#w))
    modMultiple :=
      low.set (numWords - 1) (low.getD (numWords - 1) 0#w ||| high.getD 0 0#w <<< (w - 1)) ++
        vliRshift1 high }

/-- `ecdsa_vli_mmod`.  `mod_multiple` has twice `ecdsa_MAX_WORDS` words, as many as `tmp`, of which
fewer are written.  The words of `tmp` are written before they are read. -/
def vliMmod (product mod : Vli w) : Run (Vli w) :=
  withArray (2 * ecdsaMaxWords w) (mmodShift mod / w + mod.length) <|
    let start : MmodState w :=
      { tmp := vliClear (mod.length * 2), product, index := true, modMultiple := mmodMultiple mod }
    .ok (((mmodStep mod.length)^[mmodShift mod + 1] start).current.take mod.length)

/-- `ecdsa_vli_modMult`. -/
def vliModMult (left right mod : Vli w) : Run (Vli w) :=
  withArray (2 * ecdsaMaxWords w) (2 * left.length) <| do
    let product ← vliMult left right
    vliMmod product mod

/-- The bits shifted out of a word are the carry into the next one. -/
theorem shiftLeft_or_spec (word : BitVec w) {carry : BitVec w} {bitShift : Nat}
    (inside : bitShift ≤ w)
    (small : carry.toNat < 2 ^ bitShift) :
    (word <<< bitShift ||| carry).toNat + 2 ^ w * (word >>> (w - bitShift)).toNat =
      word.toNat * 2 ^ bitShift + carry.toNat := by
  have width : 2 ^ w = 2 ^ bitShift * 2 ^ (w - bitShift) := by
    rw [← pow_add, Nat.add_sub_cancel' inside]
  have high : (word >>> (w - bitShift)).toNat = word.toNat / 2 ^ (w - bitShift) := by
    rw [BitVec.toNat_ushiftRight, Nat.shiftRight_eq_div_pow]
  have low : (word <<< bitShift).toNat = 2 ^ bitShift * (word.toNat % 2 ^ (w - bitShift)) := by
    rw [BitVec.toNat_shiftLeft, Nat.shiftLeft_eq, Nat.mul_comm, width, Nat.mul_mod_mul_left]
  rw [BitVec.toNat_or, low, high, ← Nat.two_pow_add_eq_or_of_lt small]
  conv_rhs => rw [← Nat.mod_add_div word.toNat (2 ^ (w - bitShift))]
  rw [width]
  ring

theorem mmodShifted_spec {bitShift : Nat} (inside : bitShift ≤ w) (mod : Vli w) {carry : BitVec w}
    (small : carry.toNat < 2 ^ bitShift) :
    (mmodShifted bitShift mod carry).length = mod.length ∧
      Limbs.value (mmodShifted bitShift mod carry) ≡
        Limbs.value mod * 2 ^ bitShift + carry.toNat [MOD 2 ^ (w * mod.length)] := by
  induction mod generalizing carry with
  | nil => exact ⟨rfl, by simp [mmodShifted, Nat.modEq_one]⟩
  | cons word mod ih =>
      have next : (word >>> (w - bitShift)).toNat < 2 ^ bitShift := by
        have bound := word.isLt
        rw [BitVec.toNat_ushiftRight, Nat.shiftRight_eq_div_pow]
        apply Nat.div_lt_of_lt_mul
        rwa [← pow_add, Nat.sub_add_cancel inside]
      obtain ⟨length_eq, total⟩ := ih next
      have step := shiftLeft_or_spec word inside small
      refine ⟨by rw [mmodShifted, List.length_cons, length_eq, List.length_cons], ?_⟩
      rw [mmodShifted, Limbs.value_cons, Limbs.value_cons, List.length_cons, Limbs.pow_mul_succ]
      calc (word <<< bitShift ||| carry).toNat +
            2 ^ w * Limbs.value (mmodShifted bitShift mod (word >>> (w - bitShift)))
          ≡ (word <<< bitShift ||| carry).toNat + 2 ^ w * (Limbs.value mod * 2 ^ bitShift +
              (word >>> (w - bitShift)).toNat) [MOD 2 ^ w * 2 ^ (w * mod.length)] :=
            (total.mul_left' (2 ^ w)).add_left _
        _ = (word.toNat + 2 ^ w * Limbs.value mod) * 2 ^ bitShift + carry.toNat := by
            linear_combination step

section Mmod

variable {mod : Vli w} (positive : 0 < w) (nonempty : 0 < mod.length)
  (top : 2 ^ (w * (mod.length - 1)) ≤ Limbs.value mod)

include positive nonempty top

/-- With a highest word that is not zero the modulus is shifted by its length and less than a
word. -/
theorem mmodShift_spec :
    mmodShift mod / w = mod.length ∧ mmodShift mod % w < w ∧
      mmodShift mod = w * mod.length + mmodShift mod % w ∧
      vliNumBits mod + mmodShift mod % w = w * mod.length := by
  have upper : vliNumBits mod ≤ w * mod.length := by
    rw [vliNumBits_eq, Nat.size_le]
    exact Limbs.value_lt mod
  have lower : w * (mod.length - 1) < vliNumBits mod := by
    rw [vliNumBits_eq, Nat.lt_size]
    exact top
  obtain ⟨rest, rest_eq⟩ := Nat.exists_eq_add_of_le upper
  have small : rest < w := by
    rw [Nat.mul_sub_one] at lower
    have factor := Nat.le_mul_of_pos_right w nonempty
    omega
  have shift : mmodShift mod = w * mod.length + rest := by
    rw [mmodShift, show mod.length * 2 * w = 2 * (w * mod.length) by ring]
    omega
  have quotient : mmodShift mod / w = mod.length := by
    rw [shift, Nat.mul_add_div positive, Nat.div_eq_of_lt small, Nat.add_zero]
  have remainder : mmodShift mod % w = rest := by
    rw [shift, Nat.mul_add_mod, Nat.mod_eq_of_lt small]
  rw [quotient, remainder]
  exact ⟨rfl, small, shift, rest_eq.symm⟩

/-- The multiple is the modulus shifted to the highest place of twice its length. -/
theorem mmodMultiple_spec :
    (mmodMultiple mod).length = 2 * mod.length ∧
      Limbs.value (mmodMultiple mod) = Limbs.value mod * 2 ^ mmodShift mod := by
  obtain ⟨words, inside, shift, bits⟩ := mmodShift_spec positive nonempty top
  have room : Limbs.value mod * 2 ^ (mmodShift mod % w) < 2 ^ (w * mod.length) := by
    rw [← bits, pow_add, vliNumBits_eq]
    exact Nat.mul_lt_mul_of_pos_right (Nat.lt_size_self _) (Nat.two_pow_pos _)
  obtain ⟨length_eq, total⟩ := mmodShifted_spec inside.le mod
    (show (0#w).toNat < _ by rw [BitVec.toNat_zero]; exact Nat.two_pow_pos _)
  have shifted : Limbs.value (mmodShifted (mmodShift mod % w) mod 0#w) =
      Limbs.value mod * 2 ^ (mmodShift mod % w) := by
    have bound := Limbs.value_lt (mmodShifted (mmodShift mod % w) mod 0#w)
    rw [length_eq] at bound
    exact total.eq_of_lt_of_lt bound room
  unfold mmodMultiple
  dsimp only
  split
  · rw [words,
      List.take_of_length_le (by rw [List.length_append, length_vliClear, length_eq]; omega),
      List.length_append, length_vliClear, length_eq, Limbs.value_append, value_vliClear,
      length_vliClear, shifted]
    refine ⟨by omega, ?_⟩
    conv_rhs => rw [shift, pow_add]
    ring
  · rename_i none
    obtain zero : mmodShift mod % w = 0 := by omega
    rw [words, List.take_of_length_le (by rw [List.length_append, length_vliClear]; omega),
      List.length_append, length_vliClear, Limbs.value_append, value_vliClear, length_vliClear]
    refine ⟨by omega, ?_⟩
    conv_rhs => rw [shift, zero]
    ring

end Mmod

theorem vliRshift1From_snd (vli : Vli w) :
    (vliRshift1From vli).2 = vli.getD 0 0#w <<< (w - 1) := by
  cases vli with
  | nil => simp [vliRshift1From]
  | cons word vli => rfl

/-- Halving a number in two parts, with the lowest bit of the upper part handed down. -/
theorem vliRshift1_append (low high : Vli w) (word : BitVec w) :
    vliRshift1 (word :: low ++ high) =
      (vliRshift1 (word :: low)).set low.length
        ((vliRshift1 (word :: low)).getD low.length 0#w ||| high.getD 0 0#w <<< (w - 1)) ++
      vliRshift1 high := by
  induction low generalizing word with
  | nil => simp [vliRshift1, vliRshift1From, vliRshift1From_snd]
  | cons next low ih =>
      have tail := ih next
      simp only [vliRshift1, List.cons_append, vliRshift1From, vliRshift1From_snd] at tail ⊢
      rw [tail]
      rfl

/-- The index moves to the difference unless there was a borrow. -/
theorem current_mmodStep (numWords : Nat) (state : MmodState w) :
    (mmodStep numWords state).current =
      if (vliSub state.current state.modMultiple).2 = 0#w then
        (vliSub state.current state.modMultiple).1
      else state.current := by
  by_cases none : (vliSub state.current state.modMultiple).2 = 0#w
  · rw [if_pos none]
    cases index : state.index <;>
      simp [mmodStep, MmodState.current, index] at none ⊢ <;> simp [none]
  · rw [if_neg none]
    cases index : state.index <;>
      simp [mmodStep, MmodState.current, index] at none ⊢ <;> simp [none]

theorem modMultiple_mmodStep {numWords : Nat} (nonempty : 0 < numWords) {state : MmodState w}
    (length_eq : state.modMultiple.length = 2 * numWords) :
    (mmodStep numWords state).modMultiple = vliRshift1 state.modMultiple := by
  have lowLength : (state.modMultiple.take numWords).length = numWords :=
    List.length_take_of_le (by omega)
  obtain ⟨word, low, low_eq⟩ := List.exists_cons_of_length_pos (lowLength ▸ nonempty)
  rw [low_eq, List.length_cons] at lowLength
  have split := vliRshift1_append low (state.modMultiple.drop numWords) word
  rw [← low_eq, List.take_append_drop] at split
  rw [split, mmodStep, show numWords - 1 = low.length by omega]

/-- What holds before a step of `ecdsa_vli_mmod` that subtracts the modulus shifted by `shift`. -/
structure MmodInvariant (product mod : Vli w) (shift : Nat) (state : MmodState w) : Prop where
  length_current : state.current.length = 2 * mod.length
  length_multiple : state.modMultiple.length = 2 * mod.length
  value_multiple : Limbs.value state.modMultiple = Limbs.value mod * 2 ^ shift
  current_lt : Limbs.value state.current < Limbs.value mod * 2 ^ (shift + 1)
  congruent : Limbs.value state.current ≡ Limbs.value product [MOD Limbs.value mod]

namespace MmodInvariant

variable {product mod : Vli w} {shift : Nat} {state : MmodState w}

/-- After the step the number is below the multiple that was subtracted. -/
theorem current_step (holds : MmodInvariant product mod shift state) :
    (mmodStep mod.length state).current.length = 2 * mod.length ∧
      Limbs.value (mmodStep mod.length state).current < Limbs.value mod * 2 ^ shift ∧
      Limbs.value (mmodStep mod.length state).current ≡
        Limbs.value product [MOD Limbs.value mod] := by
  have lengths : state.current.length = state.modMultiple.length :=
    holds.length_current.trans holds.length_multiple.symm
  have bound := holds.current_lt
  have multiple := holds.value_multiple
  rw [pow_succ, ← mul_assoc, ← multiple] at bound
  rw [current_mmodStep, ← multiple]
  split
  · rename_i none
    have fits := (vliSub_borrow_eq_zero_iff lengths).mp none
    have difference := value_vliSub_of_le lengths fits
    refine ⟨(length_vliSub lengths).trans holds.length_current, by omega, ?_⟩
    calc Limbs.value (vliSub state.current state.modMultiple).1
        ≡ Limbs.value (vliSub state.current state.modMultiple).1 + Limbs.value mod * 2 ^ shift
          [MOD Limbs.value mod] := (Nat.modEq_of_dvd (by simp))
      _ = Limbs.value state.current := by omega
      _ ≡ Limbs.value product [MOD Limbs.value mod] := holds.congruent
  · rename_i borrowed
    have above := (vliSub_borrow_eq_zero_iff lengths).not.mp borrowed
    exact ⟨holds.length_current, by omega, holds.congruent⟩

theorem step (positive : 0 < w) (nonempty : 0 < mod.length)
    (holds : MmodInvariant product mod (shift + 1) state) :
    MmodInvariant product mod shift (mmodStep mod.length state) := by
  obtain ⟨length_eq, bound, congruent⟩ := holds.current_step
  have multiple := modMultiple_mmodStep nonempty holds.length_multiple
  refine ⟨length_eq, ?_, ?_, bound, congruent⟩
  · rw [multiple, length_vliRshift1 positive, holds.length_multiple]
  · rw [multiple, value_vliRshift1 positive, holds.value_multiple, pow_succ, ← mul_assoc,
      Nat.mul_div_cancel _ Nat.two_pos]

/-- All steps together. -/
theorem iterate (positive : 0 < w) (nonempty : 0 < mod.length)
    (holds : MmodInvariant product mod shift state) :
    let last := (mmodStep mod.length)^[shift + 1] state
    last.current.length = 2 * mod.length ∧
      Limbs.value last.current = Limbs.value product % Limbs.value mod := by
  induction shift generalizing state with
  | zero =>
      obtain ⟨length_eq, bound, congruent⟩ := holds.current_step
      rw [pow_zero, mul_one] at bound
      refine ⟨length_eq, ?_⟩
      rw [← congruent, Nat.mod_eq_of_lt bound]
      rfl
  | succ shift ih => exact ih (holds.step positive nonempty)

end MmodInvariant

section Mmod

variable {mod : Vli w} (positive : 0 < w) (nonempty : 0 < mod.length)
  (top : 2 ^ (w * (mod.length - 1)) ≤ Limbs.value mod)

include positive nonempty top

variable (room : mod.length ≤ ecdsaMaxWords w)

include room

/-- `ecdsa_vli_mmod` reduces every product of two words for each word of the modulus. -/
theorem vliMmod_spec {product : Vli w} (double : product.length = 2 * mod.length) :
    Returns (vliMmod product mod) fun result => result.length = mod.length ∧
      Limbs.value result = Limbs.value product % Limbs.value mod := by
  obtain ⟨length_multiple, value_multiple⟩ := mmodMultiple_spec positive nonempty top
  obtain ⟨words, _, shift, bits⟩ := mmodShift_spec positive nonempty top
  have start : MmodInvariant product mod (mmodShift mod)
      { tmp := vliClear (mod.length * 2), product, index := true
        modMultiple := mmodMultiple mod } := by
    refine ⟨double, length_multiple, value_multiple, ?_, Nat.ModEq.refl _⟩
    have bound := Limbs.value_lt product
    have nonzero : 0 < vliNumBits mod := by
      rw [vliNumBits_eq, Nat.size_pos]
      exact (Nat.two_pow_pos _).trans_le top
    have reached : 2 ^ (vliNumBits mod - 1) ≤ Limbs.value mod := by
      rw [← Nat.lt_size, ← vliNumBits_eq]
      omega
    calc Limbs.value product
        < 2 ^ (w * product.length) := bound
      _ = 2 ^ (vliNumBits mod - 1) * 2 ^ (mmodShift mod + 1) := by
          rw [← pow_add, double, show w * (2 * mod.length) = 2 * (w * mod.length) by ring]
          congr 1
          omega
      _ ≤ Limbs.value mod * 2 ^ (mmodShift mod + 1) := Nat.mul_le_mul_right _ reached
  obtain ⟨length_eq, value_eq⟩ := start.iterate positive nonempty
  have modPositive := (Nat.two_pow_pos _).trans_le top
  have inside := (Nat.le_mul_of_pos_left mod.length Nat.two_pos).trans length_eq.ge
  have remainder := (Nat.mod_lt (Limbs.value product) modPositive).trans (Limbs.value_lt mod)
  rw [vliMmod, withArray_of_le (by rw [words]; omega)]
  refine Returns.ok ⟨List.length_take_of_le inside, ?_⟩
  rw [Limbs.value_take_of_lt inside (value_eq.trans_lt remainder), value_eq]

omit positive in
/-- `ecdsa_vli_modMult` multiplies modulo `mod`. -/
theorem vliModMult_spec {left right : Vli w} (wide : 8 ≤ w) (leftLength : left.length = mod.length)
    (rightLength : right.length = mod.length) :
    Returns (vliModMult left right mod) fun result => result.length = mod.length ∧
      Limbs.value result = Limbs.value left * Limbs.value right % Limbs.value mod := by
  have few := ecdsaMaxWords_le wide
  rw [vliModMult, withArray_of_le (by omega)]
  refine (vliMult_spec wide (leftLength.trans rightLength.symm) (leftLength ▸ nonempty)
    (by omega)).bind fun product product_eq => ?_
  obtain ⟨length_eq, value_eq⟩ := product_eq
  rw [← value_eq]
  exact vliMmod_spec (by omega) nonempty top room (length_eq.trans (by rw [leftLength]))

end Mmod

end Freecoin
