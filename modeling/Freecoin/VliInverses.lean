import Freecoin.Foundation.Memory
import Freecoin.VliModular
import Mathlib.Data.Nat.Prime.Basic

/-!
# Inverses of very long integers

`ecdsa_vli_modInv` is a binary form of Euclid's algorithm on `a` and `b`, with `u` and `v` as their
quotients by the input.  For an odd modulus every round halves the product of `a` and `b`, so that
twice as many rounds as the modulus has bits are enough.
-/

namespace Freecoin

open Foundation

variable {w : Nat}

/-- `EVEN`. -/
def vliEven (vli : Vli w) : Bool := vli.getD 0 0#w &&& 1#w == 0#w

/-- `HIGH_BIT_SET`. -/
def highBitSet : BitVec w := 1#w <<< (w - 1)

/-- `vli_modInv_update`. -/
def vliModInvUpdate (uv mod : Vli w) : Vli w :=
  let sum := if vliEven uv then (uv, 0#w) else vliAdd uv mod
  let half := vliRshift1 sum.1
  if sum.2 ≠ 0#w then half.set (uv.length - 1) (half.getD (uv.length - 1) 0#w ||| highBitSet)
  else half

/-- The words `a`, `b`, `u` and `v` of `ecdsa_vli_modInv`. -/
structure ModInvState (w : Nat) where
  a : Vli w
  b : Vli w
  u : Vli w
  v : Vli w

/-- `u = u - v`, with the modulus added first when `u` is the smaller one. -/
def modInvDifference (u v mod : Vli w) : Vli w :=
  let u := if vliCmpUnsafe u v < 0 then (vliAdd u mod).1 else u
  (vliSub u v).1

/-- One round of `ecdsa_vli_modInv`. -/
def modInvStep (mod : Vli w) (state : ModInvState w) : ModInvState w :=
  if vliEven state.a then
    { state with a := vliRshift1 state.a, u := vliModInvUpdate state.u mod }
  else if vliEven state.b then
    { state with b := vliRshift1 state.b, v := vliModInvUpdate state.v mod }
  else if vliCmpUnsafe state.a state.b > 0 then
    { state with
      a := vliRshift1 (vliSub state.a state.b).1
      u := vliModInvUpdate (modInvDifference state.u state.v mod) mod }
  else
    { state with
      b := vliRshift1 (vliSub state.b state.a).1
      v := vliModInvUpdate (modInvDifference state.v state.u mod) mod }

/-- The loop of `ecdsa_vli_modInv`. -/
def modInvLoop (mod : Vli w) : (fuel : Nat) → ModInvState w → Run (Vli w)
  | fuel, state =>
      if vliCmpUnsafe state.a state.b = 0 then .ok state.u
      else
        match fuel with
        | 0 => .error .outOfFuel
        | fuel + 1 => modInvLoop mod fuel (modInvStep mod state)

/-- `ecdsa_vli_modInv`; `a`, `b`, `u` and `v` have `ecdsa_MAX_WORDS` words each. -/
def vliModInv (input mod : Vli w) : Run (Vli w) :=
  if vliIsZero input then .ok (vliClear mod.length)
  else
    withArray (ecdsaMaxWords w) mod.length <|
      modInvLoop mod (2 * (w * mod.length))
        { a := input, b := mod, u := (vliClear mod.length).set 0 1#w, v := vliClear mod.length }

/-! ## Halving modulo an odd number -/

theorem vliEven_eq_true_iff (positive : 0 < w) {vli : Vli w} :
    vliEven vli = true ↔ Even (Limbs.value vli) := by
  have bit := Limbs.testBit_value positive vli 0
  rw [Nat.zero_div, Nat.zero_mod, ← and_bit_ne_zero positive, BitVec.shiftLeft_zero,
    Nat.testBit_zero] at bit
  calc vliEven vli = true
      ↔ ¬ (vli.getD 0 0#w &&& 1#w != 0#w) = true := by rw [vliEven, beq_iff_eq, bne_iff_ne, not_not]
    _ ↔ ¬ Limbs.value vli % 2 = 1 := by rw [← bit, decide_eq_true_iff]
    _ ↔ Even (Limbs.value vli) := by rw [Nat.even_iff, Nat.mod_two_not_eq_one]

theorem set_getD_or_zero (vli : Vli w) (index : Nat) :
    vli.set index (vli.getD index 0#w ||| 0#w) = vli := by
  rw [BitVec.or_zero]
  by_cases inside : index < vli.length
  · rw [List.getD_eq_getElem?_getD, List.getElem?_eq_getElem inside, Option.getD_some,
      List.set_getElem_self]
  · rw [List.set_eq_of_length_le (Nat.le_of_not_lt inside)]

/-- The carry that is shifted to the highest place is set there when it is one. -/
theorem set_carry_eq (half : Vli w) (index : Nat) {carry : BitVec w} (bit : carry.toNat ≤ 1) :
    half.set index (half.getD index 0#w ||| carry <<< (w - 1)) =
      if carry ≠ 0#w then half.set index (half.getD index 0#w ||| highBitSet) else half := by
  split
  · rename_i carried
    have one : carry = 1#w := by
      have positive := Limbs.toNat_pos_of_ne_zero carried
      have bound := carry.isLt
      apply BitVec.eq_of_toNat_eq
      rw [BitVec.toNat_ofNat, Nat.mod_eq_of_lt (by omega)]
      omega
    rw [one]
    rfl
  · rename_i none
    rw [not_not.mp none, BitVec.zero_shiftLeft, set_getD_or_zero]

/-- A sum and the carry above it are halved together. -/
theorem half_append_carry {sum : Vli w} {carry : BitVec w} (nonempty : 0 < sum.length)
    (bit : carry.toNat ≤ 1) :
    (if carry ≠ 0#w then
        (vliRshift1 sum).set (sum.length - 1)
          ((vliRshift1 sum).getD (sum.length - 1) 0#w ||| highBitSet)
      else vliRshift1 sum) ++ vliRshift1 [carry] = vliRshift1 (sum ++ [carry]) := by
  obtain ⟨word, low, rfl⟩ := List.exists_cons_of_length_pos nonempty
  rw [vliRshift1_append, List.length_cons, Nat.add_sub_cancel, List.getD_cons_zero,
    set_carry_eq _ _ bit]

theorem half_with_carry (positive : 0 < w) (sum : Vli w) (carry : BitVec w)
    (nonempty : 0 < sum.length) (bit : carry.toNat ≤ 1) :
    let half := if carry ≠ 0#w then
        (vliRshift1 sum).set (sum.length - 1)
          ((vliRshift1 sum).getD (sum.length - 1) 0#w ||| highBitSet)
      else vliRshift1 sum
    half.length = sum.length ∧
      Limbs.value half = (Limbs.value sum + 2 ^ (w * sum.length) * carry.toNat) / 2 := by
  intro half
  have joined : half ++ vliRshift1 [carry] = vliRshift1 (sum ++ [carry]) :=
    half_append_carry nonempty bit
  have lengths := congrArg List.length joined
  have values := congrArg Limbs.value joined
  have none : Limbs.value (vliRshift1 [carry]) = 0 := by
    rw [value_vliRshift1 positive, Limbs.value_cons, Limbs.value_nil]
    omega
  rw [List.length_append, length_vliRshift1 positive, length_vliRshift1 positive,
    List.length_append] at lengths
  rw [Limbs.value_append, none, mul_zero, add_zero, value_vliRshift1 positive, Limbs.value_append,
    Limbs.value_cons, Limbs.value_nil, mul_zero, add_zero] at values
  exact ⟨Nat.add_right_cancel lengths, values⟩

section Update

variable {uv mod : Vli w} (positive : 0 < w) (lengths : uv.length = mod.length)
  (oddMod : Odd (Limbs.value mod)) (small : Limbs.value uv < Limbs.value mod)

include positive lengths oddMod small

/-- `vli_modInv_update` halves modulo an odd number; the carry of the sum comes back as the highest
bit. -/
theorem vliModInvUpdate_spec :
    (vliModInvUpdate uv mod).length = mod.length ∧
      Limbs.value (vliModInvUpdate uv mod) < Limbs.value mod ∧
      2 * Limbs.value (vliModInvUpdate uv mod) ≡ Limbs.value uv [MOD Limbs.value mod] := by
  have nonempty : 0 < uv.length := by
    by_contra empty
    obtain rfl : mod = [] := List.length_eq_zero_iff.mp (by omega)
    simp at small
  by_cases even : vliEven uv = true
  · obtain ⟨length_eq, value_eq⟩ := half_with_carry positive uv 0#w nonempty (by simp)
    have sumEven := (vliEven_eq_true_iff positive).mp even
    rw [vliModInvUpdate, if_pos even, length_eq, value_eq, BitVec.toNat_zero, mul_zero, add_zero,
      Nat.two_mul_div_two_of_even sumEven]
    exact ⟨lengths, by omega, Nat.ModEq.refl _⟩
  · have total := vliAdd_spec lengths
    have sumLength := length_vliAdd lengths
    obtain ⟨length_eq, value_eq⟩ := half_with_carry positive (vliAdd uv mod).1
      (vliAdd uv mod).2 (sumLength ▸ nonempty) (vliAdd_carry_le lengths)
    have odd := Nat.not_even_iff_odd.mp ((vliEven_eq_true_iff positive).not.mp even)
    have sumEven := odd.add_odd oddMod
    rw [sumLength] at length_eq value_eq
    rw [total] at value_eq
    rw [vliModInvUpdate, if_neg even, length_eq, value_eq, Nat.two_mul_div_two_of_even sumEven]
    exact ⟨lengths, by omega, Nat.add_modEq_right⟩

end Update

section Difference

variable {u v mod : Vli w} (uLength : u.length = mod.length) (vLength : v.length = mod.length)
  (uSmall : Limbs.value u < Limbs.value mod) (vSmall : Limbs.value v < Limbs.value mod)

include uLength vLength uSmall vSmall

/-- The difference is reduced, also when the sum with the modulus does not fit in the words. -/
theorem modInvDifference_spec :
    (modInvDifference u v mod).length = mod.length ∧
      Limbs.value (modInvDifference u v mod) < Limbs.value mod ∧
      Limbs.value (modInvDifference u v mod) + Limbs.value v ≡
        Limbs.value u [MOD Limbs.value mod] := by
  have bound := Limbs.value_lt mod
  have lengths := uLength.trans vLength.symm
  unfold modInvDifference
  dsimp only
  split
  · rename_i smaller
    have below := (vliCmpUnsafe_neg_iff lengths).mp smaller
    have sumLength := (length_vliAdd uLength).trans uLength
    have sumLengths := sumLength.trans vLength.symm
    have sum := value_vliAdd uLength
    have difference : Limbs.value (vliSub (vliAdd u mod).1 v).1 =
        Limbs.value u + Limbs.value mod - Limbs.value v := by
      rw [uLength] at sum
      by_cases fits : Limbs.value u + Limbs.value mod < 2 ^ (w * mod.length)
      · rw [Nat.mod_eq_of_lt fits] at sum
        rw [value_vliSub_of_le sumLengths (by omega), sum]
      · rw [Nat.mod_eq_sub_mod (by omega), Nat.mod_eq_of_lt (by omega)] at sum
        rw [value_vliSub_of_lt sumLengths (by omega), sumLength, sum]
        omega
    refine ⟨(length_vliSub sumLengths).trans sumLength, by omega, ?_⟩
    rw [difference, Nat.sub_add_cancel (by omega)]
    exact Nat.add_modEq_right
  · rename_i larger
    have above := (vliCmpUnsafe_neg_iff lengths).not.mp larger
    have difference := value_vliSub_of_le lengths (by omega)
    refine ⟨(length_vliSub lengths).trans uLength, by omega, ?_⟩
    rw [difference, Nat.sub_add_cancel (by omega)]

end Difference

/-! ## The loop -/

/-- What every round keeps: the words are reduced, `a` and `b` have the greatest common divisor of
the input and the modulus, and `u` and `v` are their quotients by the input. -/
structure ModInvInvariant (input mod : Vli w) (state : ModInvState w) : Prop where
  length_a : state.a.length = mod.length
  length_b : state.b.length = mod.length
  length_u : state.u.length = mod.length
  length_v : state.v.length = mod.length
  a_pos : 0 < Limbs.value state.a
  b_pos : 0 < Limbs.value state.b
  u_lt : Limbs.value state.u < Limbs.value mod
  v_lt : Limbs.value state.v < Limbs.value mod
  gcd_eq : Nat.gcd (Limbs.value state.a) (Limbs.value state.b) =
    Nat.gcd (Limbs.value input) (Limbs.value mod)
  u_quotient : Limbs.value state.u * Limbs.value input ≡ Limbs.value state.a [MOD Limbs.value mod]
  v_quotient : Limbs.value state.v * Limbs.value input ≡ Limbs.value state.b [MOD Limbs.value mod]

/-- The two sides of the algorithm exchanged. -/
def ModInvState.swap (state : ModInvState w) : ModInvState w :=
  { a := state.b, b := state.a, u := state.v, v := state.u }

namespace ModInvInvariant

variable {input mod : Vli w} {state : ModInvState w}

theorem swap (holds : ModInvInvariant input mod state) : ModInvInvariant input mod state.swap where
  length_a := holds.length_b
  length_b := holds.length_a
  length_u := holds.length_v
  length_v := holds.length_u
  a_pos := holds.b_pos
  b_pos := holds.a_pos
  u_lt := holds.v_lt
  v_lt := holds.u_lt
  gcd_eq := (Nat.gcd_comm _ _).trans holds.gcd_eq
  u_quotient := holds.v_quotient
  v_quotient := holds.u_quotient

section Halve

variable (positive : 0 < w) (oddMod : Odd (Limbs.value mod))

include positive oddMod

/-- Dividing an even `a` by two, with `u` halved modulo the odd modulus. -/
theorem halve (holds : ModInvInvariant input mod state) (even : Even (Limbs.value state.a)) :
    ModInvInvariant input mod
      { state with a := vliRshift1 state.a, u := vliModInvUpdate state.u mod } := by
  obtain ⟨length_u, u_lt, u_half⟩ :=
    vliModInvUpdate_spec positive holds.length_u oddMod holds.u_lt
  obtain ⟨half, half_eq⟩ := even
  have a_eq : Limbs.value state.a = 2 * half := by omega
  have shifted : Limbs.value (vliRshift1 state.a) = half := by
    rw [value_vliRshift1 positive, a_eq, Nat.mul_div_cancel_left _ Nat.two_pos]
  have coprimeMod : Nat.Coprime (Limbs.value mod) 2 := Nat.coprime_two_right.mpr oddMod
  have a_pos := holds.a_pos
  refine
    { length_a := (length_vliRshift1 positive _).trans holds.length_a
      length_b := holds.length_b
      length_u := length_u
      length_v := holds.length_v
      a_pos := by
        rw [shifted]
        omega
      b_pos := holds.b_pos
      u_lt := u_lt
      v_lt := holds.v_lt
      gcd_eq := ?_
      u_quotient := ?_
      v_quotient := holds.v_quotient }
  · -- The greatest common divisor divides the odd modulus, so that two divides at most one side.
    have gcd_eq := holds.gcd_eq
    have oddGcd : Nat.Coprime 2 (Nat.gcd (Limbs.value state.a) (Limbs.value state.b)) := by
      rw [gcd_eq]
      exact (coprimeMod.symm).coprime_dvd_right (Nat.gcd_dvd_right _ _)
    have oddB : Nat.Coprime 2 (Limbs.value state.b) := by
      rw [a_eq] at oddGcd
      rw [Nat.coprime_two_left, ← Nat.not_even_iff_odd]
      intro evenB
      have common : 2 ∣ Nat.gcd (2 * half) (Limbs.value state.b) :=
        Nat.dvd_gcd (Nat.dvd_mul_right 2 half) evenB.two_dvd
      exact absurd (Nat.Coprime.eq_one_of_dvd oddGcd common) (by decide)
    change Nat.gcd (Limbs.value (vliRshift1 state.a)) (Limbs.value state.b) = _
    rw [shifted, ← gcd_eq, a_eq, Nat.Coprime.gcd_mul_left_cancel half oddB]
  · change Limbs.value (vliModInvUpdate state.u mod) * Limbs.value input ≡
      Limbs.value (vliRshift1 state.a) [MOD Limbs.value mod]
    rw [shifted]
    refine Nat.ModEq.cancel_left_of_coprime (c := 2) (by rw [coprimeMod]) ?_
    calc 2 * (Limbs.value (vliModInvUpdate state.u mod) * Limbs.value input)
        = 2 * Limbs.value (vliModInvUpdate state.u mod) * Limbs.value input := by ring
      _ ≡ Limbs.value state.u * Limbs.value input [MOD Limbs.value mod] :=
          u_half.mul_right (Limbs.value input)
      _ ≡ Limbs.value state.a [MOD Limbs.value mod] := holds.u_quotient
      _ = 2 * half := a_eq

end Halve

/-- Subtracting the smaller `b` from `a`, and `v` from `u`. -/
theorem subtract (holds : ModInvInvariant input mod state)
    (above : Limbs.value state.b < Limbs.value state.a) :
    ModInvInvariant input mod
      { state with
        a := (vliSub state.a state.b).1
        u := modInvDifference state.u state.v mod } := by
  have lengths := holds.length_a.trans holds.length_b.symm
  have difference := value_vliSub_of_le lengths above.le
  obtain ⟨length_u, u_lt, u_difference⟩ :=
    modInvDifference_spec holds.length_u holds.length_v holds.u_lt holds.v_lt
  refine
    { length_a := (length_vliSub lengths).trans holds.length_a
      length_b := holds.length_b
      length_u := length_u
      length_v := holds.length_v
      a_pos := by
        rw [difference]
        omega
      b_pos := holds.b_pos
      u_lt := u_lt
      v_lt := holds.v_lt
      gcd_eq := ?_
      u_quotient := ?_
      v_quotient := holds.v_quotient }
  · change Nat.gcd (Limbs.value (vliSub state.a state.b).1) (Limbs.value state.b) = _
    rw [difference, Nat.gcd_sub_self_left above.le]
    exact holds.gcd_eq
  · change Limbs.value (modInvDifference state.u state.v mod) * Limbs.value input ≡
      Limbs.value (vliSub state.a state.b).1 [MOD Limbs.value mod]
    apply Nat.ModEq.add_right_cancel holds.v_quotient
    rw [← add_mul, difference, Nat.sub_add_cancel above.le]
    exact (u_difference.mul_right _).trans holds.u_quotient

section Step

variable (positive : 0 < w) (oddMod : Odd (Limbs.value mod))

include positive oddMod

/-- A round keeps the invariant and halves the product of `a` and `b`. -/
theorem step (holds : ModInvInvariant input mod state)
    (different : Limbs.value state.a ≠ Limbs.value state.b) :
    ModInvInvariant input mod (modInvStep mod state) ∧
      2 * (Limbs.value (modInvStep mod state).a * Limbs.value (modInvStep mod state).b) ≤
        Limbs.value state.a * Limbs.value state.b := by
  have lengths := holds.length_a.trans holds.length_b.symm
  unfold modInvStep
  split
  · rename_i even
    refine ⟨holds.halve positive oddMod ((vliEven_eq_true_iff positive).mp even), ?_⟩
    change 2 * (Limbs.value (vliRshift1 state.a) * Limbs.value state.b) ≤ _
    rw [value_vliRshift1 positive, ← mul_assoc]
    exact Nat.mul_le_mul_right _ (Nat.mul_div_le _ 2)
  · rename_i evenA
    split
    · rename_i even
      refine ⟨(holds.swap.halve positive oddMod ((vliEven_eq_true_iff positive).mp even)).swap, ?_⟩
      change 2 * (Limbs.value state.a * Limbs.value (vliRshift1 state.b)) ≤ _
      rw [value_vliRshift1 positive, Nat.mul_left_comm]
      exact Nat.mul_le_mul_left _ (Nat.mul_div_le _ 2)
    · rename_i evenB
      have oddA := Nat.not_even_iff_odd.mp ((vliEven_eq_true_iff positive).not.mp evenA)
      have oddB := Nat.not_even_iff_odd.mp ((vliEven_eq_true_iff positive).not.mp evenB)
      split
      · rename_i larger
        have above := (vliCmpUnsafe_pos_iff lengths).mp larger
        have difference := value_vliSub_of_le lengths above.le
        have even : Even (Limbs.value (vliSub state.a state.b).1) := by
          rw [difference]
          exact Nat.Odd.sub_odd oddA oddB
        refine ⟨(holds.subtract above).halve positive oddMod even, ?_⟩
        change 2 * (Limbs.value (vliRshift1 (vliSub state.a state.b).1) * Limbs.value state.b) ≤ _
        rw [value_vliRshift1 positive, difference, ← mul_assoc]
        exact Nat.mul_le_mul_right _ ((Nat.mul_div_le _ 2).trans (Nat.sub_le _ _))
      · rename_i smaller
        have notAbove := (vliCmpUnsafe_pos_iff lengths).not.mp smaller
        have below : Limbs.value state.a < Limbs.value state.b := by omega
        have difference := value_vliSub_of_le lengths.symm below.le
        have even : Even (Limbs.value (vliSub state.b state.a).1) := by
          rw [difference]
          exact Nat.Odd.sub_odd oddB oddA
        refine ⟨((holds.swap.subtract below).halve positive oddMod even).swap, ?_⟩
        change 2 * (Limbs.value state.a * Limbs.value (vliRshift1 (vliSub state.b state.a).1)) ≤ _
        rw [value_vliRshift1 positive, difference, Nat.mul_left_comm]
        exact Nat.mul_le_mul_left _ ((Nat.mul_div_le _ 2).trans (Nat.sub_le _ _))

/-- The loop ends within as many rounds as the product of `a` and `b` has bits. -/
theorem loop {fuel : Nat} (holds : ModInvInvariant input mod state)
    (enough : Limbs.value state.a * Limbs.value state.b < 2 ^ fuel) :
    ∃ result, modInvLoop mod fuel state = .ok result ∧ result.length = mod.length ∧
      Limbs.value result < Limbs.value mod ∧
      Limbs.value result * Limbs.value input ≡
        Nat.gcd (Limbs.value input) (Limbs.value mod) [MOD Limbs.value mod] := by
  induction fuel generalizing state with
  | zero =>
      have product := Nat.mul_pos holds.a_pos holds.b_pos
      omega
  | succ fuel ih =>
      have lengths := holds.length_a.trans holds.length_b.symm
      by_cases same : Limbs.value state.a = Limbs.value state.b
      · have stop := (vliCmpUnsafe_eq_zero_iff lengths).mpr same
        refine ⟨state.u, by rw [modInvLoop, if_pos stop], holds.length_u, holds.u_lt, ?_⟩
        rw [← holds.gcd_eq, ← same, Nat.gcd_self]
        exact holds.u_quotient
      · have continued := (vliCmpUnsafe_eq_zero_iff lengths).not.mpr same
        obtain ⟨kept, halved⟩ := holds.step positive oddMod same
        rw [modInvLoop, if_neg continued]
        exact ih kept (by rw [pow_succ] at enough; omega)

end Step

end ModInvInvariant

/-- `ecdsa_vli_modInv` ends for every odd modulus and every input, and the result times the input is
their greatest common divisor. -/
theorem vliModInv_spec (positive : 0 < w) {input mod : Vli w} (oddMod : Odd (Limbs.value mod))
    (large : 1 < Limbs.value mod) (room : mod.length ≤ ecdsaMaxWords w)
    (lengths : input.length = mod.length) (nonzero : 0 < Limbs.value input) :
    ∃ result, vliModInv input mod = .ok result ∧ result.length = mod.length ∧
      Limbs.value result < Limbs.value mod ∧
      Limbs.value result * Limbs.value input ≡
        Nat.gcd (Limbs.value input) (Limbs.value mod) [MOD Limbs.value mod] := by
  have nonempty : 0 < mod.length := by
    by_contra empty
    obtain rfl : mod = [] := List.length_eq_zero_iff.mp (by omega)
    simp at large
  have one : Limbs.value ((vliClear mod.length : Vli w).set 0 1#w) = 1 := by
    rw [value_vliClear_set nonempty, BitVec.toNat_ofNat,
      Nat.mod_eq_of_lt (Nat.one_lt_two_pow positive.ne')]
  have start : ModInvInvariant input mod
      { a := input, b := mod, u := (vliClear mod.length).set 0 1#w, v := vliClear mod.length } :=
    { length_a := lengths
      length_b := rfl
      length_u := by rw [List.length_set, length_vliClear]
      length_v := length_vliClear _
      a_pos := nonzero
      b_pos := Nat.zero_lt_of_lt large
      u_lt := one.trans_lt large
      v_lt := by
        rw [value_vliClear]
        omega
      gcd_eq := rfl
      u_quotient := by rw [one, one_mul]
      v_quotient := by
        rw [value_vliClear, zero_mul]
        exact (Nat.modEq_zero_iff_dvd.mpr dvd_rfl).symm }
  rw [vliModInv, if_neg (by rw [vliIsZero_eq_false_iff.mpr nonzero]; exact Bool.false_ne_true),
    withArray_of_le room]
  apply start.loop positive oddMod
  have product := Nat.mul_lt_mul'' (Limbs.value_lt input) (Limbs.value_lt mod)
  rwa [lengths, ← pow_add, ← two_mul] at product

theorem vliModInv_zero {input : Vli w} (mod : Vli w) (zero : Limbs.value input = 0) :
    vliModInv input mod = .ok (vliClear mod.length) := by
  rw [vliModInv, if_pos (vliIsZero_eq_true_iff.mpr zero)]

/-- Modulo an odd number whose highest word is not zero, an input without a common divisor has one
reduced inverse, and `ecdsa_vli_modInv` returns it, for as many words as the local arrays hold. -/
theorem vliModInv_inverse (wide : 8 ≤ w) {input mod : Vli w}
    (oddMod : Odd (Limbs.value mod)) (large : 1 < Limbs.value mod)
    (top : 2 ^ (w * (mod.length - 1)) ≤ Limbs.value mod) (room : mod.length ≤ ecdsaMaxWords w)
    (lengths : input.length = mod.length)
    (coprime : Nat.Coprime (Limbs.value input) (Limbs.value mod)) :
    ∃ result, vliModInv input mod = .ok result ∧ result.length = mod.length ∧
      Limbs.value result < Limbs.value mod ∧
      (∃ product, vliModMult result input mod = .ok product ∧ Limbs.value product = 1) ∧
      ∀ other product : Vli w, other.length = mod.length → Limbs.value other < Limbs.value mod →
        vliModMult other input mod = .ok product → Limbs.value product = 1 → other = result := by
  have nonempty : 0 < mod.length := by
    by_contra empty
    obtain rfl : mod = [] := List.length_eq_zero_iff.mp (by omega)
    simp at large
  have nonzero : 0 < Limbs.value input := by
    by_contra zero
    rw [Nat.eq_zero_of_not_pos zero, Nat.coprime_zero_left] at coprime
    omega
  obtain ⟨result, returned, length_eq, small, inverse⟩ :=
    vliModInv_spec (by omega) oddMod large room lengths nonzero
  rw [coprime] at inverse
  have multiplies := fun (other : Vli w) (otherLength : other.length = mod.length) =>
    vliModMult_spec nonempty top room wide otherLength lengths
  refine ⟨result, returned, length_eq, small, ?_, ?_⟩
  · obtain ⟨product, multiplied, _, value_eq⟩ := multiplies result length_eq
    exact ⟨product, multiplied, by rw [value_eq, inverse, Nat.mod_eq_of_lt large]⟩
  · intro other product otherLength otherSmall multiplied one
    have value_eq := ((multiplies other otherLength).of_eq_ok multiplied).2
    have same : Limbs.value other * Limbs.value input ≡
        Limbs.value result * Limbs.value input [MOD Limbs.value mod] := by
      rw [Nat.ModEq, ← value_eq, one, inverse, Nat.mod_eq_of_lt large]
    apply Limbs.eq_of_value_eq (otherLength.trans length_eq.symm)
    exact (Nat.ModEq.cancel_right_of_coprime coprime.symm same).eq_of_lt_of_lt otherSmall small

theorem vliModInv_inverse_of_three :
    ∃ result, vliModInv [3#8, 0#8] [0x01#8, 0x01#8] = .ok result ∧
      Limbs.value result < 257 ∧
      ∃ product, vliModMult result [3#8, 0#8] [0x01#8, 0x01#8] = .ok product ∧
        Limbs.value product = 1 := by
  obtain ⟨result, returned, _, small, inverse, _⟩ :=
    @vliModInv_inverse 8 le_rfl [3, 0] [1, 1] (by decide) (by decide) (by decide) (by decide) rfl
      (by decide)
  exact ⟨result, returned, small, inverse⟩

end Freecoin
