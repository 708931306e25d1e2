import Freecoin.Foundation.Memory
import Freecoin.VliModular
import Mathlib.Data.Int.ModEq

/-!
# The curve secp256r1

The constants of the curve that `ECDSA_CURVE` names, in 64-bit words, and the reduction modulo its
prime: the product is taken apart into half words, whose weights are reduced by hand, and the sum is
brought into range by adding or subtracting the prime.
-/

namespace Freecoin

open Foundation

/-- `BYTES_TO_WORDS_8`. -/
def bytesToWords8 (a b c d e f g h : BitVec 8) : BitVec 64 :=
  h ++ g ++ f ++ e ++ d ++ c ++ b ++ a

/-- `struct ecdsa_Curve_t`.  The points are pairs of coordinates; the functions of the curve other
than `mmod_fast` are the default ones. -/
structure EcdsaCurve where
  numWords : Nat
  numBytes : Nat
  numNBits : Nat
  p : Vli 64
  n : Vli 64
  G : Vli 64 × Vli 64
  b : Vli 64
  mmodFast : Vli 64 → Run (Vli 64)

/-- `curve_secp256r1.p`. -/
def secp256r1P : Vli 64 := [
  bytesToWords8 0xFF 0xFF 0xFF 0xFF 0xFF 0xFF 0xFF 0xFF,
  bytesToWords8 0xFF 0xFF 0xFF 0xFF 0x00 0x00 0x00 0x00,
  bytesToWords8 0x00 0x00 0x00 0x00 0x00 0x00 0x00 0x00,
  bytesToWords8 0x01 0x00 0x00 0x00 0xFF 0xFF 0xFF 0xFF]

/-! ## Fast reduction -/

/-- `result` and `carry` of `vli_mmod_fast_secp256r1`. -/
structure MmodFastSum where
  result : Vli 64
  carry : Int

namespace MmodFastSum

/-- `carry += ecdsa_vli_add(result, result, tmp)`. -/
def add (sum : MmodFastSum) (tmp : Vli 64) : MmodFastSum where
  result := (vliAdd sum.result tmp).1
  carry := sum.carry + (vliAdd sum.result tmp).2.toNat

/-- `carry -= ecdsa_vli_sub(result, result, tmp)`. -/
def sub (sum : MmodFastSum) (tmp : Vli 64) : MmodFastSum where
  result := (vliSub sum.result tmp).1
  carry := sum.carry - (vliSub sum.result tmp).2.toNat

/-- `carry += ecdsa_vli_add(tmp, tmp, tmp)`, and the sum with what `tmp` is then. -/
def addTwice (sum : MmodFastSum) (tmp : Vli 64) : MmodFastSum :=
  add { sum with carry := sum.carry + (vliAdd tmp tmp).2.toNat } (vliAdd tmp tmp).1

end MmodFastSum

/-- The sum of `vli_mmod_fast_secp256r1` before it is brought into range. -/
def mmodFastSum (product : Vli 64) : MmodFastSum :=
  let word := fun index => product.getD index 0#64
  let t := MmodFastSum.mk (product.take 4) 0
  let tmp := [0#64, word 5 &&& 0xffffffff00000000#64, word 6, word 7]
  let s1 := t.addTwice tmp
  -- The lowest word of `tmp` is what doubling left there.
  let s2 := s1.addTwice [(vliAdd tmp tmp).1.getD 0 0#64, word 6 <<< 32,
    word 6 >>> 32 ||| word 7 <<< 32, word 7 >>> 32]
  let s3 := s2.add [word 4, word 5 &&& 0xffffffff#64, 0#64, word 7]
  let s4 := s3.add [word 4 >>> 32 ||| word 5 <<< 32,
    word 5 >>> 32 ||| (word 6 &&& 0xffffffff00000000#64), word 7, word 6 >>> 32 ||| word 4 <<< 32]
  let d1 := s4.sub [word 5 >>> 32 ||| word 6 <<< 32, word 6 >>> 32, 0#64,
    (word 4 &&& 0xffffffff#64) ||| word 5 <<< 32]
  let d2 := d1.sub [word 6, word 7, 0#64,
    word 4 >>> 32 ||| (word 5 &&& 0xffffffff00000000#64)]
  let d3 := d2.sub [word 6 >>> 32 ||| word 7 <<< 32, word 7 >>> 32 ||| word 4 <<< 32,
    word 4 >>> 32 ||| word 5 <<< 32, word 6 <<< 32]
  d3.sub [word 7, word 4 &&& 0xffffffff00000000#64, word 5, word 6 &&& 0xffffffff00000000#64]

/-- The loop that adds the prime as long as the sum is negative. -/
def mmodFastRaise : (fuel : Nat) → MmodFastSum → Run (Vli 64)
  | 0, _ => .error .outOfFuel
  | fuel + 1, sum =>
      let sum := sum.add secp256r1P
      if sum.carry < 0 then mmodFastRaise fuel sum else .ok sum.result

/-- The loop that subtracts the prime as long as the sum is not below it. -/
def mmodFastLower : (fuel : Nat) → MmodFastSum → Run (Vli 64)
  | fuel, sum =>
      if sum.carry ≠ 0 ∨ vliCmpUnsafe secp256r1P sum.result ≠ 1 then
        match fuel with
        | 0 => .error .outOfFuel
        | fuel + 1 => mmodFastLower fuel (sum.sub secp256r1P)
      else .ok sum.result

/-- `vli_mmod_fast_secp256r1`. -/
def vliMmodFastSecp256r1 (product : Vli 64) : Run (Vli 64) :=
  let sum := mmodFastSum product
  if sum.carry < 0 then mmodFastRaise 8 sum else mmodFastLower 8 sum

/-- `curve_secp256r1`. -/
def curveSecp256r1 : EcdsaCurve where
  numWords := 4
  numBytes := 32
  numNBits := 256
  p := secp256r1P
  n := [
    bytesToWords8 0x51 0x25 0x63 0xFC 0xC2 0xCA 0xB9 0xF3,
    bytesToWords8 0x84 0x9E 0x17 0xA7 0xAD 0xFA 0xE6 0xBC,
    bytesToWords8 0xFF 0xFF 0xFF 0xFF 0xFF 0xFF 0xFF 0xFF,
    bytesToWords8 0x00 0x00 0x00 0x00 0xFF 0xFF 0xFF 0xFF]
  G := ([
    bytesToWords8 0x96 0xC2 0x98 0xD8 0x45 0x39 0xA1 0xF4,
    bytesToWords8 0xA0 0x33 0xEB 0x2D 0x81 0x7D 0x03 0x77,
    bytesToWords8 0xF2 0x40 0xA4 0x63 0xE5 0xE6 0xBC 0xF8,
    bytesToWords8 0x47 0x42 0x2C 0xE1 0xF2 0xD1 0x17 0x6B], [
    bytesToWords8 0xF5 0x51 0xBF 0x37 0x68 0x40 0xB6 0xCB,
    bytesToWords8 0xCE 0x5E 0x31 0x6B 0x57 0x33 0xCE 0x2B,
    bytesToWords8 0x16 0x9E 0x0F 0x7C 0x4A 0xEB 0xE7 0x8E,
    bytesToWords8 0x9B 0x7F 0x1A 0xFE 0xE2 0x42 0xE3 0x4F])
  b := [
    bytesToWords8 0x4B 0x60 0xD2 0x27 0x3E 0x3C 0xCE 0x3B,
    bytesToWords8 0xF6 0xB0 0x53 0xCC 0xB0 0x06 0x1D 0x65,
    bytesToWords8 0xBC 0x86 0x98 0x76 0x55 0xBD 0xEB 0xB3,
    bytesToWords8 0xE7 0x93 0x3A 0xAA 0xD8 0x35 0xC6 0x5A]
  mmodFast := vliMmodFastSecp256r1

/-- The prime of the curve. -/
def primeSecp256r1 : Nat := 2 ^ 256 - 2 ^ 224 + 2 ^ 192 + 2 ^ 96 - 1

theorem value_secp256r1P : Limbs.value secp256r1P = primeSecp256r1 := by decide

/-! ## Half words -/

theorem toNat_and_high (word : BitVec 64) :
    (word &&& 0xffffffff00000000#64).toNat = 2 ^ 32 * (word.toNat / 2 ^ 32) := by
  have bound := word.isLt
  have mask : (0xffffffff00000000#64).toNat / 2 ^ 32 = 2 ^ 32 - 1 := rfl
  have upper : (word &&& 0xffffffff00000000#64).toNat / 2 ^ 32 = word.toNat / 2 ^ 32 := by
    rw [BitVec.toNat_and, Nat.and_div_two_pow, mask]
    exact Nat.and_two_pow_sub_one_of_lt_two_pow (by omega)
  have lower : (word &&& 0xffffffff00000000#64).toNat % 2 ^ 32 = 0 := by
    rw [BitVec.toNat_and, Nat.and_mod_two_pow]
    exact Nat.and_zero _
  omega

theorem toNat_and_low (word : BitVec 64) :
    (word &&& 0xffffffff#64).toNat = word.toNat % 2 ^ 32 :=
  Nat.and_two_pow_sub_one_eq_mod word.toNat 32

theorem toNat_shiftLeft_half (word : BitVec 64) :
    (word <<< 32).toNat = 2 ^ 32 * (word.toNat % 2 ^ 32) := by
  rw [BitVec.toNat_shiftLeft, Nat.shiftLeft_eq]
  omega

theorem toNat_shiftRight_half (word : BitVec 64) : (word >>> 32).toNat = word.toNat / 2 ^ 32 := by
  rw [BitVec.toNat_ushiftRight, Nat.shiftRight_eq_div_pow]

theorem toNat_or_halves {low high : BitVec 64} {half : Nat} (small : low.toNat < 2 ^ 32)
    (shifted : high.toNat = 2 ^ 32 * half) :
    (low ||| high).toNat = low.toNat + 2 ^ 32 * half := by
  rw [BitVec.toNat_or, shifted, Nat.or_comm, ← Nat.two_pow_add_eq_or_of_lt small, Nat.add_comm]

theorem toNat_shiftRight_or_shiftLeft_half (low high : BitVec 64) :
    (low >>> 32 ||| high <<< 32).toNat = low.toNat / 2 ^ 32 + 2 ^ 32 * (high.toNat % 2 ^ 32) := by
  have bound := low.isLt
  rw [toNat_or_halves (by rw [toNat_shiftRight_half]; omega) (toNat_shiftLeft_half high),
    toNat_shiftRight_half]

theorem toNat_shiftRight_or_and_high (low high : BitVec 64) :
    (low >>> 32 ||| (high &&& 0xffffffff00000000#64)).toNat =
      low.toNat / 2 ^ 32 + 2 ^ 32 * (high.toNat / 2 ^ 32) := by
  have bound := low.isLt
  rw [toNat_or_halves (by rw [toNat_shiftRight_half]; omega) (toNat_and_high high),
    toNat_shiftRight_half]

theorem toNat_and_low_or_shiftLeft (low high : BitVec 64) :
    ((low &&& 0xffffffff#64) ||| high <<< 32).toNat =
      low.toNat % 2 ^ 32 + 2 ^ 32 * (high.toNat % 2 ^ 32) := by
  rw [toNat_or_halves (by rw [toNat_and_low]; omega) (toNat_shiftLeft_half high), toNat_and_low]

/-! ## The sum -/

namespace MmodFastSum

/-- The sum stands for an integer: the words and, above them, the carry. -/
structure Stands (sum : MmodFastSum) (total : Int) : Prop where
  length_eq : sum.result.length = 4
  total_eq : Limbs.value sum.result + 2 ^ 256 * sum.carry = total

variable {sum : MmodFastSum} {total : Int}

theorem Stands.add (stands : sum.Stands total) (tmp : Vli 64) (length_eq : tmp.length = 4) :
    (sum.add tmp).Stands (total + Limbs.value tmp) := by
  have lengths := stands.length_eq.trans length_eq.symm
  have chain := vliAdd_spec lengths
  have before := stands.total_eq
  rw [stands.length_eq] at chain
  refine ⟨(length_vliAdd lengths).trans stands.length_eq, ?_⟩
  simp only [MmodFastSum.add]
  omega

theorem Stands.sub (stands : sum.Stands total) (tmp : Vli 64) (length_eq : tmp.length = 4) :
    (sum.sub tmp).Stands (total - Limbs.value tmp) := by
  have lengths := stands.length_eq.trans length_eq.symm
  have chain := vliSub_spec lengths
  have before := stands.total_eq
  rw [stands.length_eq] at chain
  refine ⟨(length_vliSub lengths).trans stands.length_eq, ?_⟩
  simp only [MmodFastSum.sub]
  omega

theorem Stands.addTwice (stands : sum.Stands total) (tmp : Vli 64) (length_eq : tmp.length = 4) :
    (sum.addTwice tmp).Stands (total + 2 * Limbs.value tmp) := by
  have doubled := @vliAdd_spec 64 tmp tmp rfl
  have before := stands.total_eq
  rw [length_eq] at doubled
  have carried : Stands { sum with carry := sum.carry + (vliAdd tmp tmp).2.toNat }
      (total + 2 ^ 256 * (vliAdd tmp tmp).2.toNat) := by
    refine ⟨stands.length_eq, ?_⟩
    dsimp only
    omega
  have added := carried.add _ ((@length_vliAdd 64 tmp tmp rfl).trans length_eq)
  have total_eq : total + 2 ^ 256 * (vliAdd tmp tmp).2.toNat + Limbs.value (vliAdd tmp tmp).1 =
      total + 2 * Limbs.value tmp := by
    omega
  rwa [total_eq] at added

end MmodFastSum

/-- The half words of the upper four words of a product, each with the weight by which the sum falls
short of it, as a multiple of the prime. -/
def mmodFastQuotient (w4 w5 w6 w7 : BitVec 64) : Int :=
  (w4.toNat % 2 ^ 32 : Nat) + 4294967297 * (w4.toNat / 2 ^ 32 : Nat) +
    18446744078004518912 * (w5.toNat % 2 ^ 32 : Nat) +
    79228162532711081667253501951 * (w5.toNat / 2 ^ 32 : Nat) +
    340282367000166625977638945021017194495 * (w6.toNat % 2 ^ 32 : Nat) +
    1461501637671185285124623296161210883009696235519 * (w6.toNat / 2 ^ 32 : Nat) +
    6277101736848182401166692341332123086285927382448418586623 * (w7.toNat % 2 ^ 32 : Nat) +
    26959946673427741530053695850515137729844644212646842236464328081408 *
      (w7.toNat / 2 ^ 32 : Nat)

/-- The sum is congruent to the product, and within a few multiples of its range. -/
theorem mmodFastSum_spec {product : Vli 64} (length_eq : product.length = 8) :
    ∃ total : Int, (mmodFastSum product).Stands total ∧ -4 * 2 ^ 256 < total ∧
      total < 7 * 2 ^ 256 ∧
      total ≡ Limbs.value product [ZMOD primeSecp256r1] := by
  obtain ⟨w0, w1, upper, rfl, six⟩ := exists_cons_cons length_eq
  obtain ⟨w2, w3, upper, rfl, four⟩ := exists_cons_cons six
  obtain ⟨w4, w5, upper, rfl, two⟩ := exists_cons_cons four
  obtain ⟨w6, w7, upper, rfl, zero⟩ := exists_cons_cons two
  obtain rfl := List.length_eq_zero_iff.mp zero
  have start : MmodFastSum.Stands ⟨[w0, w1, w2, w3], 0⟩ (Limbs.value [w0, w1, w2, w3]) :=
    ⟨rfl, by ring⟩
  have s1 := start.addTwice [0#64, w5 &&& 0xffffffff00000000#64, w6, w7] rfl
  have s2 := s1.addTwice [0#64, w6 <<< 32, w6 >>> 32 ||| w7 <<< 32, w7 >>> 32] rfl
  have s3 := s2.add [w4, w5 &&& 0xffffffff#64, 0#64, w7] rfl
  have s4 := s3.add [w4 >>> 32 ||| w5 <<< 32,
    w5 >>> 32 ||| (w6 &&& 0xffffffff00000000#64), w7, w6 >>> 32 ||| w4 <<< 32] rfl
  have d1 := s4.sub [w5 >>> 32 ||| w6 <<< 32, w6 >>> 32, 0#64,
    (w4 &&& 0xffffffff#64) ||| w5 <<< 32] rfl
  have d2 := d1.sub [w6, w7, 0#64, w4 >>> 32 ||| (w5 &&& 0xffffffff00000000#64)] rfl
  have d3 := d2.sub [w6 >>> 32 ||| w7 <<< 32, w7 >>> 32 ||| w4 <<< 32,
    w4 >>> 32 ||| w5 <<< 32, w6 <<< 32] rfl
  have d4 := d3.sub [w7, w4 &&& 0xffffffff00000000#64, w5,
    w6 &&& 0xffffffff00000000#64] rfl
  have bound : ∀ v0 v1 v2 v3 : BitVec 64, Limbs.value [v0, v1, v2, v3] < 2 ^ 256 :=
    fun v0 v1 v2 v3 => Limbs.value_lt [v0, v1, v2, v3]
  refine ⟨_, d4, ?_, ?_, ?_⟩
  · have lower1 := bound (w5 >>> 32 ||| w6 <<< 32) (w6 >>> 32) 0#64
      ((w4 &&& 0xffffffff#64) ||| w5 <<< 32)
    have lower2 := bound w6 w7 0#64 (w4 >>> 32 ||| (w5 &&& 0xffffffff00000000#64))
    have lower3 := bound (w6 >>> 32 ||| w7 <<< 32) (w7 >>> 32 ||| w4 <<< 32)
      (w4 >>> 32 ||| w5 <<< 32) (w6 <<< 32)
    have lower4 := bound w7 (w4 &&& 0xffffffff00000000#64) w5 (w6 &&& 0xffffffff00000000#64)
    omega
  · have upper0 := bound w0 w1 w2 w3
    have upper1 := bound 0#64 (w5 &&& 0xffffffff00000000#64) w6 w7
    have upper2 := bound 0#64 (w6 <<< 32) (w6 >>> 32 ||| w7 <<< 32) (w7 >>> 32)
    have upper3 := bound w4 (w5 &&& 0xffffffff#64) 0#64 w7
    have upper4 := bound (w4 >>> 32 ||| w5 <<< 32)
      (w5 >>> 32 ||| (w6 &&& 0xffffffff00000000#64)) w7 (w6 >>> 32 ||| w4 <<< 32)
    omega
  · rw [Int.modEq_iff_dvd]
    refine ⟨mmodFastQuotient w4 w5 w6 w7, ?_⟩
    simp only [Limbs.value_cons, Limbs.value_nil, toNat_shiftRight_or_shiftLeft_half,
      toNat_shiftRight_or_and_high, toNat_and_low_or_shiftLeft, toNat_and_high, toNat_and_low,
      toNat_shiftLeft_half, toNat_shiftRight_half, BitVec.toNat_zero, mmodFastQuotient,
      primeSecp256r1]
    omega

/-! ## Into range -/

namespace MmodFastSum

variable {sum : MmodFastSum} {total : Int}

theorem Stands.carry_neg_iff (stands : sum.Stands total) : sum.carry < 0 ↔ total < 0 := by
  have bound := Limbs.value_lt sum.result
  have total_eq := stands.total_eq
  rw [stands.length_eq] at bound
  constructor <;>
    · intro negative
      omega

/-- A sum that is below the prime is in the words alone. -/
theorem Stands.value_eq (stands : sum.Stands total) (nonneg : 0 ≤ total)
    (small : total < primeSecp256r1) : sum.carry = 0 ∧ (Limbs.value sum.result : Int) = total := by
  have bound := Limbs.value_lt sum.result
  have total_eq := stands.total_eq
  rw [stands.length_eq] at bound
  simp only [primeSecp256r1] at small
  constructor <;> omega

/-- The test of the second loop. -/
theorem Stands.not_below_iff (stands : sum.Stands total) (nonneg : 0 ≤ total) :
    (sum.carry ≠ 0 ∨ vliCmpUnsafe secp256r1P sum.result ≠ 1) ↔ primeSecp256r1 ≤ total := by
  have bound := Limbs.value_lt sum.result
  have total_eq := stands.total_eq
  have small : primeSecp256r1 < 2 ^ 256 := by decide
  rw [stands.length_eq] at bound
  have lengths : secp256r1P.length = sum.result.length := stands.length_eq.symm
  rw [ne_eq (vliCmpUnsafe _ _), vliCmpUnsafe_eq_one_iff lengths, value_secp256r1P]
  constructor
  · intro high
    omega
  · intro reached
    by_contra low
    omega

end MmodFastSum

open MmodFastSum in
theorem mmodFastRaise_spec {fuel : Nat} {sum : MmodFastSum} {total : Int}
    (stands : sum.Stands total) (negative : total < 0)
    (near : 0 ≤ total + fuel * primeSecp256r1) :
    ∃ result, mmodFastRaise fuel sum = .ok result ∧ result.length = 4 ∧
      Limbs.value result < primeSecp256r1 ∧
      (Limbs.value result : Int) ≡ total [ZMOD primeSecp256r1] := by
  induction fuel generalizing sum total with
  | zero =>
      rw [Nat.cast_zero, zero_mul, add_zero] at near
      omega
  | succ fuel ih =>
      have next := stands.add secp256r1P rfl
      rw [value_secp256r1P] at next
      rw [Nat.cast_succ, add_mul, one_mul] at near
      by_cases still : total + primeSecp256r1 < 0
      · obtain ⟨result, returned, length_eq, small, congruent⟩ := ih next still (by omega)
        refine ⟨result, ?_, length_eq, small, congruent.trans Int.add_modEq_right⟩
        rw [mmodFastRaise, if_pos (next.carry_neg_iff.mpr still), returned]
      · obtain ⟨_, value_eq⟩ := next.value_eq (by omega) (by omega)
        refine ⟨_, ?_, next.length_eq, by omega, ?_⟩
        · rw [mmodFastRaise, if_neg (next.carry_neg_iff.not.mpr still)]
        · rw [value_eq]
          exact Int.add_modEq_right

open MmodFastSum in
theorem mmodFastLower_spec {fuel : Nat} {sum : MmodFastSum} {total : Int}
    (stands : sum.Stands total) (nonneg : 0 ≤ total)
    (near : total < (fuel + 1) * primeSecp256r1) :
    ∃ result, mmodFastLower fuel sum = .ok result ∧ result.length = 4 ∧
      Limbs.value result < primeSecp256r1 ∧
      (Limbs.value result : Int) ≡ total [ZMOD primeSecp256r1] := by
  induction fuel generalizing sum total with
  | zero =>
      rw [Nat.cast_zero, zero_add, one_mul] at near
      have below := (stands.not_below_iff nonneg).not.mpr (by omega)
      obtain ⟨_, value_eq⟩ := stands.value_eq nonneg near
      refine ⟨sum.result, by rw [mmodFastLower, if_neg below], stands.length_eq, by omega, ?_⟩
      rw [value_eq]
  | succ fuel ih =>
      by_cases reached : primeSecp256r1 ≤ total
      · have next := stands.sub secp256r1P rfl
        rw [value_secp256r1P] at next
        rw [Nat.cast_succ, add_mul _ 1, one_mul] at near
        obtain ⟨result, returned, length_eq, small, congruent⟩ := ih next (by omega) (by omega)
        refine ⟨result, ?_, length_eq, small, congruent.trans ?_⟩
        · rw [mmodFastLower, if_pos ((stands.not_below_iff nonneg).mpr reached), returned]
        · rw [← Int.add_modulus_modEq_iff, sub_add_cancel]
      · have below := (stands.not_below_iff nonneg).not.mpr reached
        obtain ⟨_, value_eq⟩ := stands.value_eq nonneg (by omega)
        refine ⟨sum.result, by rw [mmodFastLower, if_neg below], stands.length_eq, by omega, ?_⟩
        rw [value_eq]

/-- `vli_mmod_fast_secp256r1` reduces every product of eight words, within eight rounds of its final
loops. -/
theorem vliMmodFastSecp256r1_spec {product : Vli 64} (length_eq : product.length = 8) :
    ∃ result, vliMmodFastSecp256r1 product = .ok result ∧ result.length = 4 ∧
      Limbs.value result = Limbs.value product % primeSecp256r1 := by
  obtain ⟨total, stands, lower, upper, congruent⟩ := mmodFastSum_spec length_eq
  have reduced : ∃ result, vliMmodFastSecp256r1 product = .ok result ∧ result.length = 4 ∧
      Limbs.value result < primeSecp256r1 ∧
      (Limbs.value result : Int) ≡ total [ZMOD primeSecp256r1] := by
    rw [vliMmodFastSecp256r1]
    by_cases negative : total < 0
    · rw [if_pos (stands.carry_neg_iff.mpr negative)]
      apply mmodFastRaise_spec stands negative
      simp only [primeSecp256r1]
      omega
    · rw [if_neg (stands.carry_neg_iff.not.mpr negative)]
      apply mmodFastLower_spec stands (by omega)
      simp only [primeSecp256r1]
      omega
  obtain ⟨result, returned, resultLength, small, same⟩ := reduced
  refine ⟨result, returned, resultLength, ?_⟩
  have equal := Int.natCast_modEq_iff.mp (same.trans congruent)
  rw [← equal, Nat.mod_eq_of_lt small]

/-- The fast reduction and the reduction by shifting and subtracting return the same words. -/
theorem vliMmodFastSecp256r1_eq_vliMmod {product : Vli 64} (length_eq : product.length = 8) :
    ∃ result, vliMmodFastSecp256r1 product = .ok result ∧
      vliMmod product secp256r1P = .ok result := by
  obtain ⟨result, returned, resultLength, value_eq⟩ := vliMmodFastSecp256r1_spec length_eq
  obtain ⟨plain, plainReturned, plainLength, plainValue⟩ :=
    @vliMmod_spec 64 secp256r1P (by decide) (by decide) (by decide) (by decide) product length_eq
  rw [value_secp256r1P, ← value_eq] at plainValue
  rw [Limbs.eq_of_value_eq (plainLength.trans resultLength.symm) plainValue] at plainReturned
  exact ⟨result, returned, plainReturned⟩

theorem vliMmodFastSecp256r1_eq_vliMmod_largest :
    ∃ result, vliMmodFastSecp256r1 (List.replicate 8 (BitVec.allOnes 64)) = .ok result ∧
      vliMmod (List.replicate 8 (BitVec.allOnes 64)) secp256r1P = .ok result :=
  vliMmodFastSecp256r1_eq_vliMmod rfl

end Freecoin
