import Freecoin.EccMultiplication
import Freecoin.Foundation.PrimeCertificates
import Mathlib

/-!
# The group of secp256r1

The two primes of the curve, the place of its base point on it, and the order of the base point.
-/

namespace Freecoin

open Foundation PrimeCertificates

/-! ## The primes -/

/-- Small primes from which the chain starts. -/
def smallPrimes : List Nat :=
  [2, 3, 5, 7, 11, 13, 17, 19, 23, 29, 31, 37, 41, 43, 53, 71, 97, 107, 127, 131, 151, 157, 173,
    181, 197]

/-- The chain of Lucas steps up to the two primes of the curve. -/
def secp256r1Chain : List LucasStep := [
  ⟨257, 3, [2, 2, 2, 2, 2, 2, 2, 2]⟩,
  ⟨641, 3, [2, 2, 2, 2, 2, 2, 2, 5]⟩,
  ⟨1531, 2, [2, 3, 3, 5, 17]⟩,
  ⟨65537, 3, [2, 2, 2, 2, 2, 2, 2, 2, 2, 2, 2, 2, 2, 2, 2, 2]⟩,
  ⟨661, 2, [2, 2, 3, 5, 11]⟩,
  ⟨490463, 14, [2, 7, 53, 661]⟩,
  ⟨727, 5, [2, 3, 11, 11]⟩,
  ⟨17449, 14, [2, 2, 2, 3, 727]⟩,
  ⟨6700417, 5, [2, 2, 2, 2, 2, 2, 2, 3, 17449]⟩,
  ⟨241, 7, [2, 2, 2, 2, 3, 5]⟩,
  ⟨2411, 6, [2, 5, 241]⟩,
  ⟨3769, 7, [2, 2, 2, 3, 157]⟩,
  ⟨204061199, 11, [2, 11, 23, 107, 3769]⟩,
  ⟨34282281433, 17, [2, 2, 2, 3, 7, 204061199]⟩,
  ⟨919, 7, [2, 3, 3, 3, 17]⟩,
  ⟨3677, 2, [2, 2, 919]⟩,
  ⟨66417393611, 6, [2, 5, 53, 173, 197, 3677]⟩,
  ⟨11290956913871, 13, [2, 5, 17, 66417393611]⟩,
  ⟨757, 2, [2, 2, 3, 3, 3, 7]⟩,
  ⟨18169, 11, [2, 2, 2, 3, 757]⟩,
  ⟨1087, 3, [2, 3, 181]⟩,
  ⟨4349, 2, [2, 2, 1087]⟩,
  ⟨78283, 3, [2, 3, 3, 4349]⟩,
  ⟨313, 10, [2, 2, 2, 3, 13]⟩,
  ⟨704251, 2, [2, 3, 3, 5, 5, 5, 313]⟩,
  ⟨46076956964474543, 5, [2, 23, 18169, 78283, 704251]⟩,
  ⟨774023187263532362759620327192479577272145303, 3, [2, 3, 3, 2411, 34282281433, 11290956913871,
    46076956964474543]⟩,
  ⟨835945042244614951780389953367877943453916927241, 11, [2, 2, 2, 3, 3, 3, 5,
    774023187263532362759620327192479577272145303]⟩,
  ⟨115792089210356248762697446949407573530086143415290314195533631308867097853951, 6, [2, 3, 5, 5,
    17, 257, 641, 1531, 65537, 490463, 6700417,
    835945042244614951780389953367877943453916927241]⟩,
  ⟨373, 2, [2, 2, 3, 31]⟩,
  ⟨3407, 5, [2, 13, 131]⟩,
  ⟨9547, 2, [2, 3, 37, 43]⟩,
  ⟨38189, 2, [2, 2, 9547]⟩,
  ⟨229, 6, [2, 2, 3, 19]⟩,
  ⟨1201, 11, [2, 2, 2, 2, 3, 5, 5]⟩,
  ⟨9350987, 2, [2, 17, 229, 1201]⟩,
  ⟨187019741, 2, [2, 2, 5, 9350987]⟩,
  ⟨311, 17, [2, 5, 31]⟩,
  ⟨311245691, 2, [2, 5, 7, 17, 29, 29, 311]⟩,
  ⟨622491383, 5, [2, 311245691]⟩,
  ⟨263, 5, [2, 131]⟩,
  ⟨126241, 7, [2, 2, 2, 2, 2, 3, 5, 263]⟩,
  ⟨337, 10, [2, 2, 2, 2, 3, 7]⟩,
  ⟨104471, 11, [2, 5, 31, 337]⟩,
  ⟨3969899, 2, [2, 19, 104471]⟩,
  ⟨1002328039319, 19, [2, 126241, 3969899]⟩,
  ⟨1297, 10, [2, 2, 2, 2, 3, 3, 3, 3]⟩,
  ⟨16879, 3, [2, 3, 29, 97]⟩,
  ⟨1511, 11, [2, 5, 151]⟩,
  ⟨3023, 5, [2, 1511]⟩,
  ⟨155317, 5, [2, 2, 3, 7, 43, 43]⟩,
  ⟨191039911, 3, [2, 3, 5, 41, 155317]⟩,
  ⟨208150935158385979, 2, [2, 3, 11, 43, 127, 3023, 191039911]⟩,
  ⟨2624747550333869278416773953, 7, [2, 2, 2, 2, 2, 2, 3, 3, 1297, 16879, 208150935158385979]⟩,
  ⟨115792089210356248762697446949407573529996955224135760342422259061068512044369, 7, [2, 2, 2, 2,
    3, 71, 131, 373, 3407, 17449, 38189, 187019741, 622491383, 1002328039319,
    2624747550333869278416773953]⟩]

theorem prime_of_mem_secp256r1Chain {step : LucasStep} (member : step ∈ secp256r1Chain) :
    step.number.Prime := by
  have checked : checkChain 256 smallPrimes secp256r1Chain = true := by decide +kernel
  have proved : ∀ factor ∈ smallPrimes, factor.Prime := by
    norm_num [smallPrimes]
  exact prime_of_checkChain checked proved step member

/-- The order of the base point. -/
def orderSecp256r1 : Nat :=
  115792089210356248762697446949407573529996955224135760342422259061068512044369

theorem prime_primeSecp256r1 : primeSecp256r1.Prime :=
  prime_of_mem_secp256r1Chain (List.mem_of_getElem? (i := 28) rfl)

theorem prime_orderSecp256r1 : orderSecp256r1.Prime :=
  prime_of_mem_secp256r1Chain (List.mem_of_getElem? (i := 54) rfl)

theorem value_curveSecp256r1_n : Limbs.value curveSecp256r1.n = orderSecp256r1 := by decide

instance fact_prime_curveSecp256r1 : Fact (Nat.Prime (Limbs.value curveSecp256r1.p)) :=
  ⟨value_secp256r1P ▸ prime_primeSecp256r1⟩

theorem lawful_curveSecp256r1 : curveSecp256r1.Lawful where
  length_p := rfl
  room := by decide
  three_lt := by decide
  mmodFast_spec := by
    intro product length_eq
    obtain ⟨result, returned, resultLength, value_eq⟩ := vliMmodFastSecp256r1_spec length_eq
    refine ⟨result, returned, resultLength, ?_⟩
    rw [value_eq, ← value_secp256r1P]
    rfl

/-! ## The base point -/

/-- `b` of the curve, in its field. -/
def secp256r1B : curveSecp256r1.Base := (Limbs.value curveSecp256r1.b : Nat)

section Coefficient

/-- The literal `3` of the curve, by name. -/
local instance atLeastTwo_three : Nat.AtLeastTwo 3 := inferInstance

/-- The curve. -/
abbrev secp256r1 : WeierstrassCurve.Affine curveSecp256r1.Base := CoZ.shortCurve (-3) secp256r1B

end Coefficient

/-- The coordinates of `G`, in the field. -/
def baseCoordinates : curveSecp256r1.Base × curveSecp256r1.Base :=
  ((Limbs.value curveSecp256r1.G.1 : Nat), (Limbs.value curveSecp256r1.G.2 : Nat))

theorem discriminant_ne_zero : secp256r1.Δ ≠ 0 := by decide +kernel

theorem nonsingular_secp256r1_iff {x y : curveSecp256r1.Base} :
    secp256r1.Nonsingular x y ↔ y ^ 2 = x ^ 3 + -3 * x + secp256r1B := by
  rw [← WeierstrassCurve.Affine.equation_iff_nonsingular_of_Δ_ne_zero discriminant_ne_zero,
    CoZ.equation_shortCurve_iff]

/-- `G`, as a point. -/
def basePoint : secp256r1.Point :=
  .some baseCoordinates.1 baseCoordinates.2 (nonsingular_secp256r1_iff.mpr (by decide +kernel))

/-- The order of `G` is `n`: the ladder up to half of `n` arrives at two opposite points. -/
theorem addOrderOf_basePoint : addOrderOf basePoint = orderSecp256r1 := by
  have checked : CoZ.ladderCheck (orderSecp256r1 / 2) 254
      (CoZ.ladderStart (-3) baseCoordinates) = true := by
    decide +kernel
  have halves : orderSecp256r1 = 2 * (orderSecp256r1 / 2) + 1 := by decide
  have prime := prime_orderSecp256r1
  rw [halves] at prime ⊢
  exact CoZ.addOrderOf_eq_of_ladderCheck prime (by decide) rfl (by decide +kernel)
    (by decide +kernel) checked

theorem represents_base : curveSecp256r1.RepresentsPoint curveSecp256r1.G baseCoordinates where
  fst := ⟨rfl, by decide, rfl⟩
  snd := ⟨rfl, by decide, rfl⟩

end Freecoin
