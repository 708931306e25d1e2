import Freecoin.Foundation.CoZLadder
import Freecoin.Foundation.Returns
import Freecoin.Secp256r1
import Freecoin.VliInverses
import Mathlib.Algebra.Field.ZMod

/-!
# Points of a curve in words

The additions of two points with a common denominator, as sequences of modular operations on words,
and what they compute in the field of the curve.
-/

namespace Freecoin

open Foundation

/-- The two coordinates of a point, `num_words` words each. -/
abbrev EccPoint := Vli 64 × Vli 64

/-! ## Operations modulo the prime of a curve -/

/-- `ecdsa_vli_modMult_fast`. -/
def vliModMultFast (left right : Vli 64) (curve : EcdsaCurve) : Run (Vli 64) :=
  withArray (2 * ecdsaMaxWords 64) (2 * left.length) <| do
    let product ← vliMult left right
    curve.mmodFast product

/-- `ecdsa_vli_modSquare_fast`. -/
def vliModSquareFast (left : Vli 64) (curve : EcdsaCurve) : Run (Vli 64) :=
  vliModMultFast left left curve

/-- The division by two in `double_jacobian_default`. -/
def jacobianHalf (X : Vli 64) (curve : EcdsaCurve) : Run (Vli 64) := do
  let odd ← vliTestBit X 0
  if odd then
    let sum := vliAdd X curve.p
    let half := vliRshift1 sum.1
    .ok (half.set (curve.numWords - 1) (half.getD (curve.numWords - 1) 0#64 ||| sum.2 <<< 63))
  else .ok (vliRshift1 X)

/-- `double_jacobian_default`: the coordinates and the denominator of the double. -/
def doubleJacobianDefault (P : EccPoint) (Z : Vli 64) (curve : EcdsaCurve) :
    Run (EccPoint × Vli 64) :=
  if vliIsZero Z then .ok (P, Z)
  else do
    let t4 ← vliModSquareFast P.2 curve
    let t5 ← vliModMultFast P.1 t4 curve
    let t4 ← vliModSquareFast t4 curve
    let Y ← vliModMultFast P.2 Z curve
    let Z ← vliModSquareFast Z curve
    let X := vliModAdd P.1 Z curve.p
    let Z := vliModAdd Z Z curve.p
    let Z := vliModSub X Z curve.p
    let X ← vliModMultFast X Z curve
    let Z := vliModAdd X X curve.p
    let X := vliModAdd X Z curve.p
    let X ← jacobianHalf X curve
    let Z ← vliModSquareFast X curve
    let Z := vliModSub Z t5 curve.p
    let Z := vliModSub Z t5 curve.p
    let t5 := vliModSub t5 Z curve.p
    let X ← vliModMultFast X t5 curve
    let t4 := vliModSub X t4 curve.p
    .ok ((Z, t4), Y)

/-- `apply_z`. -/
def applyZ (P : EccPoint) (Z : Vli 64) (curve : EcdsaCurve) : Run EccPoint := do
  let t1 ← vliModSquareFast Z curve
  let X1 ← vliModMultFast P.1 t1 curve
  let t1 ← vliModMultFast t1 Z curve
  let Y1 ← vliModMultFast P.2 t1 curve
  .ok (X1, Y1)

/-- `XYcZ_initial_double`: the double and the point itself. -/
def xycZInitialDouble (P : EccPoint) (initialZ : Option (Vli 64)) (curve : EcdsaCurve) :
    Run (EccPoint × EccPoint) := do
  let z := initialZ.getD ((vliClear curve.numWords).set 0 1#64)
  let P1 ← applyZ P z curve
  let doubled ← doubleJacobianDefault P1 z curve
  let P2 ← applyZ P doubled.2 curve
  .ok (doubled.1, P2)

/-- `XYcZ_add`: the first point in new coordinates, and the sum. -/
def xycZAdd (P Q : EccPoint) (curve : EcdsaCurve) : Run (EccPoint × EccPoint) := do
  let t5 := vliModSub Q.1 P.1 curve.p
  let t5 ← vliModSquareFast t5 curve
  let X1 ← vliModMultFast P.1 t5 curve
  let X2 ← vliModMultFast Q.1 t5 curve
  let Y2 := vliModSub Q.2 P.2 curve.p
  let t5 ← vliModSquareFast Y2 curve
  let t5 := vliModSub t5 X1 curve.p
  let t5 := vliModSub t5 X2 curve.p
  let X2 := vliModSub X2 X1 curve.p
  let Y1 ← vliModMultFast P.2 X2 curve
  let X2 := vliModSub X1 t5 curve.p
  let Y2 ← vliModMultFast Y2 X2 curve
  let Y2 := vliModSub Y2 Y1 curve.p
  .ok ((X1, Y1), (t5, Y2))

/-- `XYcZ_addC`: the difference and the sum. -/
def xycZAddC (P Q : EccPoint) (curve : EcdsaCurve) : Run (EccPoint × EccPoint) := do
  let t5 := vliModSub Q.1 P.1 curve.p
  let t5 ← vliModSquareFast t5 curve
  let X1 ← vliModMultFast P.1 t5 curve
  let X2 ← vliModMultFast Q.1 t5 curve
  let t5 := vliModAdd Q.2 P.2 curve.p
  let Y2 := vliModSub Q.2 P.2 curve.p
  let t6 := vliModSub X2 X1 curve.p
  let Y1 ← vliModMultFast P.2 t6 curve
  let t6 := vliModAdd X1 X2 curve.p
  let X2 ← vliModSquareFast Y2 curve
  let X2 := vliModSub X2 t6 curve.p
  let t7 := vliModSub X1 X2 curve.p
  let Y2 ← vliModMultFast Y2 t7 curve
  let Y2 := vliModSub Y2 Y1 curve.p
  let t7 ← vliModSquareFast t5 curve
  let t7 := vliModSub t7 t6 curve.p
  let t6 := vliModSub t7 X1 curve.p
  let t6 ← vliModMultFast t6 t5 curve
  let Y1 := vliModSub t6 Y1 curve.p
  .ok ((t7, Y1), (X2, Y2))

/-! ## The field -/

namespace EcdsaCurve

/-- The field of a curve. -/
abbrev Base (curve : EcdsaCurve) := ZMod (Limbs.value curve.p)

/-- What the operations need of a curve: an odd prime of its number of words, which its arrays hold,
and a reduction by it. -/
structure Lawful (curve : EcdsaCurve) : Prop where
  length_p : curve.p.length = curve.numWords
  room : curve.numWords ≤ ecdsaMaxWords 64
  three_lt : 3 < Limbs.value curve.p
  mmodFast_spec : ∀ product : Vli 64, product.length = 2 * curve.numWords →
    Returns (curve.mmodFast product) fun result =>
      result.length = curve.numWords ∧
        Limbs.value result = Limbs.value product % Limbs.value curve.p

/-- The reduced words that stand for an element of the field. -/
structure Represents (curve : EcdsaCurve) (words : Vli 64) (a : curve.Base) : Prop where
  length_eq : words.length = curve.numWords
  small : Limbs.value words < Limbs.value curve.p
  cast_eq : (Limbs.value words : curve.Base) = a

/-- Both coordinates stand for elements. -/
structure RepresentsPoint (curve : EcdsaCurve) (P : EccPoint) (p : curve.Base × curve.Base) :
    Prop where
  fst : curve.Represents P.1 p.1
  snd : curve.Represents P.2 p.2

/-- Both points stand for coordinates. -/
structure RepresentsPair (curve : EcdsaCurve) (R : EccPoint × EccPoint)
    (r : CoZ.PointPair curve.Base) : Prop where
  fst : curve.RepresentsPoint R.1 r.1
  snd : curve.RepresentsPoint R.2 r.2

variable {curve : EcdsaCurve}

namespace Represents

variable {left right : Vli 64} {a b : curve.Base}

theorem congr (represents : curve.Represents left a) (same : a = b) :
    curve.Represents left b := same ▸ represents

/-- An element has one representation. -/
theorem unique (first : curve.Represents left a) (second : curve.Represents right a) :
    left = right := by
  apply Limbs.eq_of_value_eq (first.length_eq.trans second.length_eq.symm)
  have same := first.cast_eq.trans second.cast_eq.symm
  rw [ZMod.natCast_eq_natCast_iff] at same
  exact same.eq_of_lt_of_lt first.small second.small

theorem val_eq (represents : curve.Represents left a) : Limbs.value left = a.val := by
  rw [← represents.cast_eq, ZMod.val_natCast, Nat.mod_eq_of_lt represents.small]

theorem value_eq_zero_iff (represents : curve.Represents left a) :
    Limbs.value left = 0 ↔ a = 0 := by
  rw [represents.val_eq, ZMod.val_eq_zero]

end Represents

namespace Lawful

theorem two_lt (lawful : curve.Lawful) : 2 < Limbs.value curve.p :=
  Nat.lt_of_succ_lt lawful.three_lt

theorem numWords_pos (lawful : curve.Lawful) : 0 < curve.numWords := by
  have small := lawful.two_lt
  rw [← lawful.length_p, List.length_pos_iff]
  rintro none
  rw [none, Limbs.value_nil] at small
  omega

section Words

variable (lawful : curve.Lawful) {left right : Vli 64} {a b : curve.Base}
  (first : curve.Represents left a) (second : curve.Represents right b)

include lawful first second

theorem modAdd : curve.Represents (vliModAdd left right curve.p) (a + b) := by
  have leftLength := first.length_eq.trans lawful.length_p.symm
  have rightLength := second.length_eq.trans lawful.length_p.symm
  have value_eq := value_vliModAdd leftLength rightLength first.small second.small
  refine ⟨(length_vliModAdd leftLength rightLength).trans lawful.length_p, ?_, ?_⟩
  · rw [value_eq]
    exact Nat.mod_lt _ (Nat.zero_lt_of_lt lawful.two_lt)
  · rw [value_eq, ZMod.natCast_mod, Nat.cast_add, first.cast_eq, second.cast_eq]

theorem modSub : curve.Represents (vliModSub left right curve.p) (a - b) := by
  have leftLength := first.length_eq.trans lawful.length_p.symm
  have rightLength := second.length_eq.trans lawful.length_p.symm
  have value_eq := value_vliModSub leftLength rightLength first.small second.small
  refine ⟨(length_vliModSub leftLength rightLength).trans lawful.length_p, ?_, ?_⟩
  · rw [value_eq]
    exact Nat.mod_lt _ (Nat.zero_lt_of_lt lawful.two_lt)
  · rw [value_eq, ZMod.natCast_mod, Nat.add_sub_assoc second.small.le, Nat.cast_add,
      Nat.cast_sub second.small.le, first.cast_eq, second.cast_eq, ZMod.natCast_self, zero_sub,
      sub_eq_add_neg]

theorem modMultFast :
    Returns (vliModMultFast left right curve) fun words => curve.Represents words (a * b) := by
  have lengths := first.length_eq.trans second.length_eq.symm
  have nonempty : 0 < left.length := first.length_eq ▸ lawful.numWords_pos
  have room := first.length_eq ▸ lawful.room
  have few := ecdsaMaxWords_le (show 8 ≤ 64 by decide)
  rw [vliModMultFast, withArray_of_le (Nat.mul_le_mul_left 2 room)]
  refine (vliMult_spec (by decide) lengths nonempty (by omega)).bind fun product product_eq => ?_
  obtain ⟨productLength, product_value⟩ := product_eq
  rw [first.length_eq] at productLength
  refine (lawful.mmodFast_spec _ productLength).mono ?_
  rintro words ⟨length_eq, value_eq⟩
  refine ⟨length_eq, ?_, ?_⟩
  · rw [value_eq]
    exact Nat.mod_lt _ (Nat.zero_lt_of_lt lawful.two_lt)
  · rw [value_eq, ZMod.natCast_mod, product_value, Nat.cast_mul, first.cast_eq, second.cast_eq]

end Words

variable (lawful : curve.Lawful) {words : Vli 64} {a : curve.Base}

include lawful

theorem zero : curve.Represents (vliClear curve.numWords) 0 := by
  have positive := lawful.two_lt
  refine ⟨length_vliClear _, ?_, ?_⟩
  · rw [value_vliClear]
    omega
  · rw [value_vliClear, Nat.cast_zero]

/-- A number of one word. -/
theorem constant {word : BitVec 64} (small : word.toNat < Limbs.value curve.p) :
    curve.Represents ((vliClear curve.numWords).set 0 word) (word.toNat : Nat) := by
  have value_eq := value_vliClear_set lawful.numWords_pos word
  exact ⟨by rw [List.length_set, length_vliClear], value_eq.trans_lt small, by rw [value_eq]⟩

theorem one : curve.Represents ((vliClear curve.numWords).set 0 1#64) 1 :=
  (lawful.constant (show (1#64).toNat < _ from Nat.lt_of_succ_lt lawful.two_lt)).congr Nat.cast_one

theorem modSquareFast (represents : curve.Represents words a) :
    Returns (vliModSquareFast words curve) fun square => curve.Represents square (a ^ 2) := by
  rw [sq]
  exact lawful.modMultFast represents represents

section Prime

variable [prime : Fact (Nat.Prime (Limbs.value curve.p))]

theorem odd_p : Odd (Limbs.value curve.p) :=
  prime.out.odd_of_ne_two lawful.two_lt.ne'

theorem two_ne_zero : (2 : curve.Base) ≠ 0 := by
  intro zero
  have divides := (ZMod.natCast_eq_zero_iff 2 (Limbs.value curve.p)).mp zero
  exact absurd (Nat.le_of_dvd Nat.two_pos divides) (Nat.not_le_of_lt lawful.two_lt)

theorem modInv (represents : curve.Represents words a) :
    Returns (vliModInv words curve.p) fun inverse => curve.Represents inverse a⁻¹ := by
  by_cases zero : a = 0
  · have none := represents.value_eq_zero_iff.mpr zero
    rw [vliModInv_zero _ none, zero, inv_zero, lawful.length_p]
    exact Returns.ok lawful.zero
  · have nonzero := Nat.pos_of_ne_zero (represents.value_eq_zero_iff.not.mpr zero)
    obtain ⟨inverse, returned, length_eq, small, product⟩ :=
      @vliModInv_spec 64 (by decide) words curve.p lawful.odd_p (Nat.lt_of_succ_lt lawful.two_lt)
        (lawful.length_p ▸ lawful.room) (represents.length_eq.trans lawful.length_p.symm) nonzero
    have coprime : Nat.gcd (Limbs.value words) (Limbs.value curve.p) = 1 :=
      (Nat.coprime_of_lt_prime nonzero.ne' represents.small prime.out).symm
    refine ⟨inverse, returned, length_eq.trans lawful.length_p, small, ?_⟩
    rw [coprime, ← ZMod.natCast_eq_natCast_iff, Nat.cast_mul, represents.cast_eq,
      Nat.cast_one] at product
    exact eq_inv_of_mul_eq_one_left product

/-- The division by two in the doubling is the one of `vli_modInv_update`. -/
theorem jacobianHalf (represents : curve.Represents words a) :
    Returns (Freecoin.jacobianHalf words curve) fun half => curve.Represents half (a / 2) := by
  have lengths := represents.length_eq.trans lawful.length_p.symm
  have even := @vliEven_eq_true_iff 64 (by decide) words
  have nonempty : 0 < words.length := represents.length_eq ▸ lawful.numWords_pos
  have same : Freecoin.jacobianHalf words curve = .ok (vliModInvUpdate words curve.p) := by
    rw [Freecoin.jacobianHalf, vliTestBit_eq (by decide) (Nat.mul_pos (by decide) nonempty),
      Run.ok_bind, Nat.testBit_zero]
    by_cases odd : Limbs.value words % 2 = 1
    · have notEven := even.not.mpr (Nat.not_even_iff.mpr odd)
      rw [if_pos (decide_eq_true odd), vliModInvUpdate, if_neg notEven, represents.length_eq]
      exact congrArg _ (set_carry_eq _ _ (vliAdd_carry_le lengths))
    · have isEven := even.mpr (Nat.even_iff.mpr (Nat.mod_two_ne_one.mp odd))
      rw [decide_eq_false odd, vliModInvUpdate, if_pos isEven]
      rfl
  obtain ⟨length_eq, small, half⟩ :=
    vliModInvUpdate_spec (by decide) lengths lawful.odd_p represents.small
  rw [same]
  refine Returns.ok ⟨length_eq.trans lawful.length_p, small, ?_⟩
  rw [← ZMod.natCast_eq_natCast_iff, Nat.cast_mul, represents.cast_eq] at half
  rw [eq_div_iff lawful.two_ne_zero, mul_comm]
  exact half

end Prime

end Lawful

/-! ## The additions -/

namespace Lawful

variable [prime : Fact (Nat.Prime (Limbs.value curve.p))] (lawful : curve.Lawful)

include lawful

theorem applyZ {P : EccPoint} {Z : Vli 64} {p : curve.Base × curve.Base} {z : curve.Base}
    (point : curve.RepresentsPoint P p) (scale : curve.Represents Z z) :
    Returns (Freecoin.applyZ P Z curve) fun Q => curve.RepresentsPoint Q (CoZ.rescale z p) := by
  unfold Freecoin.applyZ
  refine (lawful.modSquareFast scale).bind fun square square_eq => ?_
  refine (lawful.modMultFast point.fst square_eq).bind fun X1 X1_eq => ?_
  refine (lawful.modMultFast square_eq scale).bind fun cube cube_eq => ?_
  refine (lawful.modMultFast point.snd (cube_eq.congr (pow_succ z 2).symm)).bind fun Y1 Y1_eq => ?_
  exact Returns.ok ⟨X1_eq, Y1_eq⟩

theorem xycZAdd {P Q : EccPoint} {p q : curve.Base × curve.Base}
    (first : curve.RepresentsPoint P p) (second : curve.RepresentsPoint Q q) :
    Returns (Freecoin.xycZAdd P Q curve) fun R => curve.RepresentsPair R (CoZ.add p q) := by
  unfold Freecoin.xycZAdd
  have gap := lawful.modSub second.fst first.fst
  have rise := lawful.modSub second.snd first.snd
  refine (lawful.modSquareFast gap).bind fun A A_eq => ?_
  refine (lawful.modMultFast first.fst A_eq).bind fun B B_eq => ?_
  refine (lawful.modMultFast second.fst A_eq).bind fun C C_eq => ?_
  refine (lawful.modSquareFast rise).bind fun D D_eq => ?_
  have x_eq := lawful.modSub (lawful.modSub D_eq B_eq) C_eq
  refine (lawful.modMultFast first.snd (lawful.modSub C_eq B_eq)).bind fun Y1 Y1_eq => ?_
  refine (lawful.modMultFast rise (lawful.modSub B_eq x_eq)).bind fun Y2 Y2_eq => ?_
  exact Returns.ok ⟨⟨B_eq, Y1_eq⟩, ⟨x_eq, lawful.modSub Y2_eq Y1_eq⟩⟩

theorem xycZAddC {P Q : EccPoint} {p q : curve.Base × curve.Base}
    (first : curve.RepresentsPoint P p) (second : curve.RepresentsPoint Q q) :
    Returns (Freecoin.xycZAddC P Q curve) fun R =>
      curve.RepresentsPair R (CoZ.addConjugate p q) := by
  unfold Freecoin.xycZAddC
  have gap := lawful.modSub second.fst first.fst
  have rise := lawful.modSub second.snd first.snd
  have total := lawful.modAdd second.snd first.snd
  refine (lawful.modSquareFast gap).bind fun A A_eq => ?_
  refine (lawful.modMultFast first.fst A_eq).bind fun B B_eq => ?_
  refine (lawful.modMultFast second.fst A_eq).bind fun C C_eq => ?_
  refine (lawful.modMultFast first.snd (lawful.modSub C_eq B_eq)).bind fun E E_eq => ?_
  have both := lawful.modAdd B_eq C_eq
  refine (lawful.modSquareFast rise).bind fun D D_eq => ?_
  have x_eq := lawful.modSub D_eq both
  refine (lawful.modMultFast rise (lawful.modSub B_eq x_eq)).bind fun Y2 Y2_eq => ?_
  refine (lawful.modSquareFast total).bind fun G G_eq => ?_
  have x'_eq := lawful.modSub G_eq both
  refine (lawful.modMultFast (lawful.modSub x'_eq B_eq) total).bind fun Y1 Y1_eq => ?_
  refine Returns.ok ⟨⟨x'_eq, (lawful.modSub Y1_eq E_eq).congr ?_⟩,
    ⟨x_eq, lawful.modSub Y2_eq E_eq⟩⟩
  simp only [CoZ.addConjugate]
  ring

/-- `double_jacobian_default` doubles a point of a curve with `a = -3`. -/
theorem doubleJacobianDefault {P : EccPoint} {Z : Vli 64} {p : curve.Base × curve.Base}
    {z : curve.Base} (point : curve.RepresentsPoint P p) (denominator : curve.Represents Z z)
    (nonzero : z ≠ 0) :
    Returns (Freecoin.doubleJacobianDefault P Z curve) fun doubled =>
      curve.RepresentsPoint doubled.1 (CoZ.double (-3) z p) ∧
        curve.Represents doubled.2 (p.2 * z) := by
  have notZero : vliIsZero Z = false := by
    rw [vliIsZero_eq_false_iff]
    exact Nat.pos_of_ne_zero (denominator.value_eq_zero_iff.not.mpr nonzero)
  unfold Freecoin.doubleJacobianDefault
  rw [notZero, if_neg Bool.false_ne_true]
  refine (lawful.modSquareFast point.snd).bind fun Y2 Y2_eq => ?_
  refine (lawful.modMultFast point.fst Y2_eq).bind fun A A_eq => ?_
  refine (lawful.modSquareFast Y2_eq).bind fun Y4 Y4_eq => ?_
  refine (lawful.modMultFast point.snd denominator).bind fun Z3 Z3_eq => ?_
  refine (lawful.modSquareFast denominator).bind fun Z2 Z2_eq => ?_
  have sum := lawful.modAdd point.fst Z2_eq
  have difference := lawful.modSub sum (lawful.modAdd Z2_eq Z2_eq)
  refine (lawful.modMultFast sum difference).bind fun M M_eq => ?_
  refine (lawful.jacobianHalf (lawful.modAdd M_eq (lawful.modAdd M_eq M_eq))).bind
    fun B half_eq => ?_
  have B_eq := half_eq.congr (show _ = (3 * p.1 ^ 2 + -3 * z ^ 4) / 2 by ring)
  refine (lawful.modSquareFast B_eq).bind fun square square_eq => ?_
  have x_eq := (lawful.modSub (lawful.modSub square_eq A_eq) A_eq).congr
    (show _ = ((3 * p.1 ^ 2 + -3 * z ^ 4) / 2) ^ 2 - 2 * (p.1 * p.2 ^ 2) by ring)
  refine (lawful.modMultFast B_eq (lawful.modSub A_eq x_eq)).bind fun Y Y_eq => ?_
  refine Returns.ok ⟨⟨x_eq, (lawful.modSub Y_eq Y4_eq).congr ?_⟩, Z3_eq⟩
  simp only [CoZ.double]
  ring

end Lawful

end EcdsaCurve

end Freecoin
