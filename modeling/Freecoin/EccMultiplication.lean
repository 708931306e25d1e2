import Freecoin.EccPoints

/-!
# Point multiplication

`EccPoint_mult` as a run of Montgomery's ladder on words.  For a point of odd order it returns the
multiple of the point or, when a proper prefix of the scalar hits the middle of the order, zeros.
-/

namespace Freecoin

open Foundation

/-- `R[index]`, for one of the two points of `EccPoint_mult`. -/
def ladderPoint (R : EccPoint × EccPoint) (index : Bool) : EccPoint := if index then R.2 else R.1

/-- The two points, from `R[nb]` and `R[1 - nb]`. -/
def ladderPoints (nb : Bool) (same other : EccPoint) : EccPoint × EccPoint :=
  if nb then (other, same) else (same, other)

/-- The body of the loop of `EccPoint_mult`. -/
def eccPointMultStep (scalar : Vli 64) (i : Nat) (R : EccPoint × EccPoint) (curve : EcdsaCurve) :
    Run (EccPoint × EccPoint) := do
  let bit ← vliTestBit scalar i
  let nb := !bit
  let C ← xycZAddC (ladderPoint R !nb) (ladderPoint R nb) curve
  let S ← xycZAdd C.2 C.1 curve
  .ok (ladderPoints nb S.1 S.2)

/-- The loop of `EccPoint_mult`. -/
def eccPointMultLoop (scalar : Vli 64) (curve : EcdsaCurve) :
    (i : Nat) → EccPoint × EccPoint → Run (EccPoint × EccPoint)
  | 0, R => .ok R
  | i + 1, R => do
      let R ← eccPointMultStep scalar (i + 1) R curve
      eccPointMultLoop scalar curve i R

/-- What `EccPoint_mult` does after its loop: the last bit, with the inverse of the denominator
found from the coordinates of the point. -/
def eccPointMultLast (point : EccPoint) (scalar : Vli 64) (R : EccPoint × EccPoint)
    (curve : EcdsaCurve) : Run EccPoint := do
  let bit ← vliTestBit scalar 0
  let nb := !bit
  let C ← xycZAddC (ladderPoint R !nb) (ladderPoint R nb) curve
  let R := ladderPoints nb C.2 C.1
  let z := vliModSub R.2.1 R.1.1 curve.p
  let z ← vliModMultFast z C.1.2 curve
  let z ← vliModMultFast z point.1 curve
  let z ← vliModInv z curve.p
  let z ← vliModMultFast z point.2 curve
  let z ← vliModMultFast z C.1.1 curve
  let S ← xycZAdd C.2 C.1 curve
  applyZ (ladderPoints nb S.1 S.2).1 z curve

/-- `EccPoint_mult`. -/
def eccPointMult (point : EccPoint) (scalar : Vli 64) (initialZ : Option (Vli 64)) (numBits : Nat)
    (curve : EcdsaCurve) : Run EccPoint := do
  let R ← xycZInitialDouble point initialZ curve
  let R ← eccPointMultLoop scalar curve (numBits - 2) R.swap
  eccPointMultLast point scalar R curve

/-- The scalar that the ladder reads: the bits below the highest one, which is taken to be set. -/
def ladderScalar (scalar : Vli 64) (numBits : Nat) : Nat :=
  2 ^ (numBits - 1) + Limbs.value scalar % 2 ^ (numBits - 1)

theorem vliTestBit_eq_ladderScalar {scalar : Vli 64} {numBits i : Nat} (inside : i < numBits - 1)
    (available : i < 64 * scalar.length) :
    vliTestBit scalar i = .ok ((ladderScalar scalar numBits).testBit i) := by
  rw [ladderScalar, Nat.testBit_two_pow_add_gt inside, Nat.testBit_mod_two_pow,
    decide_eq_true inside, Bool.true_and, vliTestBit_eq (by decide) available]

theorem ladderScalar_div (scalar : Vli 64) (numBits : Nat) :
    ladderScalar scalar numBits / 2 ^ (numBits - 1) = 1 := by
  have positive : 0 < 2 ^ (numBits - 1) := Nat.two_pow_pos _
  rw [ladderScalar, Nat.add_div_left _ positive, Nat.div_eq_of_lt (Nat.mod_lt _ positive)]

namespace EcdsaCurve.Lawful

variable {curve : EcdsaCurve} [prime : Fact (Nat.Prime (Limbs.value curve.p))]
  (lawful : curve.Lawful)

include lawful

theorem xycZInitialDouble {point : EccPoint} {p : curve.Base × curve.Base}
    {initialZ : Option (Vli 64)} {z : curve.Base}
    (represents : curve.RepresentsPoint point p)
    (initial : curve.Represents (initialZ.getD ((vliClear curve.numWords).set 0 1#64)) z)
    (nonzero : z ≠ 0) :
    Returns (Freecoin.xycZInitialDouble point initialZ curve) fun R =>
      curve.RepresentsPair R
        (CoZ.double (-3) z (CoZ.rescale z p), CoZ.rescale ((CoZ.rescale z p).2 * z) p) := by
  unfold Freecoin.xycZInitialDouble
  refine (lawful.applyZ represents initial).bind fun P1 P1_eq => ?_
  refine (lawful.doubleJacobianDefault P1_eq initial nonzero).bind fun doubled doubled_eq => ?_
  refine (lawful.applyZ represents doubled_eq.2).bind fun P2 P2_eq => ?_
  exact Returns.ok ⟨doubled_eq.1, P2_eq⟩

omit prime lawful in
/-- The two points where a step with the bit `bit` leaves them. -/
theorem ladderPoints {same other : EccPoint} {p q : curve.Base × curve.Base}
    (first : curve.RepresentsPoint same p) (second : curve.RepresentsPoint other q) (bit : Bool) :
    curve.RepresentsPair (Freecoin.ladderPoints (!bit) same other)
      (if bit then (p, q) else (q, p)) := by
  cases bit with
  | true => exact ⟨first, second⟩
  | false => exact ⟨second, first⟩

/-- The conjugate addition of a step is the one of the ladder. -/
theorem conjugate {R : EccPoint × EccPoint} {r : CoZ.PointPair curve.Base}
    (represents : curve.RepresentsPair R r) (bit : Bool) :
    Returns (Freecoin.xycZAddC (ladderPoint R !!bit) (ladderPoint R !bit) curve) fun C =>
      curve.RepresentsPair C (CoZ.ladderConjugate bit r) := by
  cases bit with
  | true => exact lawful.xycZAddC represents.snd represents.fst
  | false => exact lawful.xycZAddC represents.fst represents.snd

theorem eccPointMultStep {scalar : Vli 64} {i : Nat} {R : EccPoint × EccPoint}
    {r : CoZ.PointPair curve.Base} {bit : Bool} (represents : curve.RepresentsPair R r)
    (bit_eq : vliTestBit scalar i = .ok bit) :
    Returns (Freecoin.eccPointMultStep scalar i R curve) fun next =>
      curve.RepresentsPair next (CoZ.ladderStep bit r) := by
  rw [Freecoin.eccPointMultStep, bit_eq, Run.ok_bind]
  refine (lawful.conjugate represents bit).bind fun C C_eq => ?_
  refine (lawful.xycZAdd C_eq.snd C_eq.fst).bind fun S S_eq => ?_
  have next := ladderPoints S_eq.fst S_eq.snd bit
  cases bit <;> exact Returns.ok next

theorem eccPointMultLast {point : EccPoint} {scalar : Vli 64} {R : EccPoint × EccPoint}
    {base : curve.Base × curve.Base} {r : CoZ.PointPair curve.Base} {bit : Bool}
    (point_eq : curve.RepresentsPoint point base) (represents : curve.RepresentsPair R r)
    (bit_eq : vliTestBit scalar 0 = .ok bit) :
    Returns (Freecoin.eccPointMultLast point scalar R curve) fun result =>
      curve.RepresentsPoint result (CoZ.ladderLast bit base r) := by
  rw [Freecoin.eccPointMultLast, bit_eq, Run.ok_bind]
  refine (lawful.conjugate represents bit).bind fun C C_eq => ?_
  have placed := ladderPoints C_eq.snd C_eq.fst bit
  have gap := lawful.modSub placed.snd.fst placed.fst.fst
  refine (lawful.modMultFast gap C_eq.fst.snd).bind fun z1 z1_eq => ?_
  refine (lawful.modMultFast z1_eq point_eq.fst).bind fun z2 z2_eq => ?_
  refine (lawful.modInv z2_eq).bind fun z3 z3_eq => ?_
  refine (lawful.modMultFast z3_eq point_eq.snd).bind fun z4 z4_eq => ?_
  refine (lawful.modMultFast z4_eq C_eq.fst.fst).bind fun z z_eq => ?_
  refine (lawful.xycZAdd C_eq.snd C_eq.fst).bind fun S S_eq => ?_
  have last := (ladderPoints S_eq.fst S_eq.snd bit).fst
  have result := lawful.applyZ last z_eq
  cases bit <;> exact result

section Point

variable {b : curve.Base} {P : (CoZ.shortCurve (-3) b).Point} (odd : Odd (addOrderOf P))
  {scalar : Vli 64}

include odd

/-- The loop reads the bits of the scalar down to the lowest but one. -/
theorem eccPointMultLoop {i multiple : Nat} {R : EccPoint × EccPoint}
    {r : CoZ.PointPair curve.Base} (represents : curve.RepresentsPair R r)
    (position : CoZ.Position P multiple (i + 1) r)
    (bits : ∀ j, j ≤ i → vliTestBit scalar j = .ok (multiple.testBit j)) :
    Returns (Freecoin.eccPointMultLoop scalar curve i R) fun last =>
      ∃ r', curve.RepresentsPair last r' ∧ CoZ.Position P multiple 1 r' := by
  induction i generalizing R r with
  | zero => exact Returns.ok ⟨r, represents, position⟩
  | succ i ih =>
      have next := position.step odd
      refine (lawful.eccPointMultStep represents (bits (i + 1) le_rfl)).bind fun S S_eq => ?_
      exact ih S_eq next fun j below => bits j (Nat.le_succ_of_le below)

variable {x y : curve.Base} {nonsingular : (CoZ.shortCurve (-3) b).Nonsingular x y}
  (point_eq : P = .some x y nonsingular) (abscissa : x ≠ 0) (ordinate : y ≠ 0)
  {point : EccPoint} (represents : curve.RepresentsPoint point (x, y))

include point_eq abscissa ordinate represents

/-- `EccPoint_mult` returns the multiple of the point, unless a proper prefix of the scalar makes
the ladder lose it: then it returns zeros. -/
theorem eccPointMult {initialZ : Option (Vli 64)} {z : curve.Base} {numBits : Nat}
    (initial : curve.Represents (initialZ.getD ((vliClear curve.numWords).set 0 1#64)) z)
    (nonzero : z ≠ 0) (several : 2 ≤ numBits) (available : numBits ≤ 64 * scalar.length + 1) :
    Returns (Freecoin.eccPointMult point scalar initialZ numBits curve) fun result =>
      ∃ r, curve.RepresentsPoint result r ∧
        (((∀ j, 0 < j → (2 * (ladderScalar scalar numBits / 2 ^ j) + 1) • P ≠ 0) ∧
            CoZ.Scaled 1 r (ladderScalar scalar numBits • P)) ∨
          ((∃ j, 0 < j ∧ (2 * (ladderScalar scalar numBits / 2 ^ j) + 1) • P = 0) ∧ r = 0)) := by
  have start : CoZ.Position P (ladderScalar scalar numBits) (numBits - 2 + 1)
      (CoZ.double (-3) z (CoZ.rescale z (x, y)),
        CoZ.rescale ((CoZ.rescale z (x, y)).2 * z) (x, y)).swap := by
    have base := CoZ.Scaled.of_some nonsingular
    have scaled := base.rescale nonzero
    rw [one_mul] at scaled
    have height : (CoZ.rescale z (x, y)).2 ≠ 0 := mul_ne_zero ordinate (pow_ne_zero 3 nonzero)
    have doubled := scaled.double height lawful.two_ne_zero
    have kept := base.rescale doubled.denominator_ne_zero
    rw [one_mul, ← point_eq] at kept
    rw [← point_eq] at doubled
    rw [show numBits - 2 + 1 = numBits - 1 by omega]
    refine .inl ⟨⟨(CoZ.rescale z (x, y)).2 * z, ?_, ?_⟩, ?_⟩
    · rw [ladderScalar_div, one_nsmul]
      exact kept
    · rw [ladderScalar_div, one_add_one_eq_two, two_nsmul]
      exact doubled
    · intro j above
      have none : ladderScalar scalar numBits / 2 ^ j = 0 := by
        have top := ladderScalar_div scalar numBits
        rw [show j = numBits - 1 + (j - (numBits - 1)) by omega, pow_add, ← Nat.div_div_eq_div_mul,
          top]
        exact Nat.div_eq_of_lt (Nat.one_lt_two_pow (by omega))
      rw [none, mul_zero, zero_add, one_nsmul]
      exact kept.point_ne_zero
  unfold Freecoin.eccPointMult
  refine (lawful.xycZInitialDouble represents initial nonzero).bind fun R R_eq => ?_
  have swapped : curve.RepresentsPair R.swap (CoZ.double (-3) z (CoZ.rescale z (x, y)),
      CoZ.rescale ((CoZ.rescale z (x, y)).2 * z) (x, y)).swap := ⟨R_eq.snd, R_eq.fst⟩
  refine (lawful.eccPointMultLoop odd swapped start
    fun j below => vliTestBit_eq_ladderScalar (by omega) (by omega)).bind fun last ladder => ?_
  obtain ⟨r, last_eq, position⟩ := ladder
  have lowest := @vliTestBit_eq_ladderScalar scalar numBits 0 (by omega) (by omega)
  refine (lawful.eccPointMultLast represents last_eq lowest).mono fun result result_eq => ?_
  exact ⟨_, result_eq, position.last odd point_eq abscissa ordinate⟩

end Point

end EcdsaCurve.Lawful

end Freecoin
