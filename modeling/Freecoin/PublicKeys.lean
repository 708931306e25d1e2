import Freecoin.Secp256r1Group
import Freecoin.VliBytes

/-!
# Public keys

The public key of a private key `k` is the multiple `k G`.  The scalar is made longer than the order
first, so that its highest bit is always at the same place; for three private keys a prefix of the
longer scalar is half of the order, and the ladder loses the point.
-/

namespace Freecoin

open Foundation

/-- `BITS_TO_WORDS`. -/
def bitsToWords (numBits : Nat) : Nat := (numBits + 63) / 64

/-- `BITS_TO_BYTES`. -/
def bitsToBytes (numBits : Nat) : Nat := (numBits + 7) / 8

/-- `EccPoint_isZero`. -/
def eccPointIsZero (point : EccPoint) : Bool := vliIsZero (point.1 ++ point.2)

/-- `k0` and `k1` of `regularize_k`, and the carry it returns. -/
structure RegularizedK where
  k0 : Vli 64
  k1 : Vli 64
  carry : Bool

/-- `regularize_k`. -/
def regularizeK (k : Vli 64) (curve : EcdsaCurve) : Run RegularizedK := do
  let numNWords := bitsToWords curve.numNBits
  let sum := vliAdd k curve.n
  let carry ←
    if sum.2 ≠ 0#64 then .ok true
    else if curve.numNBits < numNWords * 64 then vliTestBit sum.1 curve.numNBits
    else .ok false
  .ok { k0 := sum.1, k1 := (vliAdd sum.1 curve.n).1, carry }

/-- `p2[!carry]` and `k2[!carry]`. -/
def RegularizedK.chosen (regularized : RegularizedK) : Vli 64 :=
  if regularized.carry then regularized.k0 else regularized.k1

/-- `EccPoint_compute_public_key`: what it returns, and the point. -/
def eccPointComputePublicKey (priv : Vli 64) (curve : EcdsaCurve) : Run (Nat × EccPoint) := do
  let regularized ← regularizeK priv curve
  let result ← eccPointMult curve.G regularized.chosen none (curve.numNBits + 1) curve
  .ok (if eccPointIsZero result then 0 else 1, result)

/-- `x_side_default`. -/
def xSideDefault (x : Vli 64) (curve : EcdsaCurve) : Run (Vli 64) := do
  let three := (vliClear curve.numWords).set 0 3#64
  let result ← vliModSquareFast x curve
  let result := vliModSub result three curve.p
  let result ← vliModMultFast result x curve
  .ok (vliModAdd result curve.b curve.p)

/-- `ecdsa_valid_point`. -/
def ecdsaValidPoint (point : EccPoint) (curve : EcdsaCurve) : Run Nat :=
  if eccPointIsZero point then .ok 0
  else if vliCmpUnsafe curve.p point.1 ≠ 1 ∨ vliCmpUnsafe curve.p point.2 ≠ 1 then .ok 0
  else do
    let tmp1 ← vliModSquareFast point.2 curve
    let tmp2 ← xSideDefault point.1 curve
    .ok (if vliEqual tmp1 tmp2 then 1 else 0)

/-- The point that the bytes of a public key hold. -/
def publicKeyPoint (publicKey : List UInt8) (curve : EcdsaCurve) : EccPoint :=
  (bytesNative (publicKey.take curve.numBytes) curve.numBytes,
    bytesNative (publicKey.drop curve.numBytes) curve.numBytes)

/-- The bytes of a public key. -/
def publicKeyBytes (point : EccPoint) (curve : EcdsaCurve) : List UInt8 :=
  nativeBytes curve.numBytes point.1 ++ nativeBytes curve.numBytes point.2

/-- The two calls of `ecdsa_vli_bytesToNative` that read a public key. -/
def readPublicKey (publicKey : List UInt8) (curve : EcdsaCurve) : Run EccPoint := do
  let x ← vliBytesToNative (publicKey.take curve.numBytes) curve.numBytes
  let y ← vliBytesToNative (publicKey.drop curve.numBytes) curve.numBytes
  .ok (x, y)

/-- The two calls of `ecdsa_vli_nativeToBytes` that write a public key. -/
def writePublicKey (point : EccPoint) (curve : EcdsaCurve) : Run (List UInt8) := do
  let x ← vliNativeToBytes curve.numBytes point.1
  let y ← vliNativeToBytes curve.numBytes point.2
  .ok (x ++ y)

/-- `ecdsa_valid_public_key`. -/
def ecdsaValidPublicKey (publicKey : List UInt8) (curve : EcdsaCurve) : Run Nat := do
  let point ← readPublicKey publicKey curve
  ecdsaValidPoint point curve

/-- `ecdsa_compute_public_key`: what it returns, and the public key if it writes one. -/
def ecdsaComputePublicKey (privateKey : List UInt8) (curve : EcdsaCurve) :
    Run (Nat × Option (List UInt8)) := do
  let priv ← vliBytesToNative privateKey (bitsToBytes curve.numNBits)
  if vliIsZero priv then .ok (0, none)
  else
    let order ← vliCmp curve.n priv
    if order ≠ 1 then .ok (0, none)
    else
      let computed ← eccPointComputePublicKey priv curve
      if computed.1 = 0 then .ok (0, none)
      else
        let publicKey ← writePublicKey computed.2 curve
        .ok (1, some publicKey)

/-! ## Regular scalars -/

/-- `k` with the order added once or twice, so that it has 257 bits. -/
def regularScalar (k : Nat) : Nat :=
  if k + orderSecp256r1 < 2 ^ 256 then k + 2 * orderSecp256r1 else k + orderSecp256r1

theorem regularScalar_cases (k : Nat) :
    (k + orderSecp256r1 < 2 ^ 256 ∧ regularScalar k = k + 2 * orderSecp256r1) ∨
      (2 ^ 256 ≤ k + orderSecp256r1 ∧ regularScalar k = k + orderSecp256r1) := by
  unfold regularScalar
  split
  · exact .inl ⟨‹_›, rfl⟩
  · exact .inr ⟨Nat.le_of_not_lt ‹_›, rfl⟩

/-- Words from which the ladder reads the regular scalar of `k`. -/
structure Regularizes (scalar : Vli 64) (k : Nat) : Prop where
  length_eq : scalar.length = 4
  ladder_eq : ladderScalar scalar 257 = regularScalar k

/-- `regularize_k` returns, and chooses the scalar that the ladder reads for `k`. -/
theorem regularizeK_spec {k : Vli 64} (length_eq : k.length = 4)
    (small : Limbs.value k < orderSecp256r1) :
    Returns (regularizeK k curveSecp256r1) fun regularized =>
      Regularizes regularized.chosen (Limbs.value k) := by
  have lengths : k.length = curveSecp256r1.n.length := length_eq
  have sumLength : (vliAdd k curveSecp256r1.n).1.length = curveSecp256r1.n.length :=
    (length_vliAdd lengths).trans lengths
  have carries := vliAdd_carry_eq_zero_iff lengths
  have sum := value_vliAdd lengths
  have twice := value_vliAdd sumLength
  have twiceLength := length_vliAdd sumLength
  rw [sum] at twice
  rw [sumLength, value_curveSecp256r1_n] at twice
  rw [length_eq, value_curveSecp256r1_n] at carries sum
  have width : (2 : Nat) ^ (64 * 4) = 2 ^ 256 := rfl
  have words : curveSecp256r1.n.length = 4 := rfl
  have exact : ¬ curveSecp256r1.numNBits < bitsToWords curveSecp256r1.numNBits * 64 := by decide
  rw [width] at carries sum
  rw [length_eq, words, width, width] at twice
  unfold regularizeK
  rcases regularScalar_cases (Limbs.value k) with ⟨fits, scalar_eq⟩ | ⟨large, scalar_eq⟩
  · have none : ¬ (vliAdd k curveSecp256r1.n).2 ≠ 0#64 := not_not.mpr (carries.mpr fits)
    rw [if_neg none, if_neg exact, Run.ok_bind]
    refine Returns.ok ⟨twiceLength.trans (sumLength.trans words), ?_⟩
    rw [ladderScalar, RegularizedK.chosen, if_neg Bool.false_ne_true, twice, scalar_eq]
    simp only [orderSecp256r1] at small fits ⊢
    omega
  · have carried : (vliAdd k curveSecp256r1.n).2 ≠ 0#64 :=
      carries.not.mpr (Nat.not_lt_of_le large)
    rw [if_pos carried, Run.ok_bind]
    refine Returns.ok ⟨sumLength.trans words, ?_⟩
    rw [ladderScalar, RegularizedK.chosen, if_pos rfl, sum, scalar_eq]
    simp only [orderSecp256r1] at small large ⊢
    omega

/-- A multiple of the order that is one more than twice a prefix is the order itself. -/
theorem two_mul_div_add_one_eq {k j : Nat} (small : k < orderSecp256r1) (above : 0 < j)
    (multiple : orderSecp256r1 ∣ 2 * (regularScalar k / 2 ^ j) + 1) :
    2 * (regularScalar k / 2 ^ j) + 1 = orderSecp256r1 := by
  obtain ⟨count, count_eq⟩ := multiple
  have odd : orderSecp256r1 = 2 * (orderSecp256r1 / 2) + 1 := by decide
  have order : 2 * 2 ^ 256 < 3 * orderSecp256r1 := by decide
  have half : regularScalar k / 2 ^ j ≤ regularScalar k / 2 ^ 1 :=
    Nat.div_le_div_left (Nat.pow_le_pow_right Nat.two_pos above) Nat.two_pos
  have bounds := regularScalar_cases k
  generalize orderSecp256r1 = n at *
  generalize 2 ^ 256 = top at *
  generalize regularScalar k / 2 ^ j = q at *
  rcases count with _ | _ | _ | count
  · omega
  · omega
  · omega
  · have large : n * 3 ≤ n * (count + 1 + 1 + 1) := Nat.mul_le_mul_left n (by omega)
    omega

/-- The keys for which a prefix of the scalar is half of the order. -/
theorem exists_middle_iff {k : Nat} (positive : 0 < k) (small : k < orderSecp256r1) :
    (∃ j, 0 < j ∧ orderSecp256r1 ∣ 2 * (regularScalar k / 2 ^ j) + 1) ↔
      k = 1 ∨ k = orderSecp256r1 - 2 ∨ k = orderSecp256r1 - 1 := by
  constructor
  · rintro ⟨j, above, multiple⟩
    have half := two_mul_div_add_one_eq small above multiple
    have bounds := regularScalar_cases k
    have order : orderSecp256r1 < 2 ^ 256 := by decide
    have large : 3 < orderSecp256r1 := by decide
    generalize orderSecp256r1 = n at *
    generalize 2 ^ 256 = top at *
    -- Without three bits the scalar is below half of the order.
    have short : j ≤ 2 := by
      by_contra long
      have bound : regularScalar k / 2 ^ j ≤ regularScalar k / 2 ^ 3 :=
        Nat.div_le_div_left (Nat.pow_le_pow_right Nat.two_pos (by omega)) (by decide)
      omega
    interval_cases j <;> omega
  · intro exceptional
    refine ⟨2, Nat.two_pos, 1, ?_⟩
    rcases exceptional with rfl | rfl | rfl <;> decide

/-! ## The public key -/

theorem secp256r1B_ne_zero : secp256r1B ≠ 0 := by decide +kernel

/-- The words of a point that are not all zero. -/
def IsPoint (words : EccPoint) (P : secp256r1.Point) : Prop :=
  ∃ x y, ∃ nonsingular : secp256r1.Nonsingular x y,
    P = .some x y nonsingular ∧ curveSecp256r1.RepresentsPoint words (x, y)

theorem eccPointIsZero_eq_true_iff {words : EccPoint}
    {p : curveSecp256r1.Base × curveSecp256r1.Base}
    (represents : curveSecp256r1.RepresentsPoint words p) :
    eccPointIsZero words = true ↔ p = 0 := by
  have positive := Nat.two_pow_pos (64 * words.1.length)
  rw [eccPointIsZero, vliIsZero_eq_true_iff, Limbs.value_append, Nat.add_eq_zero_iff,
    Nat.mul_eq_zero, or_iff_right positive.ne', represents.fst.value_eq_zero_iff,
    represents.snd.value_eq_zero_iff, Prod.ext_iff]
  rfl

theorem IsPoint.eccPointIsZero {words : EccPoint} {P : secp256r1.Point}
    (isPoint : IsPoint words P) : Freecoin.eccPointIsZero words = false := by
  obtain ⟨x, y, nonsingular, _, represents⟩ := isPoint
  rw [← Bool.not_eq_true, eccPointIsZero_eq_true_iff represents]
  intro zero
  obtain ⟨rfl, rfl⟩ := Prod.mk.inj zero
  have equation := nonsingular_secp256r1_iff.mp nonsingular
  apply secp256r1B_ne_zero
  linear_combination -equation

/-- Words with another abscissa hold neither the base point nor its opposite. -/
theorem IsPoint.apart {words : EccPoint} {P : secp256r1.Point} (isPoint : IsPoint words P)
    (abscissa : words.1 ≠ curveSecp256r1.G.1) : P ≠ basePoint ∧ P ≠ -basePoint := by
  obtain ⟨x, y, nonsingular, rfl, represents⟩ := isPoint
  have different : x ≠ baseCoordinates.1 := by
    rintro rfl
    exact abscissa (represents.fst.unique represents_base.fst)
  have base : CoZ.Scaled 1 baseCoordinates basePoint := CoZ.Scaled.of_some _
  exact not_or.mp (((CoZ.Scaled.of_some nonsingular).fst_eq_iff base).not.mp different)

/-- The keys that `EccPoint_compute_public_key` refuses. -/
def LosesPoint (k : Nat) : Prop := k = 1 ∨ k = orderSecp256r1 - 2 ∨ k = orderSecp256r1 - 1

/-- A point has one representation. -/
theorem IsPoint.unique {left right : EccPoint} {P : secp256r1.Point} (first : IsPoint left P)
    (second : IsPoint right P) : left = right := by
  obtain ⟨x, y, _, rfl, leftWords⟩ := first
  obtain ⟨x', y', _, same, rightWords⟩ := second
  obtain ⟨rfl, rfl⟩ := WeierstrassCurve.Affine.Point.some.inj same
  exact Prod.ext (leftWords.fst.unique rightWords.fst) (leftWords.snd.unique rightWords.snd)

/-- A prefix of the scalar is half of the order: the two points of the ladder are opposite. -/
def LosesMultiple (P : secp256r1.Point) (scalar : Nat) : Prop :=
  ∃ j, 0 < j ∧ (2 * (scalar / 2 ^ j) + 1) • P = 0

section Multiples

variable {P : secp256r1.Point} {x y : curveSecp256r1.Base} {nonsingular : secp256r1.Nonsingular x y}
  (point_eq : P = .some x y nonsingular) (abscissa : x ≠ 0) {point : EccPoint}
  (represents : curveSecp256r1.RepresentsPoint point (x, y)) {initialZ : Option (Vli 64)}
  {z : curveSecp256r1.Base}
  (initial : curveSecp256r1.Represents
    (initialZ.getD ((vliClear curveSecp256r1.numWords).set 0 1#64)) z)
  (nonzero : z ≠ 0)

include point_eq abscissa represents initial nonzero

/-- `EccPoint_mult` returns the multiple of the point, or zeros when the ladder loses it. -/
theorem eccPointMult_spec (odd : Odd (addOrderOf P)) (scalar : Vli 64) {numBits : Nat}
    (several : 2 ≤ numBits) (available : numBits ≤ 64 * scalar.length + 1) :
    Returns (eccPointMult point scalar initialZ numBits curveSecp256r1) fun result =>
      (¬ LosesMultiple P (ladderScalar scalar numBits) ∧
          IsPoint result (ladderScalar scalar numBits • P)) ∨
        (LosesMultiple P (ladderScalar scalar numBits) ∧ result = (vliClear 4, vliClear 4)) := by
  have ordinate : y ≠ 0 := by
    rintro rfl
    have flat : P + P = 0 := by
      rw [point_eq]
      apply WeierstrassCurve.Affine.Point.add_self_of_Y_eq
      simp only [WeierstrassCurve.Affine.negY, CoZ.shortCurve]
      ring
    have divides := addOrderOf_dvd_of_nsmul_eq_zero ((two_nsmul P).trans flat)
    have trivial := Nat.eq_one_of_dvd_coprimes odd.coprime_two_right dvd_rfl divides
    rw [AddMonoid.addOrderOf_eq_one_iff, point_eq] at trivial
    exact WeierstrassCurve.Affine.Point.some_ne_zero nonsingular trivial
  refine (lawful_curveSecp256r1.eccPointMult odd point_eq abscissa ordinate represents initial
    nonzero several available).mono fun result ends => ?_
  obtain ⟨r, result_eq, ⟨regular, scaled⟩ | ⟨loses, zero⟩⟩ := ends
  · obtain ⟨affine, multiple_eq⟩ := scaled.exists_eq_some
    refine .inl ⟨?_, _, _, affine, multiple_eq, result_eq⟩
    rintro ⟨j, above, lost⟩
    exact regular j above lost
  · rw [zero] at result_eq
    have zeros := lawful_curveSecp256r1.zero
    exact .inr ⟨loses, Prod.ext (result_eq.fst.unique zeros) (result_eq.snd.unique zeros)⟩

/-- What `EccPoint_mult` makes of a point of the order `n` and a regularized scalar. -/
theorem eccPointMult_of_regularizes (order : addOrderOf P = orderSecp256r1) {scalar : Vli 64}
    {k : Nat} (regular : Regularizes scalar k) (positive : 0 < k) (small : k < orderSecp256r1) :
    Returns (eccPointMult point scalar initialZ 257 curveSecp256r1) fun result =>
      (¬ LosesPoint k ∧ IsPoint result (k • P)) ∨
        (LosesPoint k ∧ result = (vliClear 4, vliClear 4)) := by
  have odd : Odd (addOrderOf P) := by
    rw [order]
    decide
  have multiple : regularScalar k • P = k • P := by
    have zero := addOrderOf_nsmul_eq_zero P
    rw [order] at zero
    rcases regularScalar_cases k with ⟨_, scalar_eq⟩ | ⟨_, scalar_eq⟩
    · rw [scalar_eq, add_nsmul, mul_comm, mul_nsmul, zero, nsmul_zero, add_zero]
    · rw [scalar_eq, add_nsmul, zero, add_zero]
  have loses : LosesMultiple P (regularScalar k) ↔ LosesPoint k := by
    rw [LosesPoint, ← exists_middle_iff positive small, LosesMultiple]
    simp only [← order, addOrderOf_dvd_iff_nsmul_eq_zero]
  have available : 257 ≤ 64 * scalar.length + 1 := by rw [regular.length_eq]
  have spec := eccPointMult_spec point_eq abscissa represents initial nonzero odd scalar
    (show 2 ≤ 257 by decide) available
  rwa [regular.ladder_eq, loses, multiple] at spec

end Multiples

/-- The initial denominator of `EccPoint_mult` hides the coordinates and leaves the result as it
is. -/
theorem eccPointMult_initialZ {P : secp256r1.Point} {x y : curveSecp256r1.Base}
    {nonsingular : secp256r1.Nonsingular x y} (point_eq : P = .some x y nonsingular)
    (abscissa : x ≠ 0) (odd : Odd (addOrderOf P)) {point : EccPoint}
    (represents : curveSecp256r1.RepresentsPoint point (x, y)) {Z : Vli 64}
    (length_eq : Z.length = 4) (positive : 0 < Limbs.value Z)
    (small : Limbs.value Z < Limbs.value curveSecp256r1.p) (scalar : Vli 64) {numBits : Nat}
    (several : 2 ≤ numBits) (available : numBits ≤ 64 * scalar.length + 1) :
    ∃ result, eccPointMult point scalar (some Z) numBits curveSecp256r1 = .ok result ∧
      eccPointMult point scalar none numBits curveSecp256r1 = .ok result ∧
      (¬ LosesMultiple P (ladderScalar scalar numBits) →
        IsPoint result (ladderScalar scalar numBits • P)) ∧
      (LosesMultiple P (ladderScalar scalar numBits) → result = (vliClear 4, vliClear 4)) := by
  have hidden : curveSecp256r1.Represents Z (Limbs.value Z : Nat) := ⟨length_eq, small, rfl⟩
  have nonzero := hidden.value_eq_zero_iff.not.mp positive.ne'
  have plain : curveSecp256r1.Represents
      ((none : Option (Vli 64)).getD ((vliClear curveSecp256r1.numWords).set 0 1#64)) 1 :=
    lawful_curveSecp256r1.one
  obtain ⟨result, returned, ends⟩ :=
    @eccPointMult_spec P x y nonsingular point_eq abscissa point represents (some Z) _ hidden
      nonzero odd scalar numBits several available
  obtain ⟨other, otherReturned, otherEnds⟩ :=
    eccPointMult_spec point_eq abscissa represents plain one_ne_zero odd scalar several available
  have same : result = other := by
    rcases ends with ⟨keeps, isPoint⟩ | ⟨loses, zeros⟩
    · rcases otherEnds with ⟨_, otherPoint⟩ | ⟨loses, _⟩
      · exact isPoint.unique otherPoint
      · exact absurd loses keeps
    · rcases otherEnds with ⟨keeps, _⟩ | ⟨_, otherZeros⟩
      · exact absurd loses keeps
      · exact zeros.trans otherZeros.symm
  refine ⟨result, returned, same ▸ otherReturned, ?_, ?_⟩
  · intro keeps
    rcases ends with ⟨_, isPoint⟩ | ⟨loses, _⟩
    · exact isPoint
    · exact absurd loses keeps
  · intro loses
    rcases ends with ⟨keeps, _⟩ | ⟨_, zeros⟩
    · exact absurd loses keeps
    · exact zeros

theorem eccPointMult_initialZ_of_basePoint :
    ∃ result, eccPointMult curveSecp256r1.G [7#64] (some [5#64, 0#64, 0#64, 0#64]) 3
        curveSecp256r1 = .ok result ∧
      eccPointMult curveSecp256r1.G [7#64] none 3 curveSecp256r1 = .ok result := by
  have odd : Odd (addOrderOf basePoint) := by
    rw [addOrderOf_basePoint]
    decide
  obtain ⟨result, hidden, plain, _⟩ := @eccPointMult_initialZ basePoint _ _ _ rfl
    (by decide +kernel) odd _ represents_base [5#64, 0#64, 0#64, 0#64] rfl (by decide) (by decide)
    [7#64] 3 (by decide) (by decide)
  exact ⟨result, hidden, plain⟩

/-- What `EccPoint_mult` makes of the base point and a regularized scalar. -/
theorem eccPointMult_base {scalar : Vli 64} {k : Nat} (regular : Regularizes scalar k)
    (positive : 0 < k) (small : k < orderSecp256r1) :
    Returns (eccPointMult curveSecp256r1.G scalar none 257 curveSecp256r1) fun result =>
      (¬ LosesPoint k ∧ IsPoint result (k • basePoint)) ∨
        (LosesPoint k ∧ result = (vliClear 4, vliClear 4)) := by
  have initial : curveSecp256r1.Represents
      ((none : Option (Vli 64)).getD ((vliClear curveSecp256r1.numWords).set 0 1#64)) 1 :=
    lawful_curveSecp256r1.one
  exact eccPointMult_of_regularizes rfl (by decide +kernel) represents_base initial one_ne_zero
    addOrderOf_basePoint regular positive small

/-- `EccPoint_compute_public_key` returns the multiple of the base point for every private key, but
for three: for these it returns zeros and says so. -/
theorem eccPointComputePublicKey_spec {priv : Vli 64} (length_eq : priv.length = 4)
    (positive : 0 < Limbs.value priv) (small : Limbs.value priv < orderSecp256r1) :
    Returns (eccPointComputePublicKey priv curveSecp256r1) fun computed =>
      (computed.1 = 1 ∧ ¬ LosesPoint (Limbs.value priv) ∧
          IsPoint computed.2 (Limbs.value priv • basePoint)) ∨
        (computed.1 = 0 ∧ LosesPoint (Limbs.value priv) ∧
          computed.2 = (vliClear 4, vliClear 4)) := by
  unfold eccPointComputePublicKey
  refine (regularizeK_spec length_eq small).bind fun regularized regular => ?_
  refine (eccPointMult_base regular positive small).bind fun result ends => ?_
  rcases ends with ⟨keeps, isPoint⟩ | ⟨loses, zero⟩
  · refine Returns.ok (.inl ⟨?_, keeps, isPoint⟩)
    rw [isPoint.eccPointIsZero, if_neg Bool.false_ne_true]
  · refine Returns.ok (.inr ⟨?_, loses, zero⟩)
    rw [zero]
    rfl

/-! ## Valid points -/

theorem represents_secp256r1B : curveSecp256r1.Represents curveSecp256r1.b secp256r1B :=
  ⟨rfl, by decide, rfl⟩

theorem xSideDefault_spec {x : Vli 64} {a : curveSecp256r1.Base}
    (represents : curveSecp256r1.Represents x a) :
    Returns (xSideDefault x curveSecp256r1) fun side =>
      curveSecp256r1.Represents side (a ^ 3 + -3 * a + secp256r1B) := by
  have lawful := lawful_curveSecp256r1
  have three := lawful.constant (show (3#64).toNat < _ from lawful.three_lt)
  unfold xSideDefault
  refine (lawful.modSquareFast represents).bind fun square square_eq => ?_
  refine (lawful.modMultFast (lawful.modSub square_eq three) represents).bind
    fun product product_eq => ?_
  refine Returns.ok ((lawful.modAdd product_eq represents_secp256r1B).congr ?_)
  have cast : (((3#64).toNat : Nat) : curveSecp256r1.Base) = 3 := rfl
  rw [cast]
  ring

/-- `ecdsa_valid_point` accepts exactly the words of the points of the curve. -/
theorem ecdsaValidPoint_spec {point : EccPoint} (lengthX : point.1.length = 4)
    (lengthY : point.2.length = 4) :
    Returns (ecdsaValidPoint point curveSecp256r1) fun valid =>
      (valid = 1 ∧ ∃ P, IsPoint point P) ∨ (valid = 0 ∧ ∀ P, ¬ IsPoint point P) := by
  have lawful := lawful_curveSecp256r1
  have inRange : ∀ words : Vli 64, words.length = 4 → (vliCmpUnsafe curveSecp256r1.p words = 1 ↔
      Limbs.value words < Limbs.value curveSecp256r1.p) :=
    fun words length_eq => vliCmpUnsafe_eq_one_iff (lawful.length_p.trans length_eq.symm)
  unfold ecdsaValidPoint
  by_cases zero : eccPointIsZero point = true
  · rw [if_pos zero]
    refine Returns.ok (.inr ⟨rfl, fun P isPoint => ?_⟩)
    rw [isPoint.eccPointIsZero] at zero
    exact Bool.false_ne_true zero
  rw [if_neg zero]
  by_cases large : vliCmpUnsafe curveSecp256r1.p point.1 ≠ 1 ∨
      vliCmpUnsafe curveSecp256r1.p point.2 ≠ 1
  · rw [if_pos large]
    refine Returns.ok (.inr ⟨rfl, ?_⟩)
    rintro P ⟨x, y, _, _, represents⟩
    rcases large with largeX | largeY
    · exact largeX ((inRange _ lengthX).mpr represents.fst.small)
    · exact largeY ((inRange _ lengthY).mpr represents.snd.small)
  rw [if_neg large]
  push Not at large
  have X_eq : curveSecp256r1.Represents point.1 (Limbs.value point.1 : Nat) :=
    ⟨lengthX, (inRange _ lengthX).mp large.1, rfl⟩
  have Y_eq : curveSecp256r1.Represents point.2 (Limbs.value point.2 : Nat) :=
    ⟨lengthY, (inRange _ lengthY).mp large.2, rfl⟩
  refine (lawful.modSquareFast Y_eq).bind fun square square_eq => ?_
  refine (xSideDefault_spec X_eq).bind fun side side_eq => ?_
  have lengths := square_eq.length_eq.trans side_eq.length_eq.symm
  apply Returns.ok
  by_cases equal : vliEqual square side = true
  · rw [if_pos equal]
    have same := Limbs.eq_of_value_eq lengths ((vliEqual_eq_true_iff lengths).mp equal)
    have equation := square_eq.cast_eq.symm.trans (same ▸ side_eq.cast_eq)
    exact .inl ⟨rfl, _, _, _, nonsingular_secp256r1_iff.mpr equation, rfl, X_eq, Y_eq⟩
  · rw [if_neg equal]
    refine .inr ⟨rfl, ?_⟩
    rintro P ⟨x, y, nonsingular, _, represents⟩
    obtain rfl : (Limbs.value point.1 : curveSecp256r1.Base) = x := represents.fst.cast_eq
    obtain rfl : (Limbs.value point.2 : curveSecp256r1.Base) = y := represents.snd.cast_eq
    have equation := nonsingular_secp256r1_iff.mp nonsingular
    exact equal ((vliEqual_eq_true_iff lengths).mpr
      (congrArg Limbs.value (square_eq.unique (side_eq.congr equation.symm))))

/-! ## Keys as bytes -/

theorem length_publicKeyBytes (point : EccPoint) :
    (publicKeyBytes point curveSecp256r1).length = 64 := by
  rw [publicKeyBytes, List.length_append, length_nativeBytes, length_nativeBytes]
  rfl

/-- Words go through the bytes of a public key. -/
theorem publicKeyPoint_publicKeyBytes {point : EccPoint} (lengthX : point.1.length = 4)
    (lengthY : point.2.length = 4) :
    publicKeyPoint (publicKeyBytes point curveSecp256r1) curveSecp256r1 = point := by
  have size : curveSecp256r1.numBytes = 32 := rfl
  have fits : ∀ words : Vli 64, words.length = 4 → Limbs.value words < 2 ^ (8 * 32) := by
    intro words length_eq
    have bound := Limbs.value_lt words
    rwa [length_eq] at bound
  have front : (nativeBytes 32 point.1).length = 32 := length_nativeBytes _ _
  rw [publicKeyPoint, publicKeyBytes, size, List.take_left' front, List.drop_left' front,
    bytesNative_nativeBytes lengthX (fits _ lengthX),
    bytesNative_nativeBytes lengthY (fits _ lengthY)]

theorem IsPoint.publicKeyPoint_publicKeyBytes {point : EccPoint} {P : secp256r1.Point}
    (isPoint : IsPoint point P) :
    publicKeyPoint (publicKeyBytes point curveSecp256r1) curveSecp256r1 = point := by
  obtain ⟨x, y, _, _, represents⟩ := isPoint
  exact Freecoin.publicKeyPoint_publicKeyBytes represents.fst.length_eq represents.snd.length_eq

/-- The calls that read a public key return its point. -/
theorem readPublicKey_eq {publicKey : List UInt8} (available : 64 ≤ publicKey.length) :
    readPublicKey publicKey curveSecp256r1 = .ok (publicKeyPoint publicKey curveSecp256r1) := by
  have size : curveSecp256r1.numBytes = 32 := rfl
  have front : 32 ≤ (publicKey.take 32).length := by
    rw [List.length_take]
    omega
  have back : 32 ≤ (publicKey.drop 32).length := by
    rw [List.length_drop]
    omega
  rw [readPublicKey, publicKeyPoint, size, vliBytesToNative_eq (by decide) front,
    vliBytesToNative_eq (by decide) back]
  rfl

/-- The calls that write a public key return its bytes. -/
theorem writePublicKey_eq {X Y : Vli 64} (lengthX : X.length = 4) (lengthY : Y.length = 4) :
    writePublicKey (X, Y) curveSecp256r1 = .ok (publicKeyBytes (X, Y) curveSecp256r1) := by
  have size : curveSecp256r1.numBytes = 32 := rfl
  rw [writePublicKey, publicKeyBytes, size,
    vliNativeToBytes_eq (by decide) (by rw [lengthX]),
    vliNativeToBytes_eq (by decide) (by rw [lengthY])]
  rfl

theorem IsPoint.writePublicKey {point : EccPoint} {P : secp256r1.Point}
    (isPoint : IsPoint point P) :
    writePublicKey point curveSecp256r1 = .ok (publicKeyBytes point curveSecp256r1) := by
  obtain ⟨x, y, _, _, represents⟩ := isPoint
  exact writePublicKey_eq represents.fst.length_eq represents.snd.length_eq

/-- The test that a number is below the order. -/
theorem vliCmp_n {words : Vli 64} (length_eq : words.length = 4) :
    vliCmp curveSecp256r1.n words = .ok (vliCmpUnsafe curveSecp256r1.n words) ∧
      (vliCmpUnsafe curveSecp256r1.n words = 1 ↔ Limbs.value words < orderSecp256r1) := by
  have lengths : curveSecp256r1.n.length = words.length := length_eq.symm
  refine ⟨vliCmp_eq_vliCmpUnsafe lengths (by decide), ?_⟩
  rw [vliCmpUnsafe_eq_one_iff lengths, value_curveSecp256r1_n]

/-- The private keys that have a public key. -/
def UsableKey (k : Nat) : Prop := 0 < k ∧ k < orderSecp256r1 ∧ ¬ LosesPoint k

theorem ecdsaValidPublicKey_eq {publicKey : List UInt8} {P : secp256r1.Point}
    (available : 64 ≤ publicKey.length)
    (isPoint : IsPoint (publicKeyPoint publicKey curveSecp256r1) P) :
    ecdsaValidPublicKey publicKey curveSecp256r1 = .ok 1 := by
  obtain ⟨x, y, _, _, represents⟩ := id isPoint
  obtain ⟨valid, returned, accepts | refuses⟩ :=
    ecdsaValidPoint_spec represents.fst.length_eq represents.snd.length_eq
  · rw [ecdsaValidPublicKey, readPublicKey_eq available, Run.ok_bind, returned, accepts.1]
  · exact absurd isPoint (refuses.2 P)

theorem exists_isPoint_of_ecdsaValidPublicKey {publicKey : List UInt8}
    (length_eq : publicKey.length = 64)
    (valid : ecdsaValidPublicKey publicKey curveSecp256r1 = .ok 1) :
    ∃ P, IsPoint (publicKeyPoint publicKey curveSecp256r1) P := by
  have size : curveSecp256r1.numBytes = 32 := rfl
  have lengthX : (publicKeyPoint publicKey curveSecp256r1).1.length = 4 := by
    rw [publicKeyPoint, size]
    dsimp only
    exact (@bytesNative_spec (publicKey.take 32) 32 (by simp [length_eq])).1
  have lengthY : (publicKeyPoint publicKey curveSecp256r1).2.length = 4 := by
    rw [publicKeyPoint, size]
    dsimp only
    exact (@bytesNative_spec (publicKey.drop 32) 32 (by simp [length_eq])).1
  rw [ecdsaValidPublicKey, readPublicKey_eq length_eq.ge, Run.ok_bind] at valid
  rcases (ecdsaValidPoint_spec lengthX lengthY).of_eq_ok valid with ⟨_, isPoint⟩ | ⟨zero, _⟩
  · exact isPoint
  · exact absurd zero Nat.one_ne_zero

theorem ecdsaComputePublicKey_spec {privateKey : List UInt8} (length_eq : privateKey.length = 32) :
    Returns (ecdsaComputePublicKey privateKey curveSecp256r1) fun computed =>
      (UsableKey (bytesValue privateKey) ∧ computed.1 = 1 ∧
          ∃ publicKey, computed.2 = some publicKey ∧ publicKey.length = 64 ∧
            IsPoint (publicKeyPoint publicKey curveSecp256r1)
              (bytesValue privateKey • basePoint)) ∨
        (¬ UsableKey (bytesValue privateKey) ∧ computed = (0, none)) := by
  obtain ⟨words, value_eq⟩ := @bytesNative_spec privateKey 32 length_eq.ge
  rw [List.take_of_length_le length_eq.le] at value_eq
  have size : bitsToBytes curveSecp256r1.numNBits = 32 := rfl
  unfold ecdsaComputePublicKey
  rw [size, vliBytesToNative_eq (by decide) length_eq.ge, Run.ok_bind]
  generalize bytesNative privateKey 32 = priv at words value_eq ⊢
  by_cases zero : vliIsZero priv = true
  · rw [if_pos zero]
    refine Returns.ok (.inr ⟨?_, rfl⟩)
    rintro ⟨positive, _⟩
    rw [← value_eq, vliIsZero_eq_true_iff.mp zero] at positive
    exact Nat.lt_irrefl 0 positive
  have positive := Nat.pos_of_ne_zero (vliIsZero_eq_true_iff.not.mp zero)
  rw [if_neg zero]
  obtain ⟨compared, below⟩ := vliCmp_n words
  rw [compared, Run.ok_bind]
  by_cases large : vliCmpUnsafe curveSecp256r1.n priv ≠ 1
  · rw [if_pos large]
    refine Returns.ok (.inr ⟨?_, rfl⟩)
    rintro ⟨_, small, _⟩
    rw [← value_eq] at small
    exact large (below.mpr small)
  rw [if_neg large]
  have small := below.mp (not_not.mp large)
  refine (eccPointComputePublicKey_spec words positive small).bind fun computed ends => ?_
  rw [value_eq] at ends positive small
  rcases ends with ⟨one, keeps, isPoint⟩ | ⟨none, loses, _⟩
  · rw [one, if_neg Nat.one_ne_zero, isPoint.writePublicKey, Run.ok_bind]
    refine Returns.ok (.inl ⟨⟨positive, small, keeps⟩, rfl, _, rfl, ?_, ?_⟩)
    · exact length_publicKeyBytes _
    · rwa [isPoint.publicKeyPoint_publicKeyBytes]
  · rw [none, if_pos rfl]
    exact Returns.ok (.inr ⟨fun usable => usable.2.2 loses, rfl⟩)

/-- `ecdsa_compute_public_key` succeeds exactly for the private keys between zero and the order, but
for three.  The public key that it writes holds the multiple of the base point, and
`ecdsa_valid_public_key` accepts it. -/
theorem ecdsaComputePublicKey_iff {privateKey : List UInt8} (length_eq : privateKey.length = 32) :
    (UsableKey (bytesValue privateKey) ↔
        ∃ publicKey, ecdsaComputePublicKey privateKey curveSecp256r1 = .ok (1, some publicKey)) ∧
      (¬ UsableKey (bytesValue privateKey) ↔
        ecdsaComputePublicKey privateKey curveSecp256r1 = .ok (0, none)) ∧
      ∀ publicKey, ecdsaComputePublicKey privateKey curveSecp256r1 = .ok (1, some publicKey) →
        IsPoint (publicKeyPoint publicKey curveSecp256r1) (bytesValue privateKey • basePoint) ∧
          ecdsaValidPublicKey publicKey curveSecp256r1 = .ok 1 := by
  obtain ⟨⟨code, key⟩, returned, ends⟩ := ecdsaComputePublicKey_spec length_eq
  rcases ends with ⟨usable, one, publicKey, some_eq, keyLength, isPoint⟩ | ⟨unusable, none⟩
  · obtain rfl : code = 1 := one
    obtain rfl : key = some publicKey := some_eq
    rw [returned]
    refine ⟨⟨fun _ => ⟨publicKey, rfl⟩, fun _ => usable⟩, ?_, ?_⟩
    · simp [usable]
    · intro other same
      obtain rfl : publicKey = other := by simpa using same
      exact ⟨isPoint, ecdsaValidPublicKey_eq keyLength.ge isPoint⟩
  · rw [returned, none]
    simp [unusable]

theorem ecdsaComputePublicKey_iff_of_two_of_one :
    (∃ publicKey, ecdsaComputePublicKey (List.replicate 31 0 ++ [2]) curveSecp256r1 =
        .ok (1, some publicKey)) ∧
      ecdsaComputePublicKey (List.replicate 31 0 ++ [1]) curveSecp256r1 = .ok (0, none) := by
  have usable : UsableKey (bytesValue (List.replicate 31 0 ++ [2])) := by
    unfold UsableKey LosesPoint
    decide
  have lost : ¬ UsableKey (bytesValue (List.replicate 31 0 ++ [1])) := by
    unfold UsableKey LosesPoint
    decide
  exact ⟨(ecdsaComputePublicKey_iff rfl).1.mp usable, (ecdsaComputePublicKey_iff rfl).2.1.mp lost⟩

/-- The public key of the private key two. -/
def publicKeyOfTwo : List UInt8 :=
  [124, 242, 123, 24, 141, 3, 79, 126, 138, 82, 56, 3, 4, 181, 26, 195, 192, 137, 105, 226, 119,
   242, 27, 53, 166, 11, 72, 252, 71, 102, 153, 120, 7, 119, 85, 16, 219, 142, 208, 64, 41, 61,
   154, 198, 159, 116, 48, 219, 186, 125, 173, 230, 60, 233, 130, 41, 158, 4, 183, 157, 34, 120,
   115, 209]

end Freecoin
