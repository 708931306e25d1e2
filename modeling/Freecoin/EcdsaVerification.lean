import Freecoin.EcdsaSigning
import Freecoin.Foundation.CoZShamir

/-!
# Verification

`ecdsa_verify` adds the multiples of the base point and of the public key with one loop over the
bits of both scalars.  An addition for which the formulas fail leaves a denominator of zero, and the
signature is refused; so whatever is accepted satisfies the equation of the signature.
-/

namespace Freecoin

open Foundation

/-- `points` of `ecdsa_verify`, for two bits. -/
def verifyPoints (pub sum : EccPoint) (curve : EcdsaCurve) (u1 u2 : Bool) : Option EccPoint :=
  if u2 then some (if u1 then sum else pub) else if u1 then some curve.G else none

/-- The body of the loop of `ecdsa_verify`, on the accumulator and its denominator. -/
def verifyStep (point : Option EccPoint) (R : EccPoint) (z : Vli 64) (curve : EcdsaCurve) :
    Run (EccPoint × Vli 64) := do
  let doubled ← doubleJacobianDefault R z curve
  match point with
  | none => .ok doubled
  | some point => do
      let t ← applyZ point doubled.2 curve
      let tz := vliModSub doubled.1.1 t.1 curve.p
      let added ← xycZAdd t doubled.1 curve
      let z ← vliModMultFast doubled.2 tz curve
      .ok (added.2, z)

/-- The loop of `ecdsa_verify`, over the bits below `i`. -/
def verifyLoop (points : Bool → Bool → Option EccPoint) (u1 u2 : Vli 64) (curve : EcdsaCurve) :
    (i : Nat) → EccPoint → Vli 64 → Run (EccPoint × Vli 64)
  | 0, R, z => .ok (R, z)
  | i + 1, R, z => do
      let bit1 ← vliTestBit u1 i
      let bit2 ← vliTestBit u2 i
      let next ← verifyStep (points bit1 bit2) R z curve
      verifyLoop points u1 u2 curve i next.1 next.2

/-- The sum of the base point and the public key. -/
def verifySum (pub : EccPoint) (curve : EcdsaCurve) : Run EccPoint := do
  let z := vliModSub pub.1 curve.G.1 curve.p
  let added ← xycZAdd curve.G pub curve
  let z ← vliModInv z curve.p
  applyZ added.2 z curve

/-- The sum of the two multiples, in affine coordinates. -/
def verifyMultiples (points : Bool → Bool → Option EccPoint) (u1 u2 : Vli 64)
    (curve : EcdsaCurve) : Run EccPoint :=
  let numBits := max (vliNumBits u1) (vliNumBits u2)
  if numBits = 0 then .error .outOfBounds
  else do
    let bit1 ← vliTestBit u1 (numBits - 1)
    let bit2 ← vliTestBit u2 (numBits - 1)
    match points bit1 bit2 with
    | none => .error .nullPointer
    | some point =>
        let one := (vliClear curve.numWords).set 0 1#64
        let last ← verifyLoop points u1 u2 curve (numBits - 1) point one
        let z ← vliModInv last.2 curve.p
        applyZ last.1 z curve

/-- `v` of `ecdsa_verify`: an abscissa reduced by the order. -/
def verifyAbscissa (rx : Vli 64) (curve : EcdsaCurve) : Vli 64 :=
  if vliCmpUnsafe curve.n rx ≠ 1 then (vliSub rx curve.n).1 else rx

/-- `ecdsa_verify`. -/
def ecdsaVerify (publicKey messageHash : List UInt8) (hashSize : Nat) (signature : List UInt8)
    (curve : EcdsaCurve) : Run Nat := do
  let pub ← readPublicKey publicKey curve
  let r ← vliBytesToNative signature curve.numBytes
  let s ← vliBytesToNative (signature.drop curve.numBytes) curve.numBytes
  if vliIsZero r || vliIsZero s then .ok 0
  else if vliCmpUnsafe curve.n r ≠ 1 ∨ vliCmpUnsafe curve.n s ≠ 1 then .ok 0
  else
    let z ← vliModInv s curve.n
    let e ← bits2int messageHash hashSize curve
    let u1 ← vliModMult e z curve.n
    let u2 ← vliModMult r z curve.n
    let sum ← verifySum pub curve
    let R ← verifyMultiples (verifyPoints pub sum curve) u1 u2 curve
    .ok (if vliEqual (verifyAbscissa R.1 curve) r then 1 else 0)

/-! ## The loop -/

namespace EcdsaCurve

variable {curve : EcdsaCurve} [prime : Fact (Nat.Prime (Limbs.value curve.p))]

/-- The words of an accumulator and its denominator. -/
structure RepresentsJacobian (curve : EcdsaCurve) (R : EccPoint) (z : Vli 64)
    (acc : CoZ.Jacobian curve.Base) : Prop where
  point : curve.RepresentsPoint R acc.2
  denominator : curve.Represents z acc.1

variable (lawful : curve.Lawful)

include lawful

theorem Lawful.doubleJacobian {R : EccPoint} {z : Vli 64} {acc : CoZ.Jacobian curve.Base}
    (represents : curve.RepresentsJacobian R z acc) :
    Returns (Freecoin.doubleJacobianDefault R z curve) fun doubled =>
      curve.RepresentsJacobian doubled.1 doubled.2 (CoZ.jacobianDouble (-3) acc) := by
  by_cases zero : acc.1 = 0
  · have isZero : vliIsZero z = true :=
      vliIsZero_eq_true_iff.mpr (represents.denominator.value_eq_zero_iff.mpr zero)
    rw [CoZ.jacobianDouble, if_pos zero, Freecoin.doubleJacobianDefault, if_pos isZero]
    exact Returns.ok represents
  · rw [CoZ.jacobianDouble, if_neg zero]
    refine (lawful.doubleJacobianDefault represents.point represents.denominator zero).mono ?_
    rintro doubled ⟨point, denominator⟩
    exact ⟨point, denominator⟩

theorem Lawful.verifyStep {R : EccPoint} {z : Vli 64} {acc : CoZ.Jacobian curve.Base}
    {point : Option EccPoint} {t : Option (curve.Base × curve.Base)}
    (represents : curve.RepresentsJacobian R z acc)
    (entry : Option.Rel curve.RepresentsPoint point t) :
    Returns (Freecoin.verifyStep point R z curve) fun next =>
      curve.RepresentsJacobian next.1 next.2 (CoZ.shamirStep (-3) t acc) := by
  unfold Freecoin.verifyStep
  refine (lawful.doubleJacobian represents).bind fun doubled doubled_eq => ?_
  cases entry with
  | none => exact Returns.ok doubled_eq
  | some point_eq =>
      refine (lawful.applyZ point_eq doubled_eq.denominator).bind fun scaled scaled_eq => ?_
      have gap := lawful.modSub doubled_eq.point.fst scaled_eq.fst
      refine (lawful.xycZAdd scaled_eq doubled_eq.point).bind fun added added_eq => ?_
      refine (lawful.modMultFast doubled_eq.denominator gap).bind fun next next_eq => ?_
      exact Returns.ok ⟨added_eq.snd, next_eq⟩

section Runs

variable {b : curve.Base} {P Q : (CoZ.shortCurve (-3) b).Point}
  {points : Bool → Bool → Option EccPoint}
  {table : Bool → Bool → Option (curve.Base × curve.Base)}
  (holds : CoZ.Table P Q table)
  (entries : ∀ u v, Option.Rel curve.RepresentsPoint (points u v) (table u v))
  {u1 u2 : Vli 64} (lengths : u1.length = u2.length)

include holds entries lengths

theorem Lawful.verifyLoop {top i : Nat} {R : EccPoint} {z : Vli 64}
    {acc : CoZ.Jacobian curve.Base} (represents : curve.RepresentsJacobian R z acc)
    (inside : top ≤ 64 * u1.length) (below : i ≤ top)
    (accumulates : CoZ.Accumulates P Q (Limbs.value u1) (Limbs.value u2) top i acc) :
    Returns (Freecoin.verifyLoop points u1 u2 curve i R z) fun last =>
      ∃ acc', curve.RepresentsJacobian last.1 last.2 acc' ∧
        CoZ.Accumulates P Q (Limbs.value u1) (Limbs.value u2) top 0 acc' := by
  induction i generalizing R z acc with
  | zero => exact Returns.ok ⟨acc, represents, accumulates⟩
  | succ i ih =>
      have next := accumulates.step lawful.two_ne_zero holds below
      rw [Freecoin.verifyLoop, vliTestBit_eq (by decide) (by omega), Run.ok_bind,
        vliTestBit_eq (by decide) (by omega), Run.ok_bind]
      refine (lawful.verifyStep represents (entries _ _)).bind fun step step_eq => ?_
      exact ih step_eq (Nat.le_of_succ_le below) next

/-- The sum of the two multiples, in affine coordinates, or zeros when it has been lost. -/
theorem Lawful.verifyMultiples (positive : 0 < Limbs.value u1 ∨ 0 < Limbs.value u2) :
    Returns (Freecoin.verifyMultiples points u1 u2 curve) fun R =>
      ∃ r, curve.RepresentsPoint R r ∧
        ((¬ CoZ.LosesSum P Q (Limbs.value u1) (Limbs.value u2) ∧
            CoZ.Scaled 1 r (Limbs.value u1 • P + Limbs.value u2 • Q)) ∨
          (CoZ.LosesSum P Q (Limbs.value u1) (Limbs.value u2) ∧ r = 0)) := by
  have some_bit : max (vliNumBits u1) (vliNumBits u2) ≠ 0 := by
    rw [vliNumBits_eq, vliNumBits_eq]
    rcases positive with first | second
    · exact (lt_max_of_lt_left (Nat.size_pos.mpr first)).ne'
    · exact (lt_max_of_lt_right (Nat.size_pos.mpr second)).ne'
  have top_eq : max (vliNumBits u1) (vliNumBits u2) - 1 =
      CoZ.highestBit (Limbs.value u1) (Limbs.value u2) := by
    rw [vliNumBits_eq, vliNumBits_eq, CoZ.highestBit]
  have bits := CoZ.testBit_highestBit positive
  rw [← holds.isSome_eq, Option.isSome_iff_exists] at bits
  obtain ⟨t, table_eq⟩ := bits
  have entry := entries
    ((Limbs.value u1).testBit (CoZ.highestBit (Limbs.value u1) (Limbs.value u2)))
    ((Limbs.value u2).testBit (CoZ.highestBit (Limbs.value u1) (Limbs.value u2)))
  have inside : CoZ.highestBit (Limbs.value u1) (Limbs.value u2) < 64 * u1.length := by
    have first := Nat.size_le.mpr (Limbs.value_lt u1)
    have second := Nat.size_le.mpr (Limbs.value_lt u2)
    rw [vliNumBits_eq, vliNumBits_eq] at some_bit top_eq
    omega
  unfold Freecoin.verifyMultiples
  dsimp only
  rw [if_neg some_bit, top_eq, vliTestBit_eq (by decide) inside, Run.ok_bind,
    vliTestBit_eq (by decide) (lengths ▸ inside), Run.ok_bind]
  rw [table_eq] at entry
  generalize points _ _ = first at entry ⊢
  cases entry with
  | @some point _ represents =>
      have start : curve.RepresentsJacobian point ((vliClear curve.numWords).set 0 1#64) (1, t) :=
        ⟨represents, lawful.one⟩
      refine (lawful.verifyLoop holds entries lengths start inside.le le_rfl
        (.start holds table_eq)).bind fun last ends => ?_
      obtain ⟨acc, last_eq, accumulates⟩ := ends
      refine (lawful.modInv last_eq.denominator).bind fun z z_eq => ?_
      refine (lawful.applyZ last_eq.point z_eq).mono fun R R_eq => ?_
      exact ⟨_, R_eq, accumulates.last⟩

end Runs

/-! ## The table -/

variable {b : curve.Base} {P Q : (CoZ.shortCurve (-3) b).Point} {pub : EccPoint}
  {g q : curve.Base × curve.Base} (base : curve.RepresentsPoint curve.G g)
  (key : curve.RepresentsPoint pub q) (first : CoZ.Scaled 1 g P) (second : CoZ.Scaled 1 q Q)

include base key first second

theorem Lawful.verifySum (apart : g.1 ≠ q.1) :
    Returns (Freecoin.verifySum pub curve) fun sum =>
      ∃ t, curve.RepresentsPoint sum t ∧ CoZ.Scaled 1 t (P + Q) := by
  have gap := lawful.modSub key.fst base.fst
  have nonzero : q.1 - g.1 ≠ 0 := sub_ne_zero.mpr (Ne.symm apart)
  have sum := (first.add second apart).2.rescale (inv_ne_zero nonzero)
  rw [one_mul, mul_inv_cancel₀ nonzero] at sum
  unfold Freecoin.verifySum
  refine (lawful.xycZAdd base key).bind fun added added_eq => ?_
  refine (lawful.modInv gap).bind fun z z_eq => ?_
  refine (lawful.applyZ added_eq.snd z_eq).mono fun point point_eq => ?_
  exact ⟨_, point_eq, sum⟩

omit prime lawful first second in
theorem verifyPoints_rel {sum : EccPoint} {t : curve.Base × curve.Base}
    (represents : curve.RepresentsPoint sum t) (u v : Bool) :
    Option.Rel curve.RepresentsPoint (verifyPoints pub sum curve u v)
      (CoZ.pairTable g q t u v) := by
  cases u <;> cases v
  · exact .none
  · exact .some key
  · exact .some base
  · exact .some represents

end EcdsaCurve

/-! ## Accepted signatures -/

/-- What a signature `r`, `s` of the number `e` has to satisfy for the public key `Q`. -/
structure Verifies (Q : secp256r1.Point) (e r s : Nat) : Prop where
  r_pos : 0 < r
  r_small : r < orderSecp256r1
  s_pos : 0 < s
  s_small : s < orderSecp256r1
  sum : ∃ x y, ∃ nonsingular : secp256r1.Nonsingular x y,
    ((e : Scalar) / s).val • basePoint + ((r : Scalar) / s).val • Q = .some x y nonsingular ∧
      x.val % orderSecp256r1 = r

/-- The loop of `ecdsa_verify` comes to an addition or a doubling for which its formulas fail. -/
def LosesSignature (Q : secp256r1.Point) (e r s : Nat) : Prop :=
  CoZ.LosesSum basePoint Q ((e : Scalar) / s).val ((r : Scalar) / s).val

theorem value_verifyAbscissa {rx : Vli 64} {x : curveSecp256r1.Base}
    (represents : curveSecp256r1.Represents rx x) :
    (verifyAbscissa rx curveSecp256r1).length = 4 ∧
      Limbs.value (verifyAbscissa rx curveSecp256r1) = x.val % orderSecp256r1 := by
  have lengths : rx.length = curveSecp256r1.n.length := represents.length_eq
  have order := value_curveSecp256r1_n
  have small := represents.small
  have twice : Limbs.value curveSecp256r1.p < 2 * orderSecp256r1 := by decide
  have inside := vliCmpUnsafe_eq_one_iff lengths.symm
  rw [order] at inside
  rw [← represents.val_eq, verifyAbscissa]
  by_cases below : vliCmpUnsafe curveSecp256r1.n rx = 1
  · rw [if_neg (not_not.mpr below), Nat.mod_eq_of_lt (inside.mp below)]
    exact ⟨represents.length_eq, rfl⟩
  · have above : orderSecp256r1 ≤ Limbs.value rx := Nat.le_of_not_lt (inside.not.mp below)
    rw [if_pos below, value_vliSub_of_le lengths (order ▸ above), order, Nat.mod_eq_sub_mod above,
      Nat.mod_eq_of_lt (by omega)]
    exact ⟨(length_vliSub lengths).trans represents.length_eq, rfl⟩

/-- The equation of a signature, for the coordinates that the loop leaves. -/
theorem sum_eq_iff {a b : Scalar} {Q : secp256r1.Point} {r : Nat}
    {c : curveSecp256r1.Base × curveSecp256r1.Base}
    (scaled : CoZ.Scaled 1 c (a.val • basePoint + b.val • Q)) :
    (∃ x y, ∃ nonsingular : secp256r1.Nonsingular x y,
        a.val • basePoint + b.val • Q = .some x y nonsingular ∧ x.val % orderSecp256r1 = r) ↔
      c.1.val % orderSecp256r1 = r := by
  obtain ⟨nonsingular, point_eq⟩ := scaled.exists_eq_some
  rw [point_eq]
  constructor
  · rintro ⟨x, y, _, same, remainder⟩
    obtain ⟨rfl, _⟩ := WeierstrassCurve.Affine.Point.some.inj same
    exact remainder
  · intro remainder
    exact ⟨c.1, c.2, nonsingular, rfl, remainder⟩

/-- The loop has summed the two multiples into `R`, or has lost the sum. -/
def SumsInto (Q : secp256r1.Point) (u1 u2 : Scalar) (R : EccPoint) : Prop :=
  ∃ c, curveSecp256r1.RepresentsPoint R c ∧
    ((¬ CoZ.LosesSum basePoint Q u1.val u2.val ∧
        CoZ.Scaled 1 c (u1.val • basePoint + u2.val • Q)) ∨
      (CoZ.LosesSum basePoint Q u1.val u2.val ∧ c = 0))

/-- For a key other than the base point and its opposite the sum of the two is the last entry of the
table, and the loop over the table sums the multiples. -/
theorem sumsInto_spec {pub : EccPoint} {Q : secp256r1.Point} (isPoint : IsPoint pub Q)
    (apart : Q ≠ basePoint) (opposite : Q ≠ -basePoint) {words1 words2 : Vli 64} {u1 u2 : Scalar}
    (represents1 : RepresentsScalar words1 u1) (represents2 : RepresentsScalar words2 u2)
    (nonzero : u2 ≠ 0) :
    Returns (verifySum pub curveSecp256r1) fun sum =>
      Returns (verifyMultiples (verifyPoints pub sum curveSecp256r1) words1 words2 curveSecp256r1)
        (SumsInto Q u1 u2) := by
  obtain ⟨x, y, nonsingular, Q_eq, key⟩ := isPoint
  have first : CoZ.Scaled 1 baseCoordinates basePoint := CoZ.Scaled.of_some _
  have second : CoZ.Scaled 1 (x, y) Q := Q_eq ▸ CoZ.Scaled.of_some nonsingular
  have abscissa : baseCoordinates.1 ≠ x := by
    intro same
    rcases (first.fst_eq_iff second).mp same with equal | equal
    · exact apart equal.symm
    · exact opposite (by rw [equal, neg_neg])
  have lawful := lawful_curveSecp256r1
  refine (lawful.verifySum represents_base key first second abscissa).mono ?_
  rintro sum ⟨t, sum_eq, both⟩
  have holds := CoZ.table_pairTable first second both
  have entries := EcdsaCurve.verifyPoints_rel represents_base key sum_eq
  have positive := Nat.pos_of_ne_zero (represents2.value_eq_zero_iff.not.mpr nonzero)
  have lengths := represents1.length_eq.trans represents2.length_eq.symm
  refine (lawful.verifyMultiples holds entries lengths (.inr positive)).mono fun R ends => ?_
  rw [represents1.val_eq, represents2.val_eq] at ends
  exact ends

/-- The last comparison finds out whether the sum was kept and has the abscissa `r`. -/
theorem SumsInto.vliEqual_iff {Q : secp256r1.Point} {u1 u2 : Scalar} {R : EccPoint}
    (sums : SumsInto Q u1 u2 R) {r : Vli 64} (length_eq : r.length = 4)
    (positive : 0 < Limbs.value r) :
    vliEqual (verifyAbscissa R.1 curveSecp256r1) r = true ↔
      ¬ CoZ.LosesSum basePoint Q u1.val u2.val ∧
        ∃ x y, ∃ nonsingular : secp256r1.Nonsingular x y,
          u1.val • basePoint + u2.val • Q = .some x y nonsingular ∧
            x.val % orderSecp256r1 = Limbs.value r := by
  obtain ⟨c, R_eq, ends⟩ := sums
  obtain ⟨length_v, value_v⟩ := value_verifyAbscissa R_eq.fst
  rw [vliEqual_eq_true_iff (length_v.trans length_eq.symm), value_v]
  rcases ends with ⟨keeps, scaled⟩ | ⟨loses, lost⟩
  · rw [sum_eq_iff scaled, and_iff_right keeps]
  · rw [lost]
    exact iff_of_false positive.ne fun kept => kept.1 loses

section Signatures

variable {publicKey messageHash signature : List UInt8} {hashSize : Nat} {Q : secp256r1.Point}
  (isPoint : IsPoint (publicKeyPoint publicKey curveSecp256r1) Q) (apart : Q ≠ basePoint)
  (opposite : Q ≠ -basePoint) (available : hashSize ≤ messageHash.length)
  (length_le : 64 ≤ signature.length) (publicLength : 64 ≤ publicKey.length)

include isPoint apart opposite available length_le publicLength

/-- `ecdsa_verify` accepts the signatures that verify and for which its formulas do not fail. -/
theorem ecdsaVerify_spec :
    Returns (ecdsaVerify publicKey messageHash hashSize signature curveSecp256r1) fun code =>
      (code = 1 ∧ Verifies Q (hashValue messageHash hashSize) (signatureR signature)
            (signatureS signature) ∧
          ¬ LosesSignature Q (hashValue messageHash hashSize) (signatureR signature)
            (signatureS signature)) ∨
        (code = 0 ∧ (¬ Verifies Q (hashValue messageHash hashSize) (signatureR signature)
              (signatureS signature) ∨
            LosesSignature Q (hashValue messageHash hashSize) (signatureR signature)
              (signatureS signature))) := by
  have front : 32 ≤ signature.length := by omega
  have back : 32 ≤ (signature.drop 32).length := by
    rw [List.length_drop]
    omega
  obtain ⟨rWords, r_eq⟩ := bytesNative_spec front
  obtain ⟨sWords, s_eq⟩ := bytesNative_spec back
  have size : curveSecp256r1.numBytes = 32 := rfl
  rw [← signatureR] at r_eq
  rw [← signatureS] at s_eq
  rw [ecdsaVerify, size, readPublicKey_eq publicLength, vliBytesToNative_eq (by decide) front,
    vliBytesToNative_eq (by decide) back]
  simp only [Run.ok_bind]
  generalize bytesNative signature 32 = r at rWords r_eq ⊢
  generalize bytesNative (signature.drop 32) 32 = s at sWords s_eq ⊢
  generalize signatureR signature = rValue at r_eq ⊢
  generalize signatureS signature = sValue at s_eq ⊢
  subst r_eq s_eq
  by_cases zero : (vliIsZero r || vliIsZero s) = true
  · rw [if_pos zero]
    refine Returns.ok (.inr ⟨rfl, .inl fun verifies => ?_⟩)
    rw [Bool.or_eq_true, vliIsZero_eq_true_iff, vliIsZero_eq_true_iff] at zero
    rcases zero with none | none
    · exact verifies.r_pos.ne' none
    · exact verifies.s_pos.ne' none
  rw [if_neg zero]
  rw [Bool.not_eq_true, Bool.or_eq_false_iff, vliIsZero_eq_false_iff,
    vliIsZero_eq_false_iff] at zero
  obtain ⟨rPos, sPos⟩ := zero
  have rInside := vliCmpUnsafe_eq_one_iff (show curveSecp256r1.n.length = r.length from rWords.symm)
  have sInside := vliCmpUnsafe_eq_one_iff (show curveSecp256r1.n.length = s.length from sWords.symm)
  rw [value_curveSecp256r1_n] at rInside sInside
  by_cases large : vliCmpUnsafe curveSecp256r1.n r ≠ 1 ∨ vliCmpUnsafe curveSecp256r1.n s ≠ 1
  · rw [if_pos large]
    refine Returns.ok (.inr ⟨rfl, .inl fun verifies => ?_⟩)
    rcases large with largeR | largeS
    · exact largeR (rInside.mpr verifies.r_small)
    · exact largeS (sInside.mpr verifies.s_small)
  rw [if_neg large]
  push Not at large
  have rSmall := rInside.mp large.1
  have sScalar : IsScalar s := ⟨sWords, sPos, sInside.mp large.2⟩
  refine (vliModInv_n sScalar.represents).bind fun z z_eq => ?_
  refine (bits2int_spec available).bind fun e e_spec => ?_
  obtain ⟨hashWords, hash_eq⟩ := e_spec
  refine (vliModMult_n hashWords z_eq.length_eq).bind fun u1 u1_eq => ?_
  refine (vliModMult_n rWords z_eq.length_eq).bind fun u2 u2_eq => ?_
  rw [hash_eq, z_eq.cast_eq, ← div_eq_mul_inv] at u1_eq
  rw [z_eq.cast_eq, ← div_eq_mul_inv] at u2_eq
  have nonzero : (Limbs.value r : Scalar) / (Limbs.value s : Scalar) ≠ 0 :=
    div_ne_zero (IsScalar.cast_ne_zero ⟨rWords, rPos, rSmall⟩) sScalar.cast_ne_zero
  refine (sumsInto_spec isPoint apart opposite u1_eq u2_eq nonzero).bind fun sum multiples => ?_
  refine multiples.bind fun R sums => Returns.ok ?_
  have verdict := sums.vliEqual_iff rWords rPos
  by_cases same : vliEqual (verifyAbscissa R.1 curveSecp256r1) r = true
  · rw [if_pos same]
    obtain ⟨keeps, sum⟩ := verdict.mp same
    exact .inl ⟨rfl, ⟨rPos, rSmall, sPos, sScalar.small, sum⟩, keeps⟩
  · rw [if_neg same]
    refine .inr ⟨rfl, not_and_or.mp ?_ |>.imp_right not_not.mp⟩
    rintro ⟨verifies, keeps⟩
    exact same (verdict.mpr ⟨keeps, verifies.sum⟩)

end Signatures

/-- For a public key that `ecdsa_valid_public_key` accepts, other than the base point and its
opposite, `ecdsa_verify` returns `1` exactly for the signatures that verify and that it does not
lose, and `0` for all others. -/
theorem ecdsaVerify_iff {publicKey messageHash signature : List UInt8} {hashSize : Nat}
    (publicLength : publicKey.length = 64)
    (valid : ecdsaValidPublicKey publicKey curveSecp256r1 = .ok 1)
    (available : hashSize ≤ messageHash.length) (length_eq : signature.length = 64) :
    ∃ Q, IsPoint (publicKeyPoint publicKey curveSecp256r1) Q ∧
      (Q ≠ basePoint → Q ≠ -basePoint →
        (ecdsaVerify publicKey messageHash hashSize signature curveSecp256r1 = .ok 1 ↔
          Verifies Q (hashValue messageHash hashSize) (signatureR signature)
              (signatureS signature) ∧
            ¬ LosesSignature Q (hashValue messageHash hashSize) (signatureR signature)
              (signatureS signature)) ∧
        (ecdsaVerify publicKey messageHash hashSize signature curveSecp256r1 = .ok 1 ∨
          ecdsaVerify publicKey messageHash hashSize signature curveSecp256r1 = .ok 0)) := by
  obtain ⟨Q, isPoint⟩ := exists_isPoint_of_ecdsaValidPublicKey publicLength valid
  refine ⟨Q, isPoint, fun apart opposite => ?_⟩
  obtain ⟨code, returned, ⟨rfl, verifies, keeps⟩ | ⟨rfl, refused⟩⟩ :=
    ecdsaVerify_spec isPoint apart opposite available length_eq.ge publicLength.ge
  · rw [returned]
    exact ⟨iff_of_true rfl ⟨verifies, keeps⟩, .inl rfl⟩
  · rw [returned]
    refine ⟨iff_of_false (by simp) ?_, .inr rfl⟩
    rintro ⟨verifies, keeps⟩
    exact refused.elim (fun refuses => refuses verifies) keeps

theorem ecdsaVerify_iff_of_publicKeyOfTwo :
    ∃ Q, IsPoint (publicKeyPoint publicKeyOfTwo curveSecp256r1) Q ∧
      (ecdsaVerify publicKeyOfTwo [3] 1 (List.replicate 64 1) curveSecp256r1 = .ok 1 ∨
        ecdsaVerify publicKeyOfTwo [3] 1 (List.replicate 64 1) curveSecp256r1 = .ok 0) := by
  obtain ⟨Q, isPoint, verdict⟩ := @ecdsaVerify_iff publicKeyOfTwo [3] (List.replicate 64 1) 1 rfl
    (by decide +kernel) le_rfl rfl
  obtain ⟨apart, opposite⟩ := isPoint.apart (by decide +kernel)
  exact ⟨Q, isPoint, (verdict apart opposite).2⟩

end Freecoin
