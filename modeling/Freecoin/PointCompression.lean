import Freecoin.PublicKeys
import Mathlib.NumberTheory.LegendreSymbol.Basic

/-!
# Compressed points

A compressed public key is the abscissa and the lowest bit of the ordinate.  The ordinate is found
again as a square root, a power of its square, or as the opposite of that root.
-/

namespace Freecoin

open Foundation

/-! ## Compression -/

/-- The loop of `mod_sqrt_default`, over the bits `count + 1` to `2` of `p1`. -/
def modSqrtLoop (a p1 : Vli 64) (curve : EcdsaCurve) : (count : Nat) → (result : Vli 64) →
    Run (Vli 64)
  | 0, result => .ok result
  | count + 1, result => do
      let square ← vliModSquareFast result curve
      let bit ← vliTestBit p1 (count + 2)
      let next ← if bit then vliModMultFast square a curve else .ok square
      modSqrtLoop a p1 curve count next

/-- `mod_sqrt_default`. -/
def modSqrtDefault (a : Vli 64) (curve : EcdsaCurve) : Run (Vli 64) :=
  let one := (vliClear curve.numWords).set 0 1#64
  let p1 := (vliAdd curve.p one).1
  modSqrtLoop a p1 curve (vliNumBits p1 - 2) one

/-- `ecdsa_compress`. -/
def ecdsaCompress (publicKey : List UInt8) (curve : EcdsaCurve) : List UInt8 :=
  (2 + (publicKey.getD (2 * curve.numBytes - 1) 0 &&& 1)) :: publicKey.take curve.numBytes

/-- The choice between the two square roots in `ecdsa_decompress`. -/
def decompressOrdinate (tag : UInt8) (y : Vli 64) (curve : EcdsaCurve) : Vli 64 :=
  if y.getD 0 0#64 &&& 1#64 ≠ tag.toBitVec.setWidth 64 &&& 1#64 then (vliSub curve.p y).1 else y

/-- `ecdsa_decompress`. -/
def ecdsaDecompress (compressed : List UInt8) (curve : EcdsaCurve) : Run (List UInt8) := do
  let x ← vliBytesToNative (compressed.drop 1) curve.numBytes
  let side ← xSideDefault x curve
  let root ← modSqrtDefault side curve
  let y := decompressOrdinate (compressed.getD 0 0) root curve
  writePublicKey (x, y) curve

/-! ## Square roots -/

/-- For a prime that leaves the remainder three by four, a power of a square is a root of it. -/
theorem sq_pow_quarter {p : Nat} [Fact p.Prime] (remainder : p % 4 = 3) (y : ZMod p) :
    (y ^ 2) ^ ((p + 1) / 4) = y ∨ (y ^ 2) ^ ((p + 1) / 4) = -y := by
  have exponent : 2 * ((p + 1) / 4) = p / 2 + 1 := by omega
  rw [← pow_mul, exponent, pow_succ]
  by_cases zero : y = 0
  · exact .inl (by rw [zero, mul_zero])
  · rcases ZMod.pow_div_two_eq_neg_one_or_one p zero with one | opposite
    · exact .inl (by rw [one, one_mul])
    · exact .inr (by rw [opposite, neg_one_mul])

namespace EcdsaCurve.Lawful

variable {curve : EcdsaCurve} [prime : Fact (Nat.Prime (Limbs.value curve.p))]
  (lawful : curve.Lawful) {words p1 : Vli 64} {a : curve.Base}
  (represents : curve.Represents words a)

include lawful represents

/-- Square and multiply: the result is the power by the bits that have been read. -/
theorem modSqrtLoop {count : Nat} {result : Vli 64} (inside : count + 2 ≤ 64 * p1.length)
    (power : curve.Represents result (a ^ (Limbs.value p1 / 2 ^ (count + 2)))) :
    Returns (Freecoin.modSqrtLoop words p1 curve count result) fun root =>
      curve.Represents root (a ^ (Limbs.value p1 / 2 ^ 2)) := by
  induction count generalizing result with
  | zero => exact Returns.ok power
  | succ count ih =>
      have bits := CoZ.div_two_pow_eq (Limbs.value p1) (count + 2)
      rw [Freecoin.modSqrtLoop]
      refine (lawful.modSquareFast power).bind fun square square_eq => ?_
      rw [← pow_mul, mul_comm] at square_eq
      rw [vliTestBit_eq (by decide) (by omega), Run.ok_bind]
      cases bit : (Limbs.value p1).testBit (count + 2) with
      | true =>
          rw [if_pos rfl]
          rw [bit, Bool.toNat_true] at bits
          refine (lawful.modMultFast square_eq represents).bind fun next next_eq => ?_
          exact ih (by omega) (next_eq.congr (by rw [← pow_succ, ← bits, mul_comm]))
      | false =>
          rw [if_neg Bool.false_ne_true]
          rw [bit, Bool.toNat_false, add_zero] at bits
          exact ih (by omega) (square_eq.congr (by rw [← bits, mul_comm]))

end EcdsaCurve.Lawful

theorem value_p1 :
    Limbs.value (vliAdd curveSecp256r1.p ((vliClear curveSecp256r1.numWords).set 0 1#64)).1 =
      Limbs.value curveSecp256r1.p + 1 := by
  decide

/-- `mod_sqrt_default` computes a power. -/
theorem modSqrtDefault_power {words : Vli 64} {a : curveSecp256r1.Base}
    (represents : curveSecp256r1.Represents words a) :
    Returns (modSqrtDefault words curveSecp256r1) fun root =>
      curveSecp256r1.Represents root (a ^ ((Limbs.value curveSecp256r1.p + 1) / 4)) := by
  have start : curveSecp256r1.Represents ((vliClear curveSecp256r1.numWords).set 0 1#64)
      (a ^ (Limbs.value (vliAdd curveSecp256r1.p
        ((vliClear curveSecp256r1.numWords).set 0 1#64)).1 / 2 ^ (254 + 2))) := by
    have none : (Limbs.value curveSecp256r1.p + 1) / 2 ^ (254 + 2) = 0 := by decide
    rw [value_p1, none, pow_zero]
    exact lawful_curveSecp256r1.one
  have inside : 254 + 2 ≤ 64 *
      (vliAdd curveSecp256r1.p ((vliClear curveSecp256r1.numWords).set 0 1#64)).1.length := by
    decide
  refine (lawful_curveSecp256r1.modSqrtLoop represents inside start).mono fun root power => ?_
  rwa [value_p1] at power

/-- The power of a square is one of its roots. -/
theorem represents_root {root : Vli 64} {y : curveSecp256r1.Base}
    (power : curveSecp256r1.Represents root
      ((y ^ 2) ^ ((Limbs.value curveSecp256r1.p + 1) / 4))) :
    curveSecp256r1.Represents root y ∨ curveSecp256r1.Represents root (-y) := by
  have remainder : Limbs.value curveSecp256r1.p % 4 = 3 := by decide
  rcases sq_pow_quarter remainder y with same | opposite
  · exact .inl (power.congr same)
  · exact .inr (power.congr opposite)

/-! ## The lowest bit -/

theorem lowest_bit_eq_iff {words : Vli 64} (length_eq : words.length = 4) (tag : UInt8) :
    words.getD 0 0#64 &&& 1#64 = tag.toBitVec.setWidth 64 &&& 1#64 ↔
      Limbs.value words % 2 = tag.toNat % 2 := by
  cases words with
  | nil => simp at length_eq
  | cons word rest =>
      have small : tag.toNat < 2 ^ 64 := tag.toNat_lt.trans (by decide)
      have parity : Limbs.value (word :: rest) % 2 = word.toNat % 2 := by
        rw [Limbs.value_cons]
        omega
      rw [parity, ← BitVec.toNat_inj, List.getD_cons_zero, BitVec.toNat_and, BitVec.toNat_and,
        BitVec.toNat_setWidth, UInt8.toNat_toBitVec, Nat.mod_eq_of_lt small]
      exact Nat.and_one_is_mod word.toNat ▸ Nat.and_one_is_mod tag.toNat ▸ Iff.rfl

/-- Of the two roots `ecdsa_decompress` takes the one with the lowest bit of the tag. -/
theorem decompressOrdinate_spec {root : Vli 64} {y : curveSecp256r1.Base} {tag : UInt8}
    (represents : curveSecp256r1.Represents root y ∨ curveSecp256r1.Represents root (-y))
    (parity : y.val % 2 = tag.toNat % 2) :
    curveSecp256r1.Represents (decompressOrdinate tag root curveSecp256r1) y := by
  have odd : Limbs.value curveSecp256r1.p % 2 = 1 := by decide
  have keeps : curveSecp256r1.Represents root y →
      curveSecp256r1.Represents (decompressOrdinate tag root curveSecp256r1) y := by
    intro same
    have bits := (lowest_bit_eq_iff same.length_eq tag).mpr (same.val_eq.symm ▸ parity)
    rwa [decompressOrdinate, if_neg (not_not.mpr bits)]
  rcases represents with same | opposite
  · exact keeps same
  · by_cases zero : y = 0
    · exact keeps (opposite.congr (by rw [zero, neg_zero]))
    · have small := y.val_lt
      have value_eq : Limbs.value root = Limbs.value curveSecp256r1.p - y.val := by
        rw [opposite.val_eq, ZMod.neg_val, if_neg zero]
      have bits : ¬ (root.getD 0 0#64 &&& 1#64 = tag.toBitVec.setWidth 64 &&& 1#64) := by
        rw [lowest_bit_eq_iff opposite.length_eq, value_eq]
        omega
      have lengths : curveSecp256r1.p.length = root.length := opposite.length_eq.symm
      have difference := value_vliSub_of_le lengths opposite.small.le
      rw [value_eq, Nat.sub_sub_self small.le] at difference
      rw [decompressOrdinate, if_pos bits]
      refine ⟨(length_vliSub lengths).trans rfl, difference ▸ small, ?_⟩
      rw [difference, ZMod.natCast_zmod_val]

/-! ## Round trips -/

theorem publicKeyBytes_publicKeyPoint {publicKey : List UInt8} (length_eq : publicKey.length = 64) :
    publicKeyBytes (publicKeyPoint publicKey curveSecp256r1) curveSecp256r1 = publicKey := by
  have size : curveSecp256r1.numBytes = 32 := rfl
  have frontLength : (publicKey.take 32).length = 32 := by
    rw [List.length_take, length_eq]
    rfl
  have backLength : (publicKey.drop 32).length = 32 := by rw [List.length_drop, length_eq]
  have front := nativeBytes_bytesNative (publicKey.take 32)
  have back := nativeBytes_bytesNative (publicKey.drop 32)
  rw [frontLength] at front
  rw [backLength] at back
  rw [publicKeyPoint, publicKeyBytes, size]
  dsimp only
  rw [front, back, List.take_append_drop]

/-- The last byte of a public key has the lowest bit of the ordinate. -/
theorem lowest_bit_of_publicKey {publicKey : List UInt8} (length_eq : publicKey.length = 64) :
    bytesValue (publicKey.drop 32) % 2 = (publicKey.getD 63 0).toNat % 2 := by
  have split : publicKey.drop 32 = (publicKey.drop 32).take 31 ++ [publicKey.getD 63 0] := by
    have last := @List.take_add_one _ (publicKey.drop 32) 31
    rw [List.take_of_length_le (by rw [List.length_drop, length_eq]), List.getElem?_drop,
      List.getElem?_eq_getElem (by omega)] at last
    rw [List.getD_eq_getElem?_getD, List.getElem?_eq_getElem (by omega)]
    exact last
  rw [split, bytesValue_append_singleton]
  omega

/-- The tag is two or three, with the lowest bit of the last byte. -/
theorem toNat_tag (byte : UInt8) : (2 + (byte &&& 1)).toNat = 2 + byte.toNat % 2 := by
  have bit : (byte &&& 1).toNat = byte.toNat % 2 := by
    rw [UInt8.toNat_and]
    exact Nat.and_one_is_mod byte.toNat
  have two : (2 : UInt8).toNat = 2 := rfl
  rw [UInt8.toNat_add, bit, two]
  omega

/-- The ordinate that `ecdsa_decompress` writes has the lowest bit of the tag. -/
theorem decompressOrdinate_parity {root : Vli 64} {a : curveSecp256r1.Base} (tag : UInt8)
    (represents : curveSecp256r1.Represents root a) :
    (decompressOrdinate tag root curveSecp256r1).length = 4 ∧
      Limbs.value (decompressOrdinate tag root curveSecp256r1) % 2 = tag.toNat % 2 := by
  have odd : Limbs.value curveSecp256r1.p % 2 = 1 := by decide
  have small := represents.small
  have lengths : curveSecp256r1.p.length = root.length := represents.length_eq.symm
  have bits := lowest_bit_eq_iff represents.length_eq tag
  rw [decompressOrdinate]
  by_cases same : root.getD 0 0#64 &&& 1#64 = tag.toBitVec.setWidth 64 &&& 1#64
  · rw [if_neg (not_not.mpr same)]
    exact ⟨represents.length_eq, bits.mp same⟩
  · rw [if_pos same, value_vliSub_of_le lengths small.le]
    have different := bits.not.mp same
    exact ⟨(length_vliSub lengths).trans rfl, by omega⟩

/-- What `ecdsa_decompress` makes of an abscissa and a tag: an ordinate with the lowest bit of the
tag, which is the one of the point with this abscissa and this bit, if there is one. -/
theorem ecdsaDecompress_spec {compressed : List UInt8} {x : curveSecp256r1.Base}
    (available : 32 ≤ (compressed.drop 1).length)
    (represents : curveSecp256r1.Represents (bytesNative (compressed.drop 1) 32) x) :
    Returns (ecdsaDecompress compressed curveSecp256r1) fun publicKey =>
      ∃ Y, publicKey = publicKeyBytes (bytesNative (compressed.drop 1) 32, Y) curveSecp256r1 ∧
        Y.length = 4 ∧ Limbs.value Y % 2 = (compressed.getD 0 0).toNat % 2 ∧
        ∀ y, secp256r1.Nonsingular x y → y.val % 2 = (compressed.getD 0 0).toNat % 2 →
          curveSecp256r1.Represents Y y := by
  rw [ecdsaDecompress, show curveSecp256r1.numBytes = 32 from rfl,
    vliBytesToNative_eq (by decide) available, Run.ok_bind]
  refine (xSideDefault_spec represents).bind fun side side_eq => ?_
  refine (modSqrtDefault_power side_eq).bind fun root power => ?_
  obtain ⟨length_eq, parity⟩ := decompressOrdinate_parity (compressed.getD 0 0) power
  have length_x : (bytesNative (compressed.drop 1) 32).length = 4 := represents.length_eq
  dsimp only
  rw [writePublicKey_eq length_x length_eq]
  refine Returns.ok ⟨_, rfl, length_eq, parity, fun y nonsingular bit => ?_⟩
  rw [← nonsingular_secp256r1_iff.mp nonsingular] at power
  exact decompressOrdinate_spec (represents_root power) bit

/-- `ecdsa_decompress` undoes `ecdsa_compress` on every valid public key. -/
theorem ecdsaDecompress_ecdsaCompress {publicKey : List UInt8} (length_eq : publicKey.length = 64)
    (valid : ecdsaValidPublicKey publicKey curveSecp256r1 = .ok 1) :
    ecdsaDecompress (ecdsaCompress publicKey curveSecp256r1) curveSecp256r1 = .ok publicKey := by
  obtain ⟨P, x, y, nonsingular, _, point⟩ := exists_isPoint_of_ecdsaValidPublicKey length_eq valid
  have trip := publicKeyBytes_publicKeyPoint length_eq
  have size : curveSecp256r1.numBytes = 32 := rfl
  rw [publicKeyPoint, size] at point trip
  obtain ⟨abscissa, ordinate⟩ := point
  dsimp only at abscissa ordinate
  have backLength : (publicKey.drop 32).length = 32 := by rw [List.length_drop, length_eq]
  have value_eq := (@bytesNative_spec (publicKey.drop 32) 32 backLength.ge).2
  rw [List.take_of_length_le backLength.le, ordinate.val_eq] at value_eq
  have compressed_eq : ecdsaCompress publicKey curveSecp256r1 =
      (2 + (publicKey.getD 63 0 &&& 1)) :: publicKey.take 32 := rfl
  have parity : y.val % 2 = (2 + (publicKey.getD 63 0 &&& 1)).toNat % 2 := by
    rw [value_eq, lowest_bit_of_publicKey length_eq, toNat_tag, Nat.add_mod_left, Nat.mod_mod]
  obtain ⟨other, returned, Y, other_eq, _, _, root⟩ :=
    @ecdsaDecompress_spec (ecdsaCompress publicKey curveSecp256r1) x
      (by rw [compressed_eq, List.drop_one, List.tail_cons, List.length_take, length_eq]; decide)
      abscissa
  rw [returned, other_eq, (root y nonsingular parity).unique ordinate]
  exact congrArg Except.ok trip

theorem ecdsaDecompress_ecdsaCompress_of_two :
    ecdsaDecompress (ecdsaCompress publicKeyOfTwo curveSecp256r1) curveSecp256r1 =
      .ok publicKeyOfTwo :=
  ecdsaDecompress_ecdsaCompress rfl (by decide +kernel)

/-- `ecdsa_decompress` makes a valid public key exactly of the abscissas of points, and
`ecdsa_compress` undoes it there. -/
theorem ecdsaDecompress_valid_iff {compressed : List UInt8} (length_eq : compressed.length = 33)
    (tag : compressed.getD 0 0 = 2 ∨ compressed.getD 0 0 = 3)
    (small : bytesValue (compressed.drop 1) < Limbs.value curveSecp256r1.p) :
    ∃ publicKey, ecdsaDecompress compressed curveSecp256r1 = .ok publicKey ∧
      (ecdsaValidPublicKey publicKey curveSecp256r1 = .ok 1 ↔
        ∃ y, secp256r1.Nonsingular (bytesValue (compressed.drop 1) : Nat) y ∧
          y.val % 2 = (compressed.getD 0 0).toNat % 2) ∧
      ecdsaCompress publicKey curveSecp256r1 = compressed := by
  have size : curveSecp256r1.numBytes = 32 := rfl
  have restLength : (compressed.drop 1).length = 32 := by rw [List.length_drop, length_eq]
  obtain ⟨words, value_eq⟩ := @bytesNative_spec (compressed.drop 1) 32 restLength.ge
  have bytes := nativeBytes_bytesNative (compressed.drop 1)
  rw [List.take_of_length_le restLength.le] at value_eq
  rw [restLength] at bytes
  have spec := @ecdsaDecompress_spec compressed (bytesValue (compressed.drop 1) : Nat)
    restLength.ge
  generalize bytesNative (compressed.drop 1) 32 = X at words value_eq bytes spec
  have length_X : X.length = 4 := words
  have represents : curveSecp256r1.Represents X (bytesValue (compressed.drop 1) : Nat) :=
    ⟨length_X, value_eq.trans_lt small, by rw [value_eq]⟩
  obtain ⟨publicKey, returned, Y, rfl, length_Y, parity, root⟩ := spec represents
  refine ⟨_, returned, ?_, ?_⟩
  · rw [ecdsaValidPublicKey, readPublicKey_eq (length_publicKeyBytes _).ge, Run.ok_bind,
      @publicKeyPoint_publicKeyBytes (X, Y) length_X length_Y]
    obtain ⟨valid, verdict, ⟨rfl, P, x, y, nonsingular, _, abscissa, ordinate⟩ | ⟨rfl, none⟩⟩ :=
      @ecdsaValidPoint_spec (X, Y) length_X length_Y
    · rw [verdict]
      obtain rfl := represents.cast_eq.symm.trans abscissa.cast_eq
      refine iff_of_true rfl ⟨y, nonsingular, ?_⟩
      rw [← ordinate.val_eq, parity]
    · rw [verdict]
      refine iff_of_false (by simp) ?_
      rintro ⟨y, nonsingular, bit⟩
      exact none _ ⟨_, y, nonsingular, rfl, represents, root y nonsingular bit⟩
  · have front : (publicKeyBytes (X, Y) curveSecp256r1).take 32 = compressed.drop 1 := by
      rw [publicKeyBytes, size, bytes, List.take_left' restLength]
    have back : (publicKeyBytes (X, Y) curveSecp256r1).drop 32 = nativeBytes 32 Y := by
      rw [publicKeyBytes, size, bytes, List.drop_left' restLength]
    have lowest := lowest_bit_of_publicKey (length_publicKeyBytes (X, Y))
    rw [back, bytesValue_nativeBytes, Nat.mod_mod_of_dvd _ (by decide), parity] at lowest
    have tag_eq : 2 + ((publicKeyBytes (X, Y) curveSecp256r1).getD 63 0 &&& 1) =
        compressed.getD 0 0 := by
      rw [← UInt8.toNat_inj, toNat_tag, ← lowest]
      rcases tag with two | three
      · rw [two]
        rfl
      · rw [three]
        rfl
    have compress_eq : ecdsaCompress (publicKeyBytes (X, Y) curveSecp256r1) curveSecp256r1 =
        (2 + ((publicKeyBytes (X, Y) curveSecp256r1).getD 63 0 &&& 1)) ::
          (publicKeyBytes (X, Y) curveSecp256r1).take 32 := rfl
    rw [compress_eq, tag_eq, front]
    cases compressed with
    | nil => simp at length_eq
    | cons byte rest => rfl

theorem ecdsaDecompress_valid_iff_of_two :
    ∃ publicKey, ecdsaDecompress (3 :: publicKeyOfTwo.take 32) curveSecp256r1 = .ok publicKey ∧
      ecdsaCompress publicKey curveSecp256r1 = 3 :: publicKeyOfTwo.take 32 := by
  obtain ⟨publicKey, returned, _, compressed⟩ :=
    @ecdsaDecompress_valid_iff (3 :: publicKeyOfTwo.take 32) rfl (.inr rfl) (by decide +kernel)
  exact ⟨publicKey, returned, compressed⟩

end Freecoin
