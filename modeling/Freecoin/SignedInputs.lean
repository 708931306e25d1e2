import Freecoin.MerkleIds
import Freecoin.Acceptance
import Freecoin.SignatureTrips

/-!
# Signed inputs

`validate_tx_pseudo` with the verifier of the library.  An input has 128 bytes for its public key
and 128 for its signature, and the verifier reads 64 of each.
-/

namespace Freecoin

open Foundation

/-- `ecdsa_verify` as `validate_tx_input_pseudo` calls it. -/
def inputVerdict (pubkey : Bytes 128) (message : Bytes 32) (sig : Bytes 128) : Bool :=
  match ecdsaVerify pubkey.toList message.toList sizeSha256 sig.toList curveSecp256r1 with
  | .ok code => code != 0
  | .error _ => false

/-- The public key of an input, as a point. -/
def TxInput.HasKey (input : TxInput) (Q : secp256r1.Point) : Prop :=
  IsPoint (publicKeyPoint input.pubkey.toList curveSecp256r1) Q ∧ Q ≠ basePoint ∧ Q ≠ -basePoint

/-- The signature of an input is one of the message by its key, and the verifier does not lose
it. -/
def TxInput.SignedBy (input : TxInput) (message : Bytes 32) (Q : secp256r1.Point) : Prop :=
  Verifies Q (bytesValue message.toList) (signatureR input.sig.toList)
      (signatureS input.sig.toList) ∧
    ¬ LosesSignature Q (bytesValue message.toList) (signatureR input.sig.toList)
      (signatureS input.sig.toList)

theorem hashValue_message (message : Bytes 32) :
    hashValue message.toList sizeSha256 = bytesValue message.toList := by
  have length_eq : message.toList.length = 32 := message.toList_length
  rw [hashValue, sizeSha256, min_self, List.take_of_length_le length_eq.le]

theorem inputVerdict_eq_true_iff {input : TxInput} {Q : secp256r1.Point} (key : input.HasKey Q)
    (message : Bytes 32) :
    inputVerdict input.pubkey message input.sig = true ↔ input.SignedBy message Q := by
  obtain ⟨isPoint, apart, opposite⟩ := key
  have available : sizeSha256 ≤ message.toList.length := message.toList_length.ge
  have length_le : 64 ≤ input.sig.toList.length := by
    rw [List.Vector.toList_length]
    decide
  have keyLength : 64 ≤ input.pubkey.toList.length := by
    rw [List.Vector.toList_length]
    decide
  obtain ⟨code, returned, ends⟩ :=
    ecdsaVerify_spec isPoint apart opposite available length_le keyLength
  rw [hashValue_message] at ends
  rw [inputVerdict, returned, TxInput.SignedBy]
  rcases ends with ⟨rfl, accepted⟩ | ⟨rfl, refused⟩
  · exact iff_of_true rfl accepted
  · refine iff_of_false (by simp) ?_
    rintro ⟨verifies, keeps⟩
    exact refused.elim (fun refuses => refuses verifies) keeps

/-- With the verifier of the library, a transaction whose inputs hold keys is accepted exactly when
its surplus is enough and every input is signed by its key, for the message of the first input. -/
theorem validateTxPseudo_iff_signedBy {primitives : Primitives}
    (library : primitives.ecdsaVerify = inputVerdict) {tx : Tx} {first : TxInput}
    {rest : List TxInput} (counted : tx.Counted) (ins_eq : tx.ins = first :: rest)
    {key : TxInput → secp256r1.Point} (keys : ∀ input ∈ tx.ins, input.HasKey (key input))
    (signable : Nat → Nat → UInt8) :
    validateTxPseudo primitives signable tx = .ok 0 ↔
      ¬ ((txComputeSize tx).toUInt64 > 1000 ∧
        primitives.txComputeSurplus tx < primitives.txComputeRequiredSurplus tx) ∧
      ∀ input ∈ tx.ins, input.SignedBy first.message (key input) := by
  rw [validateTxPseudo_eq_zero_iff counted ins_eq, library]
  apply and_congr_right'
  apply forall₂_congr
  intro input member
  exact inputVerdict_eq_true_iff (keys input member) first.message

/-- The bytes of a number that is both halves of a signature. -/
def tripleAbscissa : List UInt8 :=
  [94, 203, 228, 209, 166, 51, 10, 68, 200, 247, 239, 149, 29, 75, 241, 101, 230, 198, 183, 33,
    239, 173, 169, 133, 251, 65, 102, 27, 198, 231, 253, 108]

/-- An input of the key two whose message is its own signature. -/
def tripleInput : TxInput where
  outIndex := 0x5ecb
  refTx := ⟨tripleAbscissa.drop 2 ++ [0, 0], rfl⟩
  pubkey := ⟨publicKeyOfTwo ++ List.replicate 64 0, rfl⟩
  sig := ⟨tripleAbscissa ++ tripleAbscissa ++ List.replicate 64 0, rfl⟩

/-- The two multiples that verify the signature are the base point and the key, once each. -/
theorem exists_signedBy_tripleInput :
    ∃ Q, tripleInput.HasKey Q ∧ tripleInput.SignedBy tripleInput.message Q := by
  have valid : ecdsaValidPublicKey publicKeyOfTwo curveSecp256r1 = .ok 1 := by decide +kernel
  obtain ⟨Q, isPoint⟩ := exists_isPoint_of_ecdsaValidPublicKey rfl valid
  have words : publicKeyPoint tripleInput.pubkey.toList curveSecp256r1 =
      publicKeyPoint publicKeyOfTwo curveSecp256r1 := by
    decide +kernel
  have apart := isPoint.apart (by decide +kernel)
  refine ⟨Q, ⟨words ▸ isPoint, apart.1, apart.2⟩, ?_⟩
  have message_eq : bytesValue tripleInput.message.toList = bytesValue tripleAbscissa := by
    decide +kernel
  have r_eq : signatureR tripleInput.sig.toList = bytesValue tripleAbscissa := by decide +kernel
  have s_eq : signatureS tripleInput.sig.toList = bytesValue tripleAbscissa := by decide +kernel
  have positive : 0 < bytesValue tripleAbscissa := by decide +kernel
  have small : bytesValue tripleAbscissa < orderSecp256r1 := by decide +kernel
  have nonzero : (bytesValue tripleAbscissa : Scalar) ≠ 0 := by decide +kernel
  have once : ((bytesValue tripleAbscissa : Scalar) / bytesValue tripleAbscissa).val = 1 := by
    rw [div_self nonzero]
    rfl
  obtain ⟨x, y, nonsingular, Q_eq, represents⟩ := isPoint
  have first : CoZ.Scaled 1 baseCoordinates basePoint := CoZ.Scaled.of_some _
  have second : CoZ.Scaled 1 (x, y) Q := Q_eq ▸ CoZ.Scaled.of_some nonsingular
  obtain rfl := represents.fst.cast_eq
  obtain rfl := represents.snd.cast_eq
  obtain ⟨scale, X, Y, sum_nonsingular, point_eq, coordinates⟩ :=
    (first.add second (by decide +kernel)).2
  have abscissa : X = (bytesValue tripleAbscissa : Nat) := by
    apply mul_right_cancel₀ (pow_ne_zero 2 scale)
    refine (congrArg Prod.fst coordinates).symm.trans ?_
    decide +kernel
  rw [TxInput.SignedBy, message_eq, r_eq, s_eq]
  constructor
  · refine ⟨positive, small, positive, small, ?_⟩
    rw [once, one_nsmul, one_nsmul]
    exact ⟨X, Y, sum_nonsingular, point_eq, by rw [abscissa]; decide +kernel⟩
  · rw [LosesSignature, once]
    rintro ⟨i, inside, _⟩
    exact Nat.not_lt_zero i inside

/-- A transaction that spends with this input, and has no output. -/
def tripleSpend : Tx where
  header := { version := 2, inCount := 1, outCount := 0, lockTime := 0 }
  ins := [tripleInput]
  outs := []

theorem tripleSpend_counted : tripleSpend.Counted := ⟨rfl, rfl⟩

theorem tripleSpend_ins : tripleSpend.ins = [tripleInput] := rfl

theorem tripleSpend_small : ¬ (txComputeSize tripleSpend).toUInt64 > 1000 := by decide +kernel

/-- The functions of the library, with surpluses of zero. -/
def libraryPrimitives : Primitives where
  sha256 := sha256
  ecdsaVerify := inputVerdict
  txComputeSurplus _ := 0
  txComputeRequiredSurplus _ := 0

theorem ecdsaVerify_libraryPrimitives : libraryPrimitives.ecdsaVerify = inputVerdict := by
  rw [libraryPrimitives]

theorem validateTxPseudo_iff_signedBy_tripleSpend :
    ∃ Q, tripleInput.HasKey Q ∧
      validateTxPseudo libraryPrimitives (fun _ _ => 0) tripleSpend = .ok 0 := by
  obtain ⟨Q, key, signed⟩ := exists_signedBy_tripleInput
  refine ⟨Q, key, ?_⟩
  refine (@validateTxPseudo_iff_signedBy libraryPrimitives ecdsaVerify_libraryPrimitives
    tripleSpend tripleInput [] tripleSpend_counted tripleSpend_ins (fun _ => Q) ?_ fun _ _ => 0).mpr
    ⟨fun poor => tripleSpend_small poor.1, ?_⟩
  · intro input member
    rw [tripleSpend_ins] at member
    rwa [List.mem_singleton.mp member]
  · intro input member
    rw [tripleSpend_ins] at member
    rwa [List.mem_singleton.mp member]

/-! ## Bytes that nobody reads -/

theorem bytesNative_take {bytes : List UInt8} {numBytes count : Nat}
    (inside : numBytes ≤ count) (available : numBytes ≤ bytes.length) :
    bytesNative (bytes.take count) numBytes = bytesNative bytes numBytes := by
  have short : numBytes ≤ (bytes.take count).length := by
    rw [List.length_take]
    omega
  rw [← bytesNative_append short, List.take_append_drop]

theorem bytesNative_drop_take {bytes : List UInt8} (long : 64 ≤ bytes.length) :
    bytesNative ((bytes.drop 32).take (64 - 32)) 32 = bytesNative (bytes.drop 32) 32 :=
  bytesNative_take le_rfl (by rw [List.length_drop]; omega)

/-- The words of a public key are in its first 64 bytes. -/
theorem publicKeyPoint_take {publicKey : List UInt8} (long : 64 ≤ publicKey.length) :
    publicKeyPoint (publicKey.take 64) curveSecp256r1 =
      publicKeyPoint publicKey curveSecp256r1 := by
  have size : curveSecp256r1.numBytes = 32 := rfl
  have front : (publicKey.take 64).take 32 = publicKey.take 32 := by
    rw [List.take_take]
    rfl
  rw [publicKeyPoint, publicKeyPoint, size, front, List.drop_take,
    bytesNative_drop_take long]

/-- `ecdsa_verify` reads 64 bytes of the key and 64 of the signature. -/
theorem ecdsaVerify_take {publicKey messageHash signature : List UInt8} {hashSize : Nat}
    (keyLength : 64 ≤ publicKey.length) (signatureLength : 64 ≤ signature.length) :
    ecdsaVerify (publicKey.take 64) messageHash hashSize (signature.take 64) curveSecp256r1 =
      ecdsaVerify publicKey messageHash hashSize signature curveSecp256r1 := by
  have size : curveSecp256r1.numBytes = 32 := rfl
  have keyTaken : 64 ≤ (publicKey.take 64).length := by
    rw [List.length_take]
    omega
  have taken : 32 ≤ (signature.take 64).length := by
    rw [List.length_take]
    omega
  have back : 32 ≤ (signature.drop 32).length := by
    rw [List.length_drop]
    omega
  have backTaken : 32 ≤ ((signature.drop 32).take (64 - 32)).length := by
    rw [List.length_take]
    omega
  rw [ecdsaVerify, ecdsaVerify, readPublicKey_eq keyTaken, readPublicKey_eq keyLength,
    publicKeyPoint_take keyLength, size, List.drop_take, vliBytesToNative_eq (by decide) taken,
    vliBytesToNative_eq (by decide) backTaken, vliBytesToNative_eq (by decide) back,
    vliBytesToNative_eq (by decide) (by omega), bytesNative_drop_take signatureLength,
    bytesNative_take (by decide) (by omega)]

/-- Other bytes behind the key and the signature. -/
def TxInput.padded (tails : Bytes 64 × Bytes 64) (input : TxInput) : TxInput :=
  { input with
    pubkey := ⟨input.pubkey.toList.take 64 ++ tails.1.toList, by simp⟩
    sig := ⟨input.sig.toList.take 64 ++ tails.2.toList, by simp⟩ }

/-- A transaction whose inputs have other bytes behind their keys and signatures, each its own. -/
def Tx.padded (tails : Nat → Bytes 64 × Bytes 64) (tx : Tx) : Tx :=
  { tx with ins := tx.ins.mapIdx fun i input => input.padded (tails i) }

section Padded

variable {tails : Nat → Bytes 64 × Bytes 64} {tx : Tx}

theorem inputVerdict_padded (input : TxInput) (pair : Bytes 64 × Bytes 64) (message : Bytes 32) :
    inputVerdict (input.padded pair).pubkey message (input.padded pair).sig =
      inputVerdict input.pubkey message input.sig := by
  have long : ∀ bytes : Bytes 128, 64 ≤ bytes.toList.length := by
    intro bytes
    rw [List.Vector.toList_length]
    decide
  have front : ∀ (bytes : Bytes 128) (tail : Bytes 64),
      (bytes.toList.take 64 ++ tail.toList).take 64 = bytes.toList.take 64 := by
    intro bytes tail
    exact List.take_left' (by rw [List.length_take, List.Vector.toList_length]; rfl)
  have pubkey_eq : (input.padded pair).pubkey.toList.take 64 = input.pubkey.toList.take 64 :=
    front input.pubkey pair.1
  have sig_eq : (input.padded pair).sig.toList.take 64 = input.sig.toList.take 64 :=
    front input.sig pair.2
  rw [inputVerdict, inputVerdict, ← ecdsaVerify_take (long _) (long (input.padded pair).sig),
    pubkey_eq, sig_eq, ecdsaVerify_take (long _) (long _)]

theorem Tx.Counted.padded (counted : tx.Counted) : (tx.padded tails).Counted := by
  refine ⟨?_, counted.outs⟩
  rw [Tx.padded, List.length_mapIdx]
  exact counted.ins

/-- The bytes behind the key and the signature of an input are not signed and not read: whoever
changes them makes another transaction, with other bytes, that `validate_tx_pseudo` accepts when it
accepts the first. -/
theorem validateTxPseudo_padded {primitives : Primitives}
    (library : primitives.ecdsaVerify = inputVerdict) (counted : tx.Counted)
    (signable : Nat → Nat → UInt8) (accepted : validateTxPseudo primitives signable tx = .ok 0)
    (enough : ¬ ((txComputeSize tx).toUInt64 > 1000 ∧
      primitives.txComputeSurplus (tx.padded tails) <
        primitives.txComputeRequiredSurplus (tx.padded tails))) :
    validateTxPseudo primitives signable (tx.padded tails) = .ok 0 ∧
      ((∃ i, ∃ input : TxInput, tx.ins[i]? = some input ∧ input.padded (tails i) ≠ input) →
        (tx.padded tails).bytes ≠ tx.bytes) := by
  constructor
  · cases ins_eq : tx.ins with
    | nil =>
        have same : tx.padded tails = tx := by
          rw [Tx.padded, ins_eq, List.mapIdx_nil, ← ins_eq]
        rwa [same]
    | cons first rest =>
        have padded_eq : (tx.padded tails).ins = first.padded (tails 0) ::
            rest.mapIdx fun i input => input.padded (tails (i + 1)) := by
          rw [Tx.padded, ins_eq, List.mapIdx_cons]
        have message_eq : (first.padded (tails 0)).message = first.message := rfl
        rw [validateTxPseudo_eq_zero_iff counted ins_eq, library] at accepted
        rw [validateTxPseudo_eq_zero_iff counted.padded padded_eq, library]
        refine ⟨enough, fun input member => ?_⟩
        obtain ⟨i, inside, rfl⟩ := List.mem_mapIdx.mp member
        rw [message_eq, inputVerdict_padded]
        exact accepted.2 _ (List.getElem_mem inside)
  · rintro ⟨i, input, found, changed⟩ bytes_eq
    have same := congrArg Tx.ins (Tx.eq_of_bytes_eq counted.padded counted bytes_eq)
    have unchanged := congrArg (fun ins => ins[i]?) same
    dsimp only [Tx.padded] at unchanged
    rw [List.getElem?_mapIdx, found] at unchanged
    exact changed (Option.some.inj unchanged)

end Padded

theorem validateTxPseudo_padded_tripleSpend :
    validateTxPseudo libraryPrimitives (fun _ _ => 0)
        (tripleSpend.padded fun _ => (List.Vector.replicate 64 1, List.Vector.replicate 64 2)) =
      .ok 0 ∧
    (tripleSpend.padded fun _ => (List.Vector.replicate 64 1, List.Vector.replicate 64 2)).bytes ≠
      tripleSpend.bytes := by
  obtain ⟨Q, key, signed⟩ := exists_signedBy_tripleInput
  have accepted : validateTxPseudo libraryPrimitives (fun _ _ => 0) tripleSpend = .ok 0 := by
    rw [@validateTxPseudo_eq_zero_iff libraryPrimitives tripleSpend tripleInput []
      tripleSpend_counted tripleSpend_ins, ecdsaVerify_libraryPrimitives]
    refine ⟨fun poor => tripleSpend_small poor.1, fun input member => ?_⟩
    rw [tripleSpend_ins] at member
    rw [List.mem_singleton.mp member]
    exact (inputVerdict_eq_true_iff key _).mpr signed
  obtain ⟨padded, differs⟩ := @validateTxPseudo_padded
    (fun _ => (List.Vector.replicate 64 1, List.Vector.replicate 64 2)) tripleSpend
    libraryPrimitives ecdsaVerify_libraryPrimitives tripleSpend_counted (fun _ _ => 0) accepted
    fun poor => tripleSpend_small poor.1
  have found : tripleSpend.ins[0]? = some tripleInput := by
    rw [tripleSpend_ins]
    rfl
  exact ⟨padded, differs ⟨0, tripleInput, found, by decide +kernel⟩⟩

end Freecoin
