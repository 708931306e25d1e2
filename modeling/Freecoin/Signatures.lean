import Freecoin.Sha256
import Freecoin.Validation

/-!
# What a signature covers

The signable bytes are generated with a cursor that starts at the header instead of behind it, so
the inputs overwrite the header, and of the result only the first 32 bytes, not their digest, are
handed to `ecdsa_verify`.  The message is the output index and the first 30 bytes of the
transaction reference of the first input, and nothing else is signed.
-/

namespace Freecoin

open Foundation

/-! ## The signable bytes -/

/-- The bytes of an input that are to be signed. -/
def TxInput.signable (input : TxInput) : List UInt8 :=
  ustob input.outIndex ++ (input.refTx.toList ++ input.pubkey.toList)

@[simp] theorem TxInput.length_signable (input : TxInput) : input.signable.length = 162 := by
  simp [signable]

/-- What the two loops of `tx_generate_signable_hash` write: every input without its signature,
then the first output once for each output. -/
def Tx.signableBody (tx : Tx) : List UInt8 :=
  tx.ins.flatMap TxInput.signable ++
    (List.replicate tx.outs.length (tx.outs.head?.elim [] TxOutput.bytes)).flatten

theorem toNat_txComputeSizeSignableHash (tx : Tx) :
    (txComputeSizeSignableHash tx).toNat =
      10 + tx.header.inCount.toNat * 162 + tx.header.outCount.toNat * 36 := by
  have inBound := tx.header.inCount.toNat_lt
  have outBound := tx.header.outCount.toNat_lt
  have sigSize : (UInt32.ofNat sizeTxInputSig).toNat = 128 := rfl
  have sigs : (tx.header.inCount.toUInt32 * .ofNat sizeTxInputSig).toNat =
      tx.header.inCount.toNat * 128 := by
    rw [UInt32.toNat_mul, UInt16.toNat_toUInt32, sigSize, Nat.mod_eq_of_lt (by omega)]
  have size := toNat_txComputeSize tx
  rw [txComputeSizeSignableHash, UInt32.toNat_sub_of_le, sigs, size]
  · omega
  · rw [UInt32.le_iff_toNat_le, sigs, size]
    omega

section Loops

variable (tx : Tx) (dst : Buffer)

/-- A store at a 32-bit cursor right behind what was written extends the run of written bytes. -/
theorem store_at_cursor (front bytes : List UInt8) (fits : front.length + bytes.length ≤ dst.size)
    (narrow : front.length < 2 ^ 32) :
    (dst.write 0 front).store (UInt32.ofNat front.length).toNat bytes =
      .ok (dst.write 0 (front ++ bytes)) := by
  have cursor : (UInt32.ofNat front.length).toNat = front.length :=
    UInt32.toNat_ofNat_of_lt' narrow
  rw [cursor, Buffer.store_of_le (by rw [Buffer.size_write]; exact fits),
    Buffer.write_append _ _ _ (Nat.zero_add _).symm]

theorem cursor_add (front : List UInt8) {bytes : List UInt8} {size : Nat}
    (length_eq : bytes.length = size) :
    UInt32.ofNat front.length + .ofNat size = .ofNat (front ++ bytes).length := by
  rw [List.length_append, length_eq, UInt32.ofNat_add]

theorem txSignableInputs_eq (front : List UInt8) (index remaining : Nat)
    (inside : index + remaining ≤ tx.ins.length)
    (fits : front.length + remaining * 162 ≤ dst.size)
    (narrow : front.length + remaining * 162 < 2 ^ 32) :
    txSignableInputs tx index remaining (.ofNat front.length) (dst.write 0 front) =
      .ok (.ofNat (front ++ ((tx.ins.drop index).take remaining).flatMap TxInput.signable).length,
        dst.write 0 (front ++ ((tx.ins.drop index).take remaining).flatMap TxInput.signable)) := by
  induction remaining generalizing index front with
  | zero => simp [txSignableInputs]
  | succ remaining ih =>
      have within : index < tx.ins.length := by omega
      obtain ⟨input, input_eq⟩ : ∃ input, tx.ins[index] = input := ⟨_, rfl⟩
      have fetched : fetch tx.ins index = .ok input := by rw [fetch_of_lt within, input_eq]
      have inputs : (tx.ins.drop index).take (remaining + 1) =
          input :: (tx.ins.drop (index + 1)).take remaining := by
        rw [List.drop_eq_getElem_cons within, List.take_succ_cons, input_eq]
      have indexLength : (ustob input.outIndex).length = sizeTxInputOutIndex := rfl
      have refLength : input.refTx.toList.length = sizeTxInputRefTx := List.Vector.toList_length _
      have keyLength : input.pubkey.toList.length = sizeTxInputPubkey := List.Vector.toList_length _
      have indexSize : sizeTxInputOutIndex = 2 := rfl
      have refSize : sizeTxInputRefTx = 32 := rfl
      have keySize : sizeTxInputPubkey = 128 := rfl
      have whole : front ++ ustob input.outIndex ++ input.refTx.toList ++ input.pubkey.toList =
          front ++ input.signable := by
        simp [TxInput.signable]
      have indexed : (front ++ ustob input.outIndex).length = front.length + 2 := by
        rw [List.length_append, indexLength]
        rfl
      have referred : (front ++ ustob input.outIndex ++ input.refTx.toList).length =
          front.length + 34 := by
        rw [List.length_append, indexed, refLength]
        rfl
      have signed : (front ++ input.signable).length = front.length + 162 := by
        rw [List.length_append, TxInput.length_signable]
      have outIndex := store_at_cursor dst front (ustob input.outIndex) (by omega) (by omega)
      have refTx := store_at_cursor dst (front ++ ustob input.outIndex) input.refTx.toList
        (by omega) (by omega)
      have pubkey := store_at_cursor dst (front ++ ustob input.outIndex ++ input.refTx.toList)
        input.pubkey.toList (by omega) (by omega)
      have rest := ih (front ++ input.signable) (index + 1) (by omega) (by omega) (by omega)
      simp only [txSignableInputs, fetched, Run.ok_bind, outIndex, cursor_add front indexLength,
        refTx, cursor_add _ refLength, pubkey, cursor_add _ keyLength, whole, rest, inputs,
        List.flatMap_cons]
      rw [List.append_assoc]

theorem txSignableOutputs_eq {output : TxOutput} {outs : List TxOutput} (front : List UInt8)
    (remaining : Nat) (outs_eq : tx.outs = output :: outs)
    (fits : front.length + remaining * 36 ≤ dst.size)
    (narrow : front.length + remaining * 36 < 2 ^ 32) :
    txSignableOutputs tx remaining (.ofNat front.length) (dst.write 0 front) =
      .ok (dst.write 0 (front ++ (List.replicate remaining output.bytes).flatten)) := by
  induction remaining generalizing front with
  | zero => simp [txSignableOutputs]
  | succ remaining ih =>
      have first : fetch tx.outs 0 = .ok output := by
        rw [outs_eq]
        rfl
      have cursor : (UInt32.ofNat front.length).toNat = front.length :=
        UInt32.toNat_ofNat_of_lt' (lt_of_le_of_lt (by omega) narrow)
      have extended : (front ++ output.bytes).length = front.length + 36 := by
        rw [List.length_append, TxOutput.length_bytes, sizeTxOutput]
      have written := txOutputSerialize_eq output (dst.write 0 front) front.length (by
        rw [Buffer.size_write, sizeTxOutput]
        omega)
      rw [Buffer.write_append _ _ _ (Nat.zero_add _).symm] at written
      rw [txSignableOutputs, first, Run.ok_bind, cursor, written, Run.ok_bind,
        cursor_add front output.length_bytes,
        ih (front ++ output.bytes) (by omega) (by omega)]
      simp [List.replicate_succ]

end Loops

/-! ## The message -/

section Message

variable {tx : Tx} {first : TxInput} {rest : List TxInput}

theorem Tx.signableBody_of_cons (ins_eq : tx.ins = first :: rest) :
    ∃ tail, tx.signableBody = first.signable ++ tail := by
  rw [signableBody, ins_eq, List.flatMap_cons, List.append_assoc]
  exact ⟨_, rfl⟩

/-- The two loops start over at the front of the destination, where the header was written. -/
theorem txGenerateSignableHash_writes (counted : tx.Counted) (dst : Buffer)
    (room : (txComputeSizeSignableHash tx).toNat ≤ dst.size) :
    txGenerateSignableHash tx dst =
      .ok ((dst.write 0 tx.header.bytes).write 0 tx.signableBody) := by
  have inBound := tx.header.inCount.toNat_lt
  have outBound := tx.header.outCount.toNat_lt
  have size := toNat_txComputeSizeSignableHash tx
  rw [counted.ins, counted.outs] at size
  rw [counted.ins] at inBound
  rw [counted.outs] at outBound
  have header := txHeaderSerialize_eq tx.header dst posTxHeader (by
    simp only [posTxHeader, sizeTxHeader]
    omega)
  rw [posTxHeader] at header
  set headed := dst.write 0 tx.header.bytes
  have headedSize : headed.size = dst.size := rfl
  have inputs := txSignableInputs_eq tx headed [] 0 tx.ins.length (by omega)
    (by rw [List.length_nil]; omega) (by rw [List.length_nil]; omega)
  have body_length : (tx.ins.flatMap TxInput.signable).length = tx.ins.length * 162 := by
    simp [List.length_flatMap]
  simp only [List.drop_zero, List.take_length, List.nil_append, Buffer.write_nil] at inputs
  have start : UInt32.ofNat posTxHeader = UInt32.ofNat ([] : List UInt8).length := rfl
  rw [txGenerateSignableHash, posTxHeader, header, Run.ok_bind, counted.ins]
  rw [posTxHeader] at start
  rw [start, inputs, Run.ok_bind, counted.outs]
  change txSignableOutputs tx tx.outs.length _ _ = _
  cases outs_eq : tx.outs with
  | nil =>
      simp only [List.length_nil, txSignableOutputs, Tx.signableBody, outs_eq]
      simp
  | cons output outs =>
      have outputs := txSignableOutputs_eq tx headed (tx.ins.flatMap TxInput.signable)
        tx.outs.length outs_eq (by omega) (by omega)
      rw [← outs_eq, outputs, Tx.signableBody, outs_eq]
      rfl

/-- With an input, the signable bytes are those of the loops: nothing of the header is left. -/
theorem txGenerateSignableHash_eq (counted : tx.Counted) (ins_eq : tx.ins = first :: rest)
    (signable : Nat → UInt8) :
    txGenerateSignableHash tx { size := (txComputeSizeSignableHash tx).toNat, byte := signable } =
      .ok (Buffer.write { size := (txComputeSizeSignableHash tx).toNat, byte := signable } 0
        tx.signableBody) := by
  have covered : tx.header.bytes.length ≤ tx.signableBody.length := by
    obtain ⟨tail, body_eq⟩ := Tx.signableBody_of_cons ins_eq
    rw [body_eq, TxHeader.length_bytes, List.length_append, TxInput.length_signable, sizeTxHeader]
    omega
  rw [txGenerateSignableHash_writes counted _ le_rfl, Buffer.write_write _ _ covered]

/-- The part of an input that ends up in the message. -/
def TxInput.message (input : TxInput) : Bytes 32 :=
  ⟨(ustob input.outIndex ++ input.refTx.toList).take 32, by simp⟩

/-- The verifier is handed the first 32 bytes of the first input. -/
theorem signableMessage_eq (counted : tx.Counted) (ins_eq : tx.ins = first :: rest)
    (signable : Nat → UInt8) : signableMessage tx signable = .ok first.message := by
  obtain ⟨tail, body_eq⟩ := Tx.signableBody_of_cons ins_eq
  have long : sizeSha256 ≤ tx.signableBody.length := by
    rw [body_eq, List.length_append, TxInput.length_signable, sizeSha256]
    omega
  have inside : 0 + sizeSha256 ≤ (txComputeSizeSignableHash tx).toNat := by
    rw [toNat_txComputeSizeSignableHash, counted.ins, ins_eq, List.length_cons, sizeSha256]
    omega
  have front : tx.signableBody.take sizeSha256 = first.message.toList ++ [] := by
    have refLength : first.refTx.toList.length = 32 := List.Vector.toList_length _
    rw [body_eq, TxInput.signable, List.append_nil, List.append_assoc, List.append_assoc,
      ← List.append_assoc, List.take_append_of_le_length (by simp [sizeSha256])]
    rfl
  rw [signableMessage, txGenerateSignableHash_eq counted ins_eq, Run.ok_bind,
    Buffer.read_of_le inside, Run.ok_bind, Buffer.window_write_take _ _ long, front,
    copyOut_append]

end Message

/-! ## The canonical encoding -/

/-- The transaction without its signatures: the header, every input and every output in order. -/
def Tx.signableEncoding (tx : Tx) : List UInt8 :=
  tx.header.bytes ++ tx.ins.flatMap TxInput.signable ++ tx.outs.flatMap TxOutput.bytes

/-- Whatever the destination held, exactly its first `tx_compute_size_signable_hash` bytes are
written, and they are the canonical encoding. -/
def SignableEncoded (tx : Tx) : Prop :=
  tx.signableEncoding.length = (txComputeSizeSignableHash tx).toNat ∧
    ∀ dst : Buffer, (txComputeSizeSignableHash tx).toNat ≤ dst.size →
      txGenerateSignableHash tx dst = .ok (dst.write 0 tx.signableEncoding)

section Encoding

variable {tx : Tx}

theorem length_signableEncoding (counted : tx.Counted) :
    tx.signableEncoding.length = (txComputeSizeSignableHash tx).toNat := by
  rw [toNat_txComputeSizeSignableHash, counted.ins, counted.outs]
  simp [Tx.signableEncoding, List.length_flatMap, sizeTxHeader, sizeTxOutput, Nat.add_assoc]

theorem length_signableBody (counted : tx.Counted) :
    tx.signableBody.length = tx.header.inCount.toNat * 162 + tx.header.outCount.toNat * 36 := by
  rw [counted.ins, counted.outs]
  cases outs_eq : tx.outs with
  | nil => simp [Tx.signableBody, outs_eq, List.length_flatMap]
  | cons output outs => simp [Tx.signableBody, outs_eq, List.length_flatMap, sizeTxOutput]

theorem signableEncoded_of_empty (counted : tx.Counted) (noInput : tx.header.inCount = 0)
    (noOutput : tx.header.outCount = 0) : SignableEncoded tx := by
  have ins_eq : tx.ins = [] := by
    rw [← List.length_eq_zero_iff, ← counted.ins, noInput]
    rfl
  have outs_eq : tx.outs = [] := by
    rw [← List.length_eq_zero_iff, ← counted.outs, noOutput]
    rfl
  refine ⟨length_signableEncoding counted, ?_⟩
  intro dst room
  rw [txGenerateSignableHash_writes counted dst room, Tx.signableBody, Tx.signableEncoding,
    ins_eq, outs_eq]
  simp

/-- The loops write ten bytes too few: the byte right behind what they write keeps its value. -/
theorem not_signableEncoded_of_body (counted : tx.Counted)
    (body : 0 < tx.header.inCount.toNat + tx.header.outCount.toNat) : ¬ SignableEncoded tx := by
  rintro ⟨length_eq, encoded⟩
  have bodyLength := length_signableBody counted
  have size := toNat_txComputeSizeSignableHash tx
  have inside : tx.signableBody.length < tx.signableEncoding.length := by omega
  -- a destination that differs from the encoding in every place up to that byte
  set dst : Buffer :=
    { size := (txComputeSizeSignableHash tx).toNat
      byte := fun _ => tx.signableEncoding[tx.signableBody.length] + 1 }
  have written := encoded dst le_rfl
  have covered : tx.header.bytes.length ≤ tx.signableBody.length := by
    rw [TxHeader.length_bytes, sizeTxHeader]
    omega
  rw [txGenerateSignableHash_writes counted dst le_rfl, Buffer.write_write _ _ covered] at written
  have byte_eq := congrArg (Buffer.byte · tx.signableBody.length) (Except.ok.inj written)
  have kept : (dst.write 0 tx.signableBody).byte tx.signableBody.length =
      dst.byte tx.signableBody.length := dst.byte_write_of_ge _ (Nat.zero_add _).le
  have stored : (dst.write 0 tx.signableEncoding).byte (0 + tx.signableBody.length) =
      tx.signableEncoding[tx.signableBody.length] := dst.byte_write_of_mem _ inside
  rw [Nat.zero_add] at stored
  simp only [kept, stored] at byte_eq
  simp [dst] at byte_eq

end Encoding

/-- The signable bytes are the canonical encoding for the transactions without any input or output,
and for no other. -/
theorem signableEncoded_iff {tx : Tx} (counted : tx.Counted) :
    SignableEncoded tx ↔ tx.header.inCount = 0 ∧ tx.header.outCount = 0 := by
  constructor
  · intro encoded
    by_contra nonempty
    apply not_signableEncoded_of_body counted _ encoded
    rw [← UInt16.toNat_inj, ← UInt16.toNat_inj] at nonempty
    simp only [UInt16.toNat_zero] at nonempty
    omega
  · rintro ⟨noInput, noOutput⟩
    exact signableEncoded_of_empty counted noInput noOutput

/-- A transaction with neither input nor output. -/
def bareTx : Tx where
  header := { version := 1, inCount := 0, outCount := 0, lockTime := 0 }
  ins := []
  outs := []

theorem signableEncoded_bareTx : bareTx.Counted ∧ SignableEncoded bareTx :=
  ⟨⟨rfl, rfl⟩, (signableEncoded_iff ⟨rfl, rfl⟩).mpr ⟨rfl, rfl⟩⟩

/-! ## What it binds -/

/-- Everything of an input but its signature. -/
def TxInput.unsigned (input : TxInput) : UInt16 × Bytes 32 × Bytes 128 :=
  (input.outIndex, input.refTx, input.pubkey)

/-- Two transactions agree on everything but the signatures. -/
structure Tx.AgreeUnsigned (left right : Tx) : Prop where
  header : left.header = right.header
  ins : left.ins.map TxInput.unsigned = right.ins.map TxInput.unsigned
  outs : left.outs = right.outs

/-- The signable bytes of two transactions, as far as they are written, are a collision. -/
def SignableCollision (sha256 : List UInt8 → Digest) (left right : Tx) : Prop :=
  left.signableBody ≠ right.signableBody ∧ sha256 left.signableBody = sha256 right.signableBody

/-- The message determines the transaction: two transactions for which the verifier is handed one
message agree, or their signable bytes are a collision. -/
def SignatureBinds (sha256 : List UInt8 → Digest) (left right : Tx)
    (leftContent rightContent : Nat → UInt8) : Prop :=
  ∀ message, signableMessage left leftContent = .ok message →
    signableMessage right rightContent = .ok message →
      left.AgreeUnsigned right ∨ SignableCollision sha256 left right

theorem TxInput.message_eq_iff (left right : TxInput) :
    left.message = right.message ↔
      left.outIndex = right.outIndex ∧ left.refTx.toList.take 30 = right.refTx.toList.take 30 := by
  have split : ∀ input : TxInput,
      input.message.toList = ustob input.outIndex ++ input.refTx.toList.take 30 := fun _ => rfl
  constructor
  · intro same
    have bytes := congrArg List.Vector.toList same
    rw [split, split] at bytes
    obtain ⟨indices, references⟩ := List.append_inj bytes rfl
    exact ⟨ustob_injective indices, references⟩
  · rintro ⟨indices, references⟩
    apply List.Vector.eq
    rw [split, split, indices, references]

/-- The same transaction under another version. -/
def Tx.withVersion (tx : Tx) (version : UInt16) : Tx :=
  { tx with header := { tx.header with version } }

section Binding

variable (sha256 : List UInt8 → Digest) {tx : Tx} {first : TxInput} {rest : List TxInput}

/-- A transaction that differs in its version only has the same signable bytes. -/
theorem not_signatureBinds_withVersion (counted : tx.Counted) (ins_eq : tx.ins = first :: rest)
    (content : Nat → UInt8) {version : UInt16} (other : tx.header.version ≠ version) :
    ¬ SignatureBinds sha256 tx (tx.withVersion version) content content := by
  intro binds
  have otherCounted : (tx.withVersion version).Counted := ⟨counted.ins, counted.outs⟩
  obtain agree | ⟨differ, _⟩ := binds first.message (signableMessage_eq counted ins_eq content)
    (signableMessage_eq otherCounted ins_eq content)
  · exact other (congrArg TxHeader.version agree.header)
  · exact differ rfl

end Binding

/-- The message binds two transactions to each other only where it already differs, that is in the
output index or the first 30 bytes of the reference of their first inputs; and no transaction is
bound by its message. -/
theorem signatureBinds_iff (sha256 : List UInt8 → Digest) {left right : Tx}
    {leftFirst rightFirst : TxInput} {leftRest rightRest : List TxInput}
    (leftCounted : left.Counted) (rightCounted : right.Counted)
    (leftIns : left.ins = leftFirst :: leftRest) (rightIns : right.ins = rightFirst :: rightRest)
    (leftContent rightContent : Nat → UInt8) :
    (SignatureBinds sha256 left right leftContent rightContent ↔
      (leftFirst.outIndex ≠ rightFirst.outIndex ∨
        leftFirst.refTx.toList.take 30 ≠ rightFirst.refTx.toList.take 30) ∨
      left.AgreeUnsigned right ∨ SignableCollision sha256 left right) ∧
    ∀ version, left.header.version ≠ version →
      ¬ SignatureBinds sha256 left (left.withVersion version) leftContent leftContent := by
  refine ⟨?_, fun _ => not_signatureBinds_withVersion sha256 leftCounted leftIns leftContent⟩
  have leftMessage := signableMessage_eq leftCounted leftIns leftContent
  have rightMessage := signableMessage_eq rightCounted rightIns rightContent
  constructor
  · intro binds
    by_cases same : leftFirst.message = rightFirst.message
    · exact Or.inr (binds leftFirst.message leftMessage (same ▸ rightMessage))
    · rw [TxInput.message_eq_iff, not_and_or] at same
      exact Or.inl same
  · rintro (differ | settled) message leftHanded rightHanded
    · rw [← not_and_or, ← TxInput.message_eq_iff] at differ
      rw [leftMessage] at leftHanded
      rw [rightMessage] at rightHanded
      exact absurd ((Except.ok.inj leftHanded).trans (Except.ok.inj rightHanded).symm) differ
    · exact settled

/-- A transaction with one input and no output. -/
def plainSpend (version : UInt16) : Tx where
  header := { version, inCount := 1, outCount := 0, lockTime := 0 }
  ins :=
    [{ outIndex := 0, refTx := List.Vector.replicate 32 0, pubkey := List.Vector.replicate 128 0
       sig := List.Vector.replicate 128 0 }]
  outs := []

theorem plainSpend_counted (version : UInt16) : (plainSpend version).Counted := ⟨rfl, rfl⟩

/-- Of the 172 bytes of one input and no output, the last ten are not written. -/
theorem not_signableEncoded_plainSpend :
    (plainSpend 1).Counted ∧ ¬ SignableEncoded (plainSpend 1) :=
  ⟨plainSpend_counted 1, not_signableEncoded_of_body (plainSpend_counted 1) (by decide)⟩

/-- The same transaction with other signatures. -/
def Tx.resigned (sig : Bytes 128) (tx : Tx) : Tx :=
  { tx with ins := tx.ins.map fun input => { input with sig } }

theorem signatureBinds_plainSpend_resigned :
    (plainSpend 2).resigned (List.Vector.replicate 128 1) ≠ plainSpend 2 ∧
      SignatureBinds sha256 (plainSpend 2) ((plainSpend 2).resigned (List.Vector.replicate 128 1))
        (fun _ => 0) fun _ => 0 := by
  have counted : ((plainSpend 2).resigned (List.Vector.replicate 128 1)).Counted := ⟨rfl, rfl⟩
  refine ⟨by decide, ?_⟩
  exact (signatureBinds_iff sha256 (plainSpend_counted 2) counted rfl rfl (fun _ => 0)
    fun _ => 0).1.mpr (.inr (.inl ⟨rfl, rfl, rfl⟩))

/-- One signature is good for two versions. -/
theorem signatureBinds_plainSpend_fails :
    (plainSpend 1).Counted ∧ (plainSpend 2).Counted ∧
      ¬ SignatureBinds sha256 (plainSpend 1) (plainSpend 2) (fun _ => 0) fun _ => 0 :=
  ⟨plainSpend_counted 1, plainSpend_counted 2,
    not_signatureBinds_withVersion sha256 (plainSpend_counted 1) rfl (fun _ => 0) (by decide)⟩

end Freecoin
