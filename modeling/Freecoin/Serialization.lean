import Freecoin.TransactionCodec

/-!
# What `tx_serialize` writes

The record loops multiply their cursor where they should add to it.  With at most one record no
multiplied cursor is used and the serializer writes one run of bytes, though with the integers of
the record in host order.  With more, the second record lands far behind the first, and the byte
right after the first record keeps whatever the destination held.
-/

namespace Freecoin

open Foundation

/-- At most one record follows the header. -/
def Tx.Short (tx : Tx) : Prop := tx.header.inCount.toNat + tx.header.outCount.toNat ≤ 1

instance (tx : Tx) : Decidable tx.Short := inferInstanceAs (Decidable (_ ≤ _))

/-- The header followed by the record objects as they are in memory. -/
def Tx.objects (tx : Tx) : List UInt8 :=
  tx.header.bytes ++ (tx.ins.flatMap TxInput.object ++ tx.outs.flatMap TxOutput.object)

@[simp] theorem TxInput.length_object (input : TxInput) : input.object.length = sizeTxInput := by
  simp [object, sizeTxInput]

@[simp] theorem TxOutput.length_object (output : TxOutput) :
    output.object.length = sizeTxOutput := by
  simp [object, sizeTxOutput]

theorem Tx.length_objects (tx : Tx) : tx.objects.length = tx.bytes.length := by
  have inputs : (tx.ins.flatMap TxInput.object).length = tx.ins.length * 290 := by
    simp [List.length_flatMap, sizeTxInput]
  have outputs : (tx.outs.flatMap TxOutput.object).length = tx.outs.length * 36 := by
    simp [List.length_flatMap, sizeTxOutput]
  rw [objects, List.length_append, List.length_append, inputs, outputs, TxHeader.length_bytes,
    Tx.length_bytes, sizeTxHeader]
  omega

/-! ## One record at most -/

theorem txSerializeRecords_singleton {Record : Type} (record : Record)
    (object : Record → List UInt8) (stride : UInt32) (base : Nat) (counter : UInt32) (dst : Buffer)
    (inside : base + counter.toNat + (object record).length ≤ dst.size) :
    txSerializeRecords [record] object stride base 0 1 counter dst =
      .ok (counter * stride, dst.write (base + counter.toNat) (object record)) := by
  rw [txSerializeRecords, fetch_of_lt (by simp), Run.ok_bind, List.getElem_cons_zero,
    Buffer.store_of_le inside, Run.ok_bind]
  rfl

/-- A transaction with at most one record is written as one run of bytes. -/
theorem txSerialize_of_short {tx : Tx} (dst : Buffer) (base : Nat) (counted : tx.Counted)
    (short : tx.Short) (inside : base + tx.bytes.length ≤ dst.size) :
    txSerialize tx dst base = .ok (dst.write base tx.objects) := by
  obtain ⟨header, ins, outs⟩ := tx
  obtain ⟨insCount, outsCount⟩ := counted
  simp only [Tx.Short] at short insCount outsCount
  rw [Tx.length_bytes] at inside
  simp only at inside
  have headerWritten : txHeaderSerialize header dst (base + posTxHeader) =
      .ok (dst.write base header.bytes) :=
    txHeaderSerialize_eq header dst base (by
      simp only [sizeTxHeader]
      omega)
  have bodyStart : base + (UInt32.ofNat posTxBody).toNat = base + header.bytes.length := rfl
  rw [txSerialize, headerWritten, Run.ok_bind, insCount, outsCount]
  rcases ins with _ | ⟨input, _ | ⟨_, _⟩⟩
  · rcases outs with _ | ⟨output, _ | ⟨_, _⟩⟩
    · simp [txSerializeRecords, Tx.objects]
    · have written := txSerializeRecords_singleton output TxOutput.object (.ofNat sizeTxOutput) base
        (.ofNat posTxBody) (dst.write base header.bytes) (by
          rw [TxOutput.length_object, Buffer.size_write, bodyStart, TxHeader.length_bytes]
          simp only [List.length_cons, List.length_nil, sizeTxHeader, sizeTxOutput] at inside ⊢
          omega)
      simp only [List.length_nil, txSerializeRecords, Run.ok_bind]
      rw [List.length_singleton, written, Run.ok_bind, Buffer.write_append _ _ _ bodyStart]
      simp [Tx.objects]
    · simp only [List.length_cons] at outsCount
      omega
  · rcases outs with _ | ⟨output, _⟩
    · have written := txSerializeRecords_singleton input TxInput.object (.ofNat sizeTxInput) base
        (.ofNat posTxBody) (dst.write base header.bytes) (by
          rw [TxInput.length_object, Buffer.size_write, bodyStart, TxHeader.length_bytes]
          simp only [List.length_cons, List.length_nil, sizeTxHeader, sizeTxInput] at inside ⊢
          omega)
      rw [List.length_singleton, written, Run.ok_bind]
      simp only [List.length_nil, txSerializeRecords, Run.ok_bind, Run.pure_eq_ok]
      rw [Buffer.write_append _ _ _ bodyStart]
      simp [Tx.objects]
    · simp only [List.length_cons] at insCount outsCount
      omega
  · simp only [List.length_cons] at insCount
    omega

/-! ## More records -/

section RecordLoop

variable {Record : Type} {records : List Record} {object : Record → List UInt8} {stride : UInt32}
  {base index remaining : Nat} {counter next : UInt32} {dst after : Buffer}

/-- A record loop that returns leaves everything in front of its cursor alone, and its cursor does
not fall back. -/
theorem txSerializeRecords_below
    (ran : txSerializeRecords records object stride base index remaining counter dst =
      .ok (next, after))
    (positive : 0 < stride.toNat) (narrow : dst.size * stride.toNat < 2 ^ 32) :
    after.size = dst.size ∧ counter.toNat ≤ next.toNat ∧
      ∀ position < base + counter.toNat, after.byte position = dst.byte position := by
  induction remaining generalizing index counter dst with
  | zero =>
      obtain ⟨rfl, rfl⟩ := Prod.mk.inj (Except.ok.inj ran)
      exact ⟨rfl, le_rfl, fun _ _ => rfl⟩
  | succ remaining ih =>
      simp only [txSerializeRecords, Run.bind_eq_ok, Buffer.store_eq_ok] at ran
      obtain ⟨record, _, written, ⟨inside, rfl⟩, rest⟩ := ran
      obtain ⟨size_eq, forward, kept⟩ := ih rest narrow
      have bounded : counter.toNat * stride.toNat ≤ dst.size * stride.toNat :=
        Nat.mul_le_mul_right _ (by omega)
      have advanced : (counter * stride).toNat = counter.toNat * stride.toNat := by
        rw [UInt32.toNat_mul, Nat.mod_eq_of_lt (by omega)]
      have ahead : counter.toNat ≤ counter.toNat * stride.toNat :=
        Nat.le_mul_of_pos_right _ positive
      refine ⟨size_eq, by omega, fun position before => ?_⟩
      rw [kept position (by omega), Buffer.byte_write_of_lt _ _ before]

/-- Between the first record and the multiplied cursor nothing is written. -/
theorem txSerializeRecords_gap
    (ran : txSerializeRecords records object stride base index (remaining + 1) counter dst =
      .ok (next, after))
    (positive : 0 < stride.toNat) (narrow : dst.size * stride.toNat < 2 ^ 32) :
    after.size = dst.size ∧ (counter * stride).toNat ≤ next.toNat ∧
      ∀ position, (∀ record, base + counter.toNat + (object record).length ≤ position) →
        position < base + (counter * stride).toNat → after.byte position = dst.byte position := by
  simp only [txSerializeRecords, Run.bind_eq_ok, Buffer.store_eq_ok] at ran
  obtain ⟨record, _, written, ⟨inside, rfl⟩, rest⟩ := ran
  obtain ⟨size_eq, forward, kept⟩ := txSerializeRecords_below rest positive narrow
  refine ⟨size_eq, forward, fun position behind before => ?_⟩
  rw [kept position before, Buffer.byte_write_of_ge _ _ (behind record)]

/-- The cursor of iteration `i + 1` is the one of iteration `i` after the first multiplication. -/
theorem cursor_succ (counter stride : UInt32) (i : Nat) :
    counter * stride * stride ^ i = counter * stride ^ (i + 1) := by
  rw [UInt32.pow_succ, UInt32.mul_comm (stride ^ i), ← UInt32.mul_assoc]

/-- A record loop that returns has multiplied its cursor once for each record, and every cursor it
wrote at was inside the destination. -/
theorem txSerializeRecords_inside {width : Nat} (sized : ∀ record, (object record).length = width)
    (ran : txSerializeRecords records object stride base index remaining counter dst =
      .ok (next, after)) :
    after.size = dst.size ∧ next = counter * stride ^ remaining ∧
      ∀ i < remaining, base + (counter * stride ^ i).toNat + width ≤ dst.size := by
  induction remaining generalizing index counter dst with
  | zero =>
      obtain ⟨rfl, rfl⟩ := Prod.mk.inj (Except.ok.inj ran)
      exact ⟨rfl, by rw [UInt32.pow_zero, UInt32.mul_one], fun i before => by omega⟩
  | succ remaining ih =>
      simp only [txSerializeRecords, Run.bind_eq_ok, Buffer.store_eq_ok, sized] at ran
      obtain ⟨record, _, written, ⟨inside, rfl⟩, rest⟩ := ran
      obtain ⟨size_eq, next_eq, later⟩ := ih rest
      refine ⟨size_eq, by rw [next_eq, cursor_succ], fun i before => ?_⟩
      cases i with
      | zero => rwa [UInt32.pow_zero, UInt32.mul_one]
      | succ i =>
          rw [← cursor_succ]
          exact later i (by omega)

/-- A record loop returns when every cursor it multiplies itself to is inside the destination. -/
theorem exists_txSerializeRecords {width : Nat} (sized : ∀ record, (object record).length = width)
    (present : index + remaining ≤ records.length)
    (inside : ∀ i < remaining, base + (counter * stride ^ i).toNat + width ≤ dst.size) :
    ∃ after, txSerializeRecords records object stride base index remaining counter dst =
      .ok (counter * stride ^ remaining, after) ∧ after.size = dst.size := by
  induction remaining generalizing index counter dst with
  | zero => exact ⟨dst, by rw [txSerializeRecords, UInt32.pow_zero, UInt32.mul_one], rfl⟩
  | succ remaining ih =>
      have within : index < records.length := by omega
      have first := inside 0 (Nat.succ_pos remaining)
      rw [UInt32.pow_zero, UInt32.mul_one, ← sized records[index]] at first
      have later : ∀ i < remaining, base + (counter * stride * stride ^ i).toNat + width ≤
          (dst.write (base + counter.toNat) (object records[index])).size := by
        intro i before
        rw [cursor_succ]
        exact inside (i + 1) (Nat.succ_lt_succ before)
      obtain ⟨after, rest, size_eq⟩ := ih (by omega : index + 1 + remaining ≤ _) later
      refine ⟨after, ?_, size_eq⟩
      rw [txSerializeRecords, fetch_of_lt within, Run.ok_bind, Buffer.store_of_le first,
        Run.ok_bind, rest, cursor_succ]

end RecordLoop

section WorkBuffer

variable {tx : Tx} {dst after : Buffer}

/-- A run of the serializer on a work buffer is a run of each record loop. -/
theorem loops_of_txSerialize (room : sizeTxHeader ≤ dst.size)
    (ran : txSerialize tx dst 0 = .ok after) :
    ∃ counter filled last,
      txSerializeRecords tx.ins TxInput.object (.ofNat sizeTxInput) 0 0 tx.header.inCount.toNat
        (.ofNat posTxBody) (dst.write 0 tx.header.bytes) = .ok (counter, filled) ∧
      txSerializeRecords tx.outs TxOutput.object (.ofNat sizeTxOutput) 0 0
        tx.header.outCount.toNat counter filled = .ok (last, after) := by
  have fits : 0 + posTxHeader + sizeTxHeader ≤ dst.size := by
    rwa [posTxHeader, Nat.zero_add]
  simp only [txSerialize, txHeaderSerialize_eq _ _ _ fits, Run.ok_bind, Run.bind_eq_ok,
    Run.pure_eq_ok, Prod.exists] at ran
  obtain ⟨counter, filled, insRan, last, result, outsRan, returned⟩ := ran
  obtain rfl := Except.ok.inj returned
  exact ⟨counter, filled, last, insRan, outsRan⟩

theorem size_of_txSerialize (room : sizeTxHeader ≤ dst.size)
    (ran : txSerialize tx dst 0 = .ok after) : after.size = dst.size := by
  obtain ⟨counter, filled, last, insRan, outsRan⟩ := loops_of_txSerialize room ran
  have filledSize := (txSerializeRecords_inside TxInput.length_object insRan).1
  exact (txSerializeRecords_inside TxOutput.length_object outsRan).1.trans filledSize

/-! ## How many records fit -/

/-- The cursors the two record loops write at: that of an input, and that of an output behind all
inputs. -/
def inputCursor (i : Nat) : UInt32 := .ofNat posTxBody * .ofNat sizeTxInput ^ i

def outputCursor (inCount i : Nat) : UInt32 := inputCursor inCount * .ofNat sizeTxOutput ^ i

/-- Every record the counts of a transaction name has its cursor inside a destination. -/
structure Tx.RecordsInside (tx : Tx) (size : Nat) : Prop where
  ins : ∀ i < tx.header.inCount.toNat, (inputCursor i).toNat + sizeTxInput ≤ size
  outs : ∀ i < tx.header.outCount.toNat,
    (outputCursor tx.header.inCount.toNat i).toNat + sizeTxOutput ≤ size

theorem recordsInside_of_txSerialize (room : sizeTxHeader ≤ dst.size)
    (ran : txSerialize tx dst 0 = .ok after) : tx.RecordsInside dst.size := by
  obtain ⟨counter, filled, last, insRan, outsRan⟩ := loops_of_txSerialize room ran
  obtain ⟨filledSize, rfl, ins⟩ := txSerializeRecords_inside TxInput.length_object insRan
  obtain ⟨_, _, outs⟩ := txSerializeRecords_inside TxOutput.length_object outsRan
  rw [Buffer.size_write] at ins filledSize
  rw [filledSize] at outs
  simp only [Nat.zero_add] at ins outs
  exact ⟨ins, outs⟩

/-- The cursors of the input loop are 10, 2900, 841000 and 243890000; the last is outside any
destination that is shorter. -/
theorem inCount_le_of_txSerialize (room : sizeTxHeader ≤ dst.size) (small : dst.size < 243890290)
    (ran : txSerialize tx dst 0 = .ok after) : tx.header.inCount.toNat ≤ 3 := by
  by_contra many
  have inside := (recordsInside_of_txSerialize room ran).ins 3 (by omega)
  have fourth : (inputCursor 3).toNat = 243890000 := rfl
  rw [fourth, sizeTxInput] at inside
  omega

/-- How many outputs the work buffer of the Merkle root holds behind up to three inputs. -/
def outputsThatFit (inCount : Nat) : Nat := [4, 2, 1, 0].getD inCount 0

/-- The records of a transaction fit the work buffer. -/
def Tx.FitsWorkBuffer (tx : Tx) : Prop :=
  tx.header.inCount.toNat ≤ 3 ∧ tx.header.outCount.toNat ≤ outputsThatFit tx.header.inCount.toNat

instance (tx : Tx) : Decidable tx.FitsWorkBuffer := inferInstanceAs (Decidable (_ ∧ _))

theorem Tx.recordsInside_maxTxSize_iff : tx.RecordsInside maxTxSize ↔ tx.FitsWorkBuffer := by
  have inputOutside : maxTxSize < (inputCursor 3).toNat + sizeTxInput := by decide
  have outputOutside : ∀ inCount ≤ 3,
      maxTxSize < (outputCursor inCount (outputsThatFit inCount)).toNat + sizeTxOutput := by decide
  have inputInside : ∀ i < 3, (inputCursor i).toNat + sizeTxInput ≤ maxTxSize := by decide
  have outputInside : ∀ inCount ≤ 3, ∀ i < outputsThatFit inCount,
      (outputCursor inCount i).toNat + sizeTxOutput ≤ maxTxSize := by decide
  constructor
  · rintro ⟨ins, outs⟩
    have few : tx.header.inCount.toNat ≤ 3 := by
      by_contra many
      exact Nat.not_le.mpr inputOutside (ins 3 (Nat.lt_of_not_le many))
    refine ⟨few, ?_⟩
    by_contra many
    exact Nat.not_le.mpr (outputOutside _ few) (outs _ (Nat.lt_of_not_le many))
  · rintro ⟨few, behind⟩
    exact ⟨fun i before => inputInside i (Nat.lt_of_lt_of_le before few),
      fun i before => outputInside _ few i (Nat.lt_of_lt_of_le before behind)⟩

/-- What is hashed of such a transaction is in the work buffer. -/
theorem Tx.FitsWorkBuffer.size_le (fits : tx.FitsWorkBuffer) :
    (txComputeSize tx).toNat ≤ maxTxSize := by
  have outputs : ∀ inCount ≤ 3, outputsThatFit inCount ≤ 4 := by decide
  have few := fits.1
  have behind := fits.2.trans (outputs _ few)
  rw [toNat_txComputeSize, maxTxSize]
  omega

/-- A counted transaction is serialized into a buffer of the size of the work buffer exactly when
its records fit. -/
theorem exists_txSerialize_iff (counted : tx.Counted) (size_eq : dst.size = maxTxSize) :
    (∃ after, txSerialize tx dst 0 = .ok after) ↔ tx.FitsWorkBuffer := by
  have room : sizeTxHeader ≤ dst.size := by
    rw [size_eq]
    decide
  rw [← Tx.recordsInside_maxTxSize_iff, ← size_eq]
  constructor
  · rintro ⟨after, ran⟩
    exact recordsInside_of_txSerialize room ran
  · rintro ⟨ins, outs⟩
    have fits : 0 + posTxHeader + sizeTxHeader ≤ dst.size := by
      rwa [posTxHeader, Nat.zero_add]
    rw [counted.ins] at ins outs
    rw [counted.outs] at outs
    obtain ⟨filled, insRan, filledSize⟩ : ∃ filled,
        txSerializeRecords tx.ins TxInput.object (.ofNat sizeTxInput) 0 0 tx.ins.length
          (.ofNat posTxBody) (dst.write (0 + posTxHeader) tx.header.bytes) =
            .ok (inputCursor tx.ins.length, filled) ∧ filled.size = dst.size :=
      exists_txSerializeRecords TxInput.length_object (by omega) fun i before =>
        (Nat.zero_add (inputCursor i).toNat).symm ▸ ins i before
    obtain ⟨after, outsRan, _⟩ : ∃ after,
        txSerializeRecords tx.outs TxOutput.object (.ofNat sizeTxOutput) 0 0 tx.outs.length
          (inputCursor tx.ins.length) filled =
            .ok (outputCursor tx.ins.length tx.outs.length, after) ∧ after.size = filled.size :=
      exists_txSerializeRecords TxOutput.length_object (by omega) fun i before => by
        rw [filledSize, Nat.zero_add]
        exact outs i before
    refine ⟨after, ?_⟩
    rw [txSerialize, txHeaderSerialize_eq _ _ _ fits, Run.ok_bind, counted.ins, insRan, Run.ok_bind,
      counted.outs]
    change (txSerializeRecords _ _ _ _ _ _ (inputCursor tx.ins.length) _ >>= _) = _
    rw [outsRan]
    rfl

end WorkBuffer

/-! ## What more records leave out -/

/-- The byte right behind the first record. -/
def Tx.gap (tx : Tx) : Nat :=
  if tx.header.inCount = 0 then posTxBody + sizeTxOutput else posTxBody + sizeTxInput

/-- With more than one record that byte is among those the transaction should fill. -/
theorem Tx.gap_lt_size {tx : Tx} (long : ¬ tx.Short) : tx.gap < (txComputeSize tx).toNat := by
  rw [toNat_txComputeSize, gap]
  simp only [Short] at long
  have zero_iff : tx.header.inCount = 0 ↔ tx.header.inCount.toNat = 0 := by
    rw [← UInt16.toNat_inj]
    rfl
  simp only [zero_iff, posTxBody, sizeTxHeader, sizeTxOutput, sizeTxInput]
  split <;> omega

/-- With more than one record the serializer leaves the byte behind the first one as it was. -/
theorem byte_gap_of_txSerialize {tx : Tx} {dst after : Buffer} (long : ¬ tx.Short)
    (ran : txSerialize tx dst 0 = .ok after) (room : sizeTxHeader ≤ dst.size)
    (small : dst.size * sizeTxInput < 2 ^ 32) : after.byte tx.gap = dst.byte tx.gap := by
  have narrow : ∀ {stride : UInt32}, stride.toNat ≤ sizeTxInput →
      dst.size * stride.toNat < 2 ^ 32 := fun shorter =>
    lt_of_le_of_lt (Nat.mul_le_mul_left _ shorter) small
  have bodyStart : (UInt32.ofNat posTxBody).toNat = 10 := rfl
  have secondInput : (UInt32.ofNat posTxBody * UInt32.ofNat sizeTxInput).toNat = 2900 := rfl
  have secondOutput : (UInt32.ofNat posTxBody * UInt32.ofNat sizeTxOutput).toNat = 360 := rfl
  obtain ⟨counter, filled, last, insRan, outsRan⟩ := loops_of_txSerialize room ran
  simp only [Tx.Short] at long
  rw [Tx.gap]
  cases inCount : tx.header.inCount.toNat with
  | zero =>
      -- No input: the gap is the one between the first two outputs.
      have absent : tx.header.inCount = 0 := UInt16.toNat_inj.mp inCount
      rw [inCount] at insRan
      obtain ⟨rfl, rfl⟩ := Prod.mk.inj (Except.ok.inj insRan)
      obtain ⟨more, outCount⟩ : ∃ more, tx.header.outCount.toNat = more + 1 :=
        Nat.exists_eq_succ_of_ne_zero (by omega)
      rw [outCount] at outsRan
      obtain ⟨_, _, kept⟩ := txSerializeRecords_gap outsRan (by decide) (narrow (by decide))
      have gap_eq : posTxBody + sizeTxOutput = 46 := rfl
      rw [if_pos absent, gap_eq,
        kept 46 (fun output => by rw [TxOutput.length_object, bodyStart, sizeTxOutput])
          (by rw [secondOutput]; omega),
        Buffer.byte_write_of_ge _ _ (by rw [TxHeader.length_bytes]; decide)]
  | succ more =>
      have present : ¬ tx.header.inCount = 0 := fun absent => by simp [absent] at inCount
      rw [inCount] at insRan
      obtain ⟨filledSize, forward, kept⟩ :=
        txSerializeRecords_gap insRan (by decide) (narrow (by decide))
      rw [secondInput] at forward kept
      obtain ⟨_, _, keptOuts⟩ := txSerializeRecords_below outsRan (by decide)
        (by rw [filledSize]; exact narrow (by decide))
      have gap_eq : posTxBody + sizeTxInput = 300 := rfl
      rw [if_neg present, gap_eq, keptOuts 300 (by omega),
        kept 300 (fun input => by rw [TxInput.length_object, bodyStart, sizeTxInput]) (by omega),
        Buffer.byte_write_of_ge _ _ (by rw [TxHeader.length_bytes]; decide)]

/-! ## When the objects are the canonical bytes -/

theorem TxInput.object_eq_bytes_iff (input : TxInput) :
    input.object = input.bytes ↔ hostShort input.outIndex = ustob input.outIndex := by
  simp [object, bytes, List.append_assoc]

theorem TxOutput.object_eq_bytes_iff (output : TxOutput) :
    output.object = output.bytes ↔ hostInt output.amount = uitob output.amount := by
  simp [object, bytes]

/-- The integers of a short transaction read the same in both byte orders exactly when its objects
are its canonical bytes. -/
theorem Tx.objects_eq_bytes_iff {tx : Tx} (counted : tx.Counted) (short : tx.Short) :
    tx.objects = tx.bytes ↔
      (∀ input ∈ tx.ins, hostShort input.outIndex = ustob input.outIndex) ∧
        ∀ output ∈ tx.outs, hostInt output.amount = uitob output.amount := by
  obtain ⟨header, ins, outs⟩ := tx
  obtain ⟨insCount, outsCount⟩ := counted
  simp only [Tx.Short] at short insCount outsCount
  simp only [objects, bytes, RecordCodec.encodeAll, List.append_cancel_left_eq]
  rcases ins with _ | ⟨input, _ | ⟨_, _⟩⟩
  · rcases outs with _ | ⟨output, _ | ⟨_, _⟩⟩
    · simp
    · simpa [txOutputCodec] using output.object_eq_bytes_iff
    · simp only [List.length_cons] at outsCount
      omega
  · rcases outs with _ | ⟨output, _⟩
    · simpa [txInputCodec] using input.object_eq_bytes_iff
    · simp only [List.length_cons] at insCount outsCount
      omega
  · simp only [List.length_cons] at insCount
    omega

/-! ## Canonical encodings -/

/-- The serializer does what the record encoders do in sequence, and nothing else: whatever the
destination held, it has the bytes they write, keeps those behind them, and is read back as the
transaction. -/
def Tx.SerializedCanonically (tx : Tx) : Prop :=
  ∀ dst : Buffer, (txComputeSize tx).toNat ≤ dst.size →
    ∃ after canonical, txSerialize tx dst 0 = .ok after ∧ txEncodeRecords tx dst = .ok canonical ∧
      after.window 0 (txComputeSize tx).toNat = canonical.window 0 (txComputeSize tx).toNat ∧
      (∀ position, (txComputeSize tx).toNat ≤ position →
        after.byte position = dst.byte position) ∧
      mTxDeserialize (after.window 0 after.size) = .ok tx

section Canonical

variable {tx : Tx} (counted : tx.Counted)

include counted

/-- A transaction that is serialized canonically has the canonical bytes in front. -/
theorem Tx.SerializedCanonically.window_eq (canonically : tx.SerializedCanonically) {dst : Buffer}
    (room : (txComputeSize tx).toNat ≤ dst.size) :
    ∃ after, txSerialize tx dst 0 = .ok after ∧
      after.window 0 (txComputeSize tx).toNat = tx.bytes := by
  obtain ⟨after, canonical, serialized, encoded, same, _⟩ := canonically dst room
  rw [toNat_txComputeSize_of_counted counted] at room same ⊢
  obtain rfl := Except.ok.inj ((txEncodeRecords_eq room).symm.trans encoded)
  rw [Buffer.window_write_self] at same
  exact ⟨after, serialized, same⟩

/-- With more than one record some byte is left out of the encoding. -/
theorem Tx.SerializedCanonically.short (canonically : tx.SerializedCanonically) : tx.Short := by
  by_contra long
  have gap_lt := tx.gap_lt_size long
  -- Destinations of exactly the size of the transaction, filled with one byte.
  let filled (byte : UInt8) : Buffer := ⟨(txComputeSize tx).toNat, fun _ => byte⟩
  have kept : ∀ byte : UInt8, byte = tx.bytes.getD tx.gap 0 := by
    intro byte
    obtain ⟨after, serialized, window⟩ := canonically.window_eq counted (le_refl (filled byte).size)
    have size_eq : (filled byte).size = 10 + tx.header.inCount.toNat * 290 +
        tx.header.outCount.toNat * 36 := toNat_txComputeSize tx
    have inBound := tx.header.inCount.toNat_lt
    have outBound := tx.header.outCount.toNat_lt
    have room : sizeTxHeader ≤ (filled byte).size := by
      rw [sizeTxHeader]
      omega
    have few := inCount_le_of_txSerialize room (by omega) serialized
    have unchanged := byte_gap_of_txSerialize long serialized room (by rw [sizeTxInput]; omega)
    have inWindow : tx.gap < (after.window 0 (txComputeSize tx).toNat).length := by
      rwa [Buffer.length_window]
    have stored := after.getElem_window 0 (txComputeSize tx).toNat tx.gap inWindow
    rw [Nat.zero_add, unchanged] at stored
    rw [← window, List.getD_eq_getElem?_getD, List.getElem?_eq_getElem inWindow, stored]
    rfl
  exact absurd ((kept 0).trans (kept 1).symm) (by decide)

/-- A transaction is serialized canonically exactly when it has at most one record and the integer
of that record reads the same in both byte orders. -/
theorem Tx.serializedCanonically_iff :
    tx.SerializedCanonically ↔
      tx.Short ∧ (∀ input ∈ tx.ins, hostShort input.outIndex = ustob input.outIndex) ∧
        ∀ output ∈ tx.outs, hostInt output.amount = uitob output.amount := by
  constructor
  · intro canonically
    have short := canonically.short counted
    refine ⟨short, (Tx.objects_eq_bytes_iff counted short).mp ?_⟩
    let zeros : Buffer := ⟨(txComputeSize tx).toNat, fun _ => 0⟩
    have room : (txComputeSize tx).toNat ≤ zeros.size := le_rfl
    obtain ⟨after, serialized, window⟩ := canonically.window_eq counted room
    rw [toNat_txComputeSize_of_counted counted] at room window
    rw [txSerialize_of_short zeros 0 counted short (by rwa [Nat.zero_add])] at serialized
    obtain rfl := Except.ok.inj serialized
    rw [← tx.length_objects, Buffer.window_write_self] at window
    exact window
  · rintro ⟨short, palindromic⟩ dst room
    have objects := (Tx.objects_eq_bytes_iff counted short).mpr palindromic
    rw [toNat_txComputeSize_of_counted counted] at room ⊢
    refine ⟨dst.write 0 tx.bytes, dst.write 0 tx.bytes, ?_, txEncodeRecords_eq room, rfl, ?_, ?_⟩
    · rw [← objects]
      exact txSerialize_of_short dst 0 counted short (by rwa [Nat.zero_add])
    · exact fun position behind =>
        Buffer.byte_write_of_ge _ _ (by rwa [Nat.zero_add])
    · obtain ⟨spare, size_eq⟩ := Nat.exists_eq_add_of_le room
      rw [Buffer.size_write, size_eq, Buffer.window_append, Buffer.window_write_self]
      exact mTxDeserialize_bytes counted _

end Canonical

/-- A transaction without inputs and with one output. -/
def coinbaseOf (amount : UInt32) : Tx where
  header := { version := 2, inCount := 0, outCount := 1, lockTime := 0 }
  ins := []
  outs := [{ outAddr := List.Vector.replicate 32 0, amount }]

theorem coinbaseOf_counted (amount : UInt32) : (coinbaseOf amount).Counted := ⟨rfl, rfl⟩

/-- An amount of nothing is the same in both byte orders. -/
theorem serializedCanonically_coinbaseOf_zero :
    (coinbaseOf 0).Counted ∧ (coinbaseOf 0).SerializedCanonically :=
  ⟨coinbaseOf_counted 0, (Tx.serializedCanonically_iff (coinbaseOf_counted 0)).mpr (by decide)⟩

/-- An amount of one is written with its lowest byte first. -/
theorem serializedCanonically_coinbaseOf_one_fails :
    (coinbaseOf 1).Counted ∧ ¬ (coinbaseOf 1).SerializedCanonically := by
  have counted := coinbaseOf_counted 1
  refine ⟨counted, fun canonically => ?_⟩
  obtain ⟨after, serialized, window⟩ :=
    canonically.window_eq counted (by decide : _ ≤ (Buffer.mk 46 fun _ => 0).size)
  rw [txSerialize_of_short _ 0 counted (by decide) (by decide)] at serialized
  obtain rfl := Except.ok.inj serialized
  have size_eq : (txComputeSize (coinbaseOf 1)).toNat = (coinbaseOf 1).objects.length := by decide
  rw [size_eq, Buffer.window_write_self] at window
  exact absurd window (by decide)

end Freecoin
