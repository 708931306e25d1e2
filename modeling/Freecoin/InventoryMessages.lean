import Freecoin.Bytes
import Freecoin.MessageQueue

/-!
# Inventory messages

`handle_inv` and `handle_getdata` of the client.  A message is a data type, a count and as many
hashes.  The count is read with `btous`, which takes two bytes, and the byte that is left of them
is the one behind the count.
-/

namespace Freecoin

open Foundation

variable {Peer : Type}

/-! ## Messages -/

/-- `MAX_MSG_SIZE`, the size of the buffer a message is received into. -/
def maxMsgSize : Nat := 1024 * 1024

/-- The data types of the protocol. -/
def dtypeBlock : UInt8 := 0
def dtypeTx : UInt8 := 1

/-- What a handler is called with: the whole buffer, and the size of the message in it. -/
structure ReceivedMessage where
  buffer : Bytes maxMsgSize
  size : UInt16

/-- A message as it was built.  Its first two bytes are taken for its size. -/
structure RawMessage where
  size : UInt16
  rest : List UInt8

def RawMessage.bytes (raw : RawMessage) : List UInt8 :=
  ustob raw.size ++ raw.rest

/-- The functions of the client that are declared and not defined; a builder may return `NULL`. -/
structure ClientCalls where
  ioIsBlock : Digest → Bool
  mempoolContains : Digest → Bool
  mBuildGetdata : (datatype count : UInt8) → (ids : List UInt8) → Option RawMessage
  mBuildBlock : Digest → Option RawMessage
  mBuildTx : Digest → Option RawMessage

/-! ## Handlers -/

/-- `uint8_t count = btous(&buffer[1])`. -/
def messageCount (buffer : List UInt8) : Run UInt8 := do
  let count ← btous (buffer.drop 1)
  return count.toUInt8

/-- `size-2 != count*SIZE_SHA256`, in `int`. -/
def MalformedMessage (size : UInt16) (count : UInt8) : Prop :=
  (size.toNat : Int) - 2 ≠ (count.toNat * sizeSha256 : Nat)

instance (size : UInt16) (count : UInt8) : Decidable (MalformedMessage size count) :=
  inferInstanceAs (Decidable (_ ≠ _))

/-- `&buffer[2+i*SIZE_SHA256]`. -/
def messageHash (buffer : List UInt8) (i : Nat) : List UInt8 :=
  buffer.drop (2 + i * sizeSha256)

/-- `msgqueue_enqueue(peer->sendqueue, raw, btous(raw), 0, peer)`, as the message it is called
with.  The call in `handle_getdata` leaves out the type. -/
def enqueuedMessage (raw : RawMessage) (peer : Peer) : Run (Message Peer) := do
  let size ← btous raw.bytes
  return { raw := raw.bytes, size := size.toUInt32, type := 0, peer }

/-- The condition under which `handle_inv` asks for a hash. -/
def invMisses (calls : ClientCalls) (buffer currHash : List UInt8) : Run Bool := do
  let datatype ← fetch buffer 0
  if datatype = dtypeBlock then
    let hash ← copyOut 32 currHash
    return !calls.ioIsBlock hash
  else if datatype = dtypeTx then
    let hash ← copyOut 32 currHash
    return !calls.mempoolContains hash
  else
    return false

/-- The loop of `handle_inv`. -/
def invLoop (calls : ClientCalls) (buffer : List UInt8) :
    (i remaining : Nat) → (missingHashes : Buffer) → (missingHashesc : UInt8) →
      Run (Buffer × UInt8)
  | _, 0, missingHashes, missingHashesc => .ok (missingHashes, missingHashesc)
  | i, remaining + 1, missingHashes, missingHashesc => do
      let currHash := messageHash buffer i
      let misses ← invMisses calls buffer currHash
      if misses then
        let hash ← copyOut 32 currHash
        let missingHashes ←
          missingHashes.store (missingHashesc.toNat * sizeSha256) hash.toList
        invLoop calls buffer (i + 1) remaining missingHashes (missingHashesc + 1)
      else
        invLoop calls buffer (i + 1) remaining missingHashes missingHashesc

/-- `handle_inv`: nothing for a message that is malformed, and else the messages it enqueues.  The
allocated array holds `fresh` until it is written, and `m_build_getdata` reads as many ids out of
it as it is told. -/
def handleInv (calls : ClientCalls) (fresh : Nat → UInt8) (buffer : List UInt8) (size : UInt16)
    (peer : Peer) : Run (Option (List (Message Peer))) := do
  let count ← messageCount buffer
  if MalformedMessage size count then
    return none
  else
    let allocated : Buffer := ⟨sizeSha256 * count.toNat, fresh⟩
    let (missingHashes, missingHashesc) ← invLoop calls buffer 0 count.toNat allocated 0
    let datatype ← fetch buffer 0
    let ids ← missingHashes.read 0 (missingHashesc.toNat * sizeSha256)
    match calls.mBuildGetdata datatype missingHashesc ids with
    | none => return some []
    | some raw =>
        let message ← enqueuedMessage raw peer
        return some [message]

/-- What `handle_getdata` leaves in `raw` for a hash; without a value the variable is `none`. -/
def getdataBuild (calls : ClientCalls) (buffer currHash : List UInt8)
    (raw : Option (Option RawMessage)) : Run (Option (Option RawMessage)) := do
  let datatype ← fetch buffer 0
  if datatype = dtypeBlock then
    let hash ← copyOut 32 currHash
    return some (calls.mBuildBlock hash)
  else if datatype = dtypeTx then
    let hash ← copyOut 32 currHash
    return some (calls.mBuildTx hash)
  else
    return raw

/-- The loop of `handle_getdata`.  What `raw` points to is freed once it was enqueued. -/
def getdataLoop (calls : ClientCalls) (buffer : List UInt8) (peer : Peer) :
    (i remaining : Nat) → (raw : Option (Option RawMessage)) → Run (List (Message Peer))
  | _, 0, _ => .ok []
  | i, remaining + 1, raw => do
      let raw ← getdataBuild calls buffer (messageHash buffer i) raw
      match raw with
      | none => .error .uninitialized
      | some none => getdataLoop calls buffer peer (i + 1) remaining raw
      | some (some built) =>
          let message ← enqueuedMessage built peer
          let messages ← getdataLoop calls buffer peer (i + 1) remaining none
          return message :: messages

/-- `handle_getdata`; nothing is done about `DTYPE_PEER`. -/
def handleGetdata (calls : ClientCalls) (buffer : List UInt8) (size : UInt16) (peer : Peer) :
    Run (Option (List (Message Peer))) := do
  let _ ← fetch buffer 0
  let count ← messageCount buffer
  if MalformedMessage size count then
    return none
  else
    let messages ← getdataLoop calls buffer peer 0 count.toNat none
    return some messages

/-! ## What the protocol says -/

/-- Hash `i` of a message. -/
def hashAt (buffer : List UInt8) (i : Nat) : Digest :=
  ⟨(List.range 32).map fun j => buffer.getD (2 + i * sizeSha256 + j) 0, by simp⟩

/-- The `count` hashes of a message from hash `i` on. -/
def messageHashes (buffer : List UInt8) (i count : Nat) : List Digest :=
  (List.range' i count).map (hashAt buffer)

/-- The message that is enqueued for a message that was built. -/
def RawMessage.message (raw : RawMessage) (peer : Peer) : Message Peer :=
  { raw := raw.bytes, size := raw.size.toUInt32, type := 0, peer }

/-- The client has no block, or no transaction, of this hash. -/
def ClientCalls.lacks (calls : ClientCalls) (datatype : UInt8) (hash : Digest) : Bool :=
  if datatype = dtypeBlock then !calls.ioIsBlock hash
  else if datatype = dtypeTx then !calls.mempoolContains hash
  else false

/-- What the client builds for a hash it is asked for. -/
def ClientCalls.build (calls : ClientCalls) (datatype : UInt8) (hash : Digest) :
    Option RawMessage :=
  if datatype = dtypeBlock then calls.mBuildBlock hash
  else if datatype = dtypeTx then calls.mBuildTx hash
  else none

/-- An inv is answered by a request for the hashes that the client lacks. -/
def invMessages (calls : ClientCalls) (datatype : UInt8) (hashes : List Digest) (peer : Peer) :
    List (Message Peer) :=
  let missing := hashes.filter (calls.lacks datatype)
  let raw := calls.mBuildGetdata datatype (.ofNat missing.length)
    (missing.flatMap List.Vector.toList)
  raw.toList.map fun raw => raw.message peer

/-- A request is answered by what could be built, one message for each hash. -/
def getdataMessages (calls : ClientCalls) (datatype : UInt8) (hashes : List Digest) (peer : Peer) :
    List (Message Peer) :=
  (hashes.filterMap (calls.build datatype)).map fun raw => raw.message peer

/-! ## One hash -/

theorem toList_hashAt (buffer : List UInt8) (i : Nat) : (hashAt buffer i).toList =
    (List.range 32).map fun j => buffer.getD (2 + i * sizeSha256 + j) 0 := rfl

theorem length_messageHash (buffer : List UInt8) (i : Nat) :
    (messageHash buffer i).length = buffer.length - (2 + i * sizeSha256) := List.length_drop

/-- What a handler reads at a hash. -/
theorem copyOut_messageHash {buffer : List UInt8} {i : Nat}
    (inside : 2 + (i + 1) * sizeSha256 ≤ buffer.length) :
    copyOut 32 (messageHash buffer i) = .ok (hashAt buffer i) := by
  rw [copyOut_eq_ok]
  simp only [sizeSha256] at inside
  refine ⟨by rw [length_messageHash, sizeSha256]; omega, ?_⟩
  apply List.ext_getElem
  · simp [messageHash, sizeSha256]
    omega
  · intro j left right
    rw [List.Vector.toList_length] at left
    have within : 2 + i * 32 + j < buffer.length := by omega
    simp [hashAt, messageHash, sizeSha256, within]

theorem messageHashes_succ (buffer : List UInt8) (i count : Nat) :
    messageHashes buffer i (count + 1) =
      hashAt buffer i :: messageHashes buffer (i + 1) count := rfl

/-- What a handler reads as the data type. -/
theorem fetch_datatype {buffer : List UInt8} (nonempty : 0 < buffer.length) :
    fetch buffer 0 = .ok (buffer.getD 0 0) := by
  rw [fetch_of_lt nonempty, ← List.getElem_eq_getD 0]

theorem invMisses_eq {calls : ClientCalls} {buffer : List UInt8} {i : Nat}
    (inside : 2 + (i + 1) * sizeSha256 ≤ buffer.length) :
    invMisses calls buffer (messageHash buffer i) =
      .ok (calls.lacks (buffer.getD 0 0) (hashAt buffer i)) := by
  rw [invMisses, fetch_datatype (by omega), Run.ok_bind, copyOut_messageHash inside,
    ClientCalls.lacks]
  split
  · rfl
  · split <;> rfl

/-! ## The loops -/

/-- Of the hashes that are left, the first one and the others are inside. -/
theorem hash_inside {length i remaining : Nat}
    (inside : 2 + (i + (remaining + 1)) * sizeSha256 ≤ length) :
    2 + (i + 1) * sizeSha256 ≤ length ∧ 2 + (i + 1 + remaining) * sizeSha256 ≤ length := by
  rw [sizeSha256] at inside ⊢
  omega

/-- The loop of `handle_inv` collects the hashes that the client lacks, behind those it has. -/
theorem invLoop_eq {calls : ClientCalls} {buffer : List UInt8} {i remaining : Nat}
    {missingHashes : Buffer} {missingHashesc : UInt8}
    (inside : 2 + (i + remaining) * sizeSha256 ≤ buffer.length)
    (room : (missingHashesc.toNat + remaining) * sizeSha256 ≤ missingHashes.size)
    (small : missingHashesc.toNat + remaining < 256) :
    invLoop calls buffer i remaining missingHashes missingHashesc =
      .ok (missingHashes.write (missingHashesc.toNat * sizeSha256)
          (((messageHashes buffer i remaining).filter
            (calls.lacks (buffer.getD 0 0))).flatMap List.Vector.toList),
        missingHashesc + .ofNat ((messageHashes buffer i remaining).filter
          (calls.lacks (buffer.getD 0 0))).length) := by
  induction remaining generalizing i missingHashes missingHashesc with
  | zero => simp [invLoop, messageHashes]
  | succ remaining ih =>
      obtain ⟨first, others⟩ := hash_inside inside
      rw [invLoop, invMisses_eq first, Run.ok_bind, messageHashes_succ]
      cases lacks : calls.lacks (buffer.getD 0 0) (hashAt buffer i) with
      | false =>
          rw [List.filter_cons_of_neg (ne_true_of_eq_false lacks), if_neg Bool.false_ne_true]
          exact ih others (by simp only [sizeSha256] at room ⊢; omega) (by omega)
      | true =>
          have next : (missingHashesc + 1).toNat = missingHashesc.toNat + 1 := by
            rw [UInt8.toNat_add]
            exact Nat.mod_eq_of_lt (by simp; omega)
          have fits : missingHashesc.toNat * sizeSha256 + (hashAt buffer i).toList.length ≤
              missingHashes.size := by
            simp only [List.Vector.toList_length, sizeSha256] at room ⊢
            omega
          have behind : (missingHashesc + 1).toNat * sizeSha256 =
              missingHashesc.toNat * sizeSha256 + (hashAt buffer i).toList.length := by
            rw [next, List.Vector.toList_length, sizeSha256, Nat.succ_mul]
          have left : ((missingHashesc + 1).toNat + remaining) * sizeSha256 ≤
              (missingHashes.write (missingHashesc.toNat * sizeSha256)
                (hashAt buffer i).toList).size := by
            rw [next, Buffer.size_write]
            simp only [sizeSha256] at room ⊢
            omega
          rw [if_pos rfl, copyOut_messageHash first, Run.ok_bind, Buffer.store_of_le fits,
            Run.ok_bind, ih others left (by omega), List.filter_cons_of_pos lacks,
            List.flatMap_cons, Buffer.write_append _ _ _ behind, List.length_cons]
          simp [UInt8.add_assoc, UInt8.add_comm 1]

theorem enqueuedMessage_eq (raw : RawMessage) (peer : Peer) :
    enqueuedMessage raw peer = .ok (raw.message peer) := by
  rw [enqueuedMessage, RawMessage.bytes, btous_ustob]
  rfl

theorem getdataBuild_eq {calls : ClientCalls} {buffer : List UInt8} {i : Nat}
    {raw : Option (Option RawMessage)} (inside : 2 + (i + 1) * sizeSha256 ≤ buffer.length)
    (known : buffer.getD 0 0 = dtypeBlock ∨ buffer.getD 0 0 = dtypeTx) :
    getdataBuild calls buffer (messageHash buffer i) raw =
      .ok (some (calls.build (buffer.getD 0 0) (hashAt buffer i))) := by
  rw [getdataBuild, fetch_datatype (by omega), Run.ok_bind, copyOut_messageHash inside,
    ClientCalls.build]
  split
  · rfl
  · rename_i other
    rw [if_pos (known.resolve_left other), if_pos (known.resolve_left other)]
    rfl

/-- For blocks and transactions, the loop of `handle_getdata` sends what can be built. -/
theorem getdataLoop_eq {calls : ClientCalls} {buffer : List UInt8} {peer : Peer} {i remaining : Nat}
    {raw : Option (Option RawMessage)}
    (inside : 2 + (i + remaining) * sizeSha256 ≤ buffer.length)
    (known : buffer.getD 0 0 = dtypeBlock ∨ buffer.getD 0 0 = dtypeTx) :
    getdataLoop calls buffer peer i remaining raw =
      .ok (getdataMessages calls (buffer.getD 0 0)
        (messageHashes buffer i remaining) peer) := by
  induction remaining generalizing i raw with
  | zero => rfl
  | succ remaining ih =>
      obtain ⟨first, others⟩ := hash_inside inside
      rw [getdataLoop, getdataBuild_eq first known, Run.ok_bind, messageHashes_succ]
      cases built : calls.build (buffer.getD 0 0) (hashAt buffer i) with
      | none =>
          rw [getdataMessages, List.filterMap_cons_none built]
          exact ih others
      | some message =>
          rw [getdataMessages, List.filterMap_cons_some built]
          simp only [enqueuedMessage_eq, Run.ok_bind, ih others]
          rfl

/-- For any other data type it tests a variable that has no value. -/
theorem getdataLoop_uninitialized {calls : ClientCalls} {buffer : List UInt8} {peer : Peer}
    {i remaining : Nat} (nonempty : 0 < buffer.length)
    (unknown : ¬ (buffer.getD 0 0 = dtypeBlock ∨ buffer.getD 0 0 = dtypeTx)) :
    getdataLoop calls buffer peer i (remaining + 1) none = .error .uninitialized := by
  obtain ⟨notBlock, notTx⟩ := not_or.mp unknown
  rw [getdataLoop, getdataBuild, fetch_datatype nonempty, Run.ok_bind, if_neg notBlock,
    if_neg notTx]
  rfl

/-! ## The test -/

/-- Of the two bytes that are read for the count, the second one is left. -/
theorem messageCount_eq {buffer : List UInt8} (long : 2 < buffer.length) :
    messageCount buffer = .ok (buffer.getD 2 0) := by
  obtain ⟨count, read⟩ := exists_btous (buffer.drop 1) (by
    rw [List.length_drop]
    omega)
  have low : count.toUInt8 = (count &&& 0xff).toUInt8 := by
    apply UInt8.eq_of_toBitVec_eq
    ext bit inside
    interval_cases bit <;> simp
  have second : (buffer.drop 1)[1]? = some (count &&& 0xff).toUInt8 := by
    rw [ustob_of_btous read]
    rfl
  rw [List.getElem?_drop] at second
  rw [messageCount, read, Run.ok_bind, low, List.getD_eq_getElem?_getD, second]
  rfl

theorem messageCount_short {buffer : List UInt8} (short : buffer.length ≤ 2) :
    messageCount buffer = .error .outOfBounds := by
  have tail : (buffer.drop 1).length < 2 := by
    rw [List.length_drop]
    omega
  rw [messageCount]
  rcases rest : buffer.drop 1 with _ | ⟨first, _ | ⟨second, others⟩⟩
  · rfl
  · rfl
  · rw [rest, List.length_cons, List.length_cons] at tail
    omega

theorem not_malformedMessage_iff {size : UInt16} {count : UInt8} :
    ¬ MalformedMessage size count ↔ size.toNat = 2 + 32 * count.toNat := by
  rw [MalformedMessage, not_not, sizeSha256]
  omega

section Handlers

variable {calls : ClientCalls} {fresh : Nat → UInt8} {buffer : List UInt8} {size : UInt16}
  {peer : Peer}

theorem handleInv_malformed (long : 2 < buffer.length)
    (other : size.toNat ≠ 2 + 32 * (buffer.getD 2 0).toNat) :
    handleInv calls fresh buffer size peer = .ok none := by
  have malformed : MalformedMessage size (buffer.getD 2 0) :=
    not_not.mp (mt not_malformedMessage_iff.mp other)
  rw [handleInv, messageCount_eq long, Run.ok_bind, if_pos malformed]
  rfl

/-- The loop of `handle_inv` leaves the missing hashes and their number. -/
theorem exists_invLoop (calls : ClientCalls) (fresh : Nat → UInt8) {buffer : List UInt8}
    {count : UInt8} (inside : 2 + 32 * count.toNat ≤ buffer.length) {missing : List Digest}
    (missing_eq : missing =
      (messageHashes buffer 0 count.toNat).filter (calls.lacks (buffer.getD 0 0))) :
    ∃ missingHashes, invLoop calls buffer 0 count.toNat ⟨sizeSha256 * count.toNat, fresh⟩ 0 =
        .ok (missingHashes, .ofNat missing.length) ∧
      missingHashes.read 0 ((UInt8.ofNat missing.length).toNat * sizeSha256) =
        .ok (missing.flatMap List.Vector.toList) := by
  have small := count.toNat_lt
  have within : 2 + (0 + count.toNat) * sizeSha256 ≤ buffer.length := by
    rw [sizeSha256]
    omega
  have allocated : ((0 : UInt8).toNat + count.toNat) * sizeSha256 ≤ sizeSha256 * count.toNat := by
    rw [UInt8.toNat_zero, Nat.zero_add, Nat.mul_comm]
  have few : missing.length ≤ count.toNat := by
    rw [missing_eq]
    apply (List.length_filter_le _ _).trans
    rw [messageHashes, List.length_map, List.length_range']
  have length_eq : (UInt8.ofNat missing.length).toNat * sizeSha256 =
      (missing.flatMap List.Vector.toList).length := by
    rw [length_flatMap_digests, UInt8.toNat_ofNat_of_lt' (by rw [UInt8.size]; omega), sizeSha256]
  have fits : 0 + (missing.flatMap List.Vector.toList).length ≤ sizeSha256 * count.toNat := by
    rw [length_flatMap_digests, sizeSha256]
    omega
  refine ⟨Buffer.write ⟨sizeSha256 * count.toNat, fresh⟩ 0 (missing.flatMap List.Vector.toList),
    ?_, ?_⟩
  · rw [invLoop_eq within allocated (by rw [UInt8.toNat_zero]; omega), ← missing_eq,
      UInt8.zero_add, UInt8.toNat_zero, Nat.zero_mul]
  · rw [length_eq, Buffer.read_of_le fits, Buffer.window_write_self]

theorem handleInv_passed (long : 2 < buffer.length)
    (formed : size.toNat = 2 + 32 * (buffer.getD 2 0).toNat) (inside : size.toNat ≤ buffer.length) :
    handleInv calls fresh buffer size peer = .ok (some (invMessages calls (buffer.getD 0 0)
      (messageHashes buffer 0 (buffer.getD 2 0).toNat) peer)) := by
  obtain ⟨missingHashes, collected, read⟩ :=
    exists_invLoop calls fresh (formed ▸ inside) rfl
  rw [handleInv, messageCount_eq long, Run.ok_bind, if_neg (not_malformedMessage_iff.mpr formed)]
  simp only [collected, Run.ok_bind, fetch_datatype (Nat.zero_lt_of_lt long), read, invMessages]
  split
  · rename_i none_built
    rw [none_built]
    rfl
  · rename_i raw built
    rw [built, enqueuedMessage_eq]
    rfl

theorem handleInv_short (short : buffer.length ≤ 2) :
    handleInv calls fresh buffer size peer = .error .outOfBounds := by
  rw [handleInv, messageCount_short short]
  rfl

theorem handleGetdata_malformed (long : 2 < buffer.length)
    (other : size.toNat ≠ 2 + 32 * (buffer.getD 2 0).toNat) :
    handleGetdata calls buffer size peer = .ok none := by
  have malformed : MalformedMessage size (buffer.getD 2 0) :=
    not_not.mp (mt not_malformedMessage_iff.mp other)
  rw [handleGetdata, fetch_datatype (Nat.zero_lt_of_lt long), Run.ok_bind, messageCount_eq long,
    Run.ok_bind, if_pos malformed]
  rfl

/-- A message that passes the test is handled by the loop. -/
theorem handleGetdata_passed (long : 2 < buffer.length)
    (formed : size.toNat = 2 + 32 * (buffer.getD 2 0).toNat) :
    handleGetdata calls buffer size peer =
      (getdataLoop calls buffer peer 0 (buffer.getD 2 0).toNat none >>= fun messages =>
        .ok (some messages)) := by
  rw [handleGetdata, fetch_datatype (Nat.zero_lt_of_lt long), Run.ok_bind, messageCount_eq long,
    Run.ok_bind, if_neg (not_malformedMessage_iff.mpr formed)]
  rfl

theorem handleGetdata_short (short : buffer.length ≤ 2) (result : Option (List (Message Peer))) :
    handleGetdata calls buffer size peer ≠ .ok result := by
  rw [handleGetdata, messageCount_short short]
  cases fetch buffer 0 <;> simp

theorem handleGetdata_known (long : 2 < buffer.length)
    (formed : size.toNat = 2 + 32 * (buffer.getD 2 0).toNat) (inside : size.toNat ≤ buffer.length)
    (known : buffer.getD 0 0 = dtypeBlock ∨ buffer.getD 0 0 = dtypeTx) :
    handleGetdata calls buffer size peer = .ok (some (getdataMessages calls (buffer.getD 0 0)
      (messageHashes buffer 0 (buffer.getD 2 0).toNat) peer)) := by
  have within : 2 + (0 + (buffer.getD 2 0).toNat) * sizeSha256 ≤ buffer.length := by
    rw [sizeSha256]
    omega
  rw [handleGetdata_passed long formed, getdataLoop_eq within known]
  rfl

theorem handleGetdata_unknown (long : 2 < buffer.length)
    (formed : size.toNat = 2 + 32 * (buffer.getD 2 0).toNat) (positive : buffer.getD 2 0 ≠ 0)
    (unknown : ¬ (buffer.getD 0 0 = dtypeBlock ∨ buffer.getD 0 0 = dtypeTx)) :
    handleGetdata calls buffer size peer = .error .uninitialized := by
  obtain ⟨others, count_eq⟩ : ∃ others, (buffer.getD 2 0).toNat = others + 1 :=
    Nat.exists_eq_add_one.mpr (toNat_pos_of_ne_zero positive)
  rw [handleGetdata_passed long formed, count_eq,
    getdataLoop_uninitialized (Nat.zero_lt_of_lt long) unknown]
  rfl

end Handlers

/-! ## The form of a message -/

namespace ReceivedMessage

/-- Byte `index` of the buffer. -/
def byte (message : ReceivedMessage) (index : Nat) : UInt8 :=
  message.buffer.toList.getD index 0

/-- The bytes that belong to the message. -/
def own (message : ReceivedMessage) : List UInt8 :=
  message.buffer.toList.take message.size.toNat

/-- `[DTYPE:1][count:1][hashes:count*32]`. -/
def Formed (message : ReceivedMessage) : Prop :=
  message.size.toNat = 2 + 32 * (message.byte 1).toNat

/-- The hashes of a message of this form, at the offsets `2 + 32 * i`. -/
def hashes (message : ReceivedMessage) : List Digest :=
  messageHashes message.buffer.toList 0 (message.byte 1).toNat

/-- A message of the right size for its count, or for the byte behind its count, has hashes, and
the first of them starts with the count. -/
def CountRepeated (message : ReceivedMessage) : Prop :=
  message.Formed ∨ message.size.toNat = 2 + 32 * (message.byte 2).toNat →
    message.byte 1 = message.byte 2 ∧ message.byte 1 ≠ 0

/-- A handler passes the messages of the protocol's form, and what it sends for them is what they
ask for.  Their own bytes are enough for it. -/
def FollowsForm (message : ReceivedMessage)
    (handler : List UInt8 → UInt16 → Run (Option (List (Message Peer))))
    (expected : List (Message Peer)) : Prop :=
  (handler message.buffer.toList message.size ≠ .ok none ↔ message.Formed) ∧
    (handler message.buffer.toList message.size ≠ .ok none →
      handler message.buffer.toList message.size = .ok (some expected) ∧
        handler message.own message.size = .ok (some expected))

theorem size_lt_length (message : ReceivedMessage) :
    message.size.toNat < message.buffer.toList.length := by
  have bound := message.size.toNat_lt
  rw [message.buffer.toList_length, maxMsgSize]
  omega

theorem length_own (message : ReceivedMessage) : message.own.length = message.size.toNat := by
  have inside := message.size_lt_length
  rw [own, List.length_take]
  omega

theorem own_getD (message : ReceivedMessage) {index : Nat} (inside : index < message.size.toNat) :
    message.own.getD index 0 = message.byte index := by
  rw [own, byte, List.getD_eq_getElem?_getD, List.getD_eq_getElem?_getD,
    List.getElem?_take_of_lt inside]

theorem own_hashes (message : ReceivedMessage) (formed : message.Formed) :
    messageHashes message.own 0 (message.byte 1).toNat = message.hashes := by
  rw [Formed] at formed
  apply List.map_congr_left
  intro i member
  have within : i < (message.byte 1).toNat := by simpa using member
  apply List.Vector.eq
  rw [toList_hashAt, toList_hashAt]
  apply List.map_congr_left
  intro j inner
  rw [List.mem_range] at inner
  exact message.own_getD (by rw [sizeSha256]; omega)

section Follows

variable {message : ReceivedMessage}
  {handler : List UInt8 → UInt16 → Run (Option (List (Message Peer)))}
  {expected : List (Message Peer)} {Works : Prop}

/-- A handler whose test compares the size to the byte behind the count. -/
theorem followsForm_iff
    (malformed : message.size.toNat ≠ 2 + 32 * (message.byte 2).toNat →
      handler message.buffer.toList message.size = .ok none)
    (passed : message.size.toNat = 2 + 32 * (message.byte 2).toNat →
      handler message.buffer.toList message.size ≠ .ok none)
    (short : message.own.length ≤ 2 → ∀ result, handler message.own message.size ≠ .ok result)
    (works : message.Formed → message.byte 1 = message.byte 2 → message.byte 1 ≠ 0 →
      (handler message.buffer.toList message.size = .ok (some expected) ∧
        handler message.own message.size = .ok (some expected) ↔ Works)) :
    message.FollowsForm handler expected ↔ message.CountRepeated ∧ (message.Formed → Works) := by
  have test : handler message.buffer.toList message.size ≠ .ok none ↔
      message.size.toNat = 2 + 32 * (message.byte 2).toNat :=
    ⟨not_imp_comm.mp malformed, passed⟩
  constructor
  · rintro ⟨accepts, handled⟩
    have same : message.Formed ↔ message.size.toNat = 2 + 32 * (message.byte 2).toNat :=
      accepts.symm.trans test
    have repeated : message.CountRepeated := by
      intro either
      have formed : message.Formed := either.elim id same.mpr
      have second := same.mp formed
      refine ⟨UInt8.toNat_inj.mp (by rw [Formed] at formed; omega), ?_⟩
      intro zero
      have empty : message.own.length ≤ 2 := by
        rw [length_own, formed, zero]
        exact le_rfl
      exact short empty _ (handled (accepts.mpr formed)).2
    refine ⟨repeated, ?_⟩
    intro formed
    obtain ⟨equal, positive⟩ := repeated (Or.inl formed)
    exact (works formed equal positive).mp (handled (accepts.mpr formed))
  · rintro ⟨repeated, working⟩
    have same : message.Formed ↔ message.size.toNat = 2 + 32 * (message.byte 2).toNat := by
      constructor
      · intro formed
        rw [← (repeated (Or.inl formed)).1]
        exact formed
      · intro second
        rw [Formed, (repeated (Or.inr second)).1]
        exact second
    refine ⟨test.trans same.symm, ?_⟩
    intro passes
    have formed := same.mpr (test.mp passes)
    obtain ⟨equal, positive⟩ := repeated (Or.inl formed)
    exact (works formed equal positive).mpr (working formed)

end Follows

end ReceivedMessage

/-! ## Inv and getdata -/

namespace ReceivedMessage

theorem length_buffer (message : ReceivedMessage) : 2 < message.buffer.toList.length := by
  rw [message.buffer.toList_length, maxMsgSize]
  decide

/-- A memory in which the handlers find the message: the byte they take for the count is the count,
and the data type and the hashes are those of the message. -/
structure Shows (message : ReceivedMessage) (memory : List UInt8) : Prop where
  long : 2 < memory.length
  inside : message.size.toNat ≤ memory.length
  second : message.size.toNat = 2 + 32 * (memory.getD 2 0).toNat
  datatype : memory.getD 0 0 = message.byte 0
  hashes : messageHashes memory 0 (memory.getD 2 0).toNat = message.hashes

section Shows

variable {message : ReceivedMessage} {memory : List UInt8}

theorem shows_buffer (formed : message.Formed) (equal : message.byte 1 = message.byte 2) :
    message.Shows message.buffer.toList where
  long := message.length_buffer
  inside := Nat.le_of_lt message.size_lt_length
  second := by
    rw [← byte, ← equal]
    exact formed
  datatype := rfl
  hashes := by
    rw [hashes, equal]
    rfl

/-- A message with a hash shows itself. -/
theorem shows_own (formed : message.Formed) (equal : message.byte 1 = message.byte 2)
    (positive : 0 < (message.byte 1).toNat) : message.Shows message.own := by
  have long : 2 < message.size.toNat := by
    rw [formed]
    omega
  have count : message.own.getD 2 0 = message.byte 1 := (message.own_getD long).trans equal.symm
  constructor
  · rwa [length_own]
  · exact message.length_own.ge
  · rw [count]
    exact formed
  · exact message.own_getD (Nat.zero_lt_of_lt long)
  · rw [count]
    exact message.own_hashes formed

theorem Shows.handleInv_eq (shown : message.Shows memory) (calls : ClientCalls)
    (fresh : Nat → UInt8) (peer : Peer) :
    handleInv calls fresh memory message.size peer =
      .ok (some (invMessages calls (message.byte 0) message.hashes peer)) := by
  rw [handleInv_passed shown.long shown.second shown.inside, shown.datatype, shown.hashes]

theorem Shows.handleGetdata_eq (shown : message.Shows memory) (calls : ClientCalls) (peer : Peer)
    (known : message.byte 0 = dtypeBlock ∨ message.byte 0 = dtypeTx) :
    handleGetdata calls memory message.size peer =
      .ok (some (getdataMessages calls (message.byte 0) message.hashes peer)) := by
  rw [← shown.datatype] at known
  rw [handleGetdata_known shown.long shown.second shown.inside known, shown.datatype, shown.hashes]

end Shows

theorem handleInv_iff (message : ReceivedMessage) (calls : ClientCalls) (fresh : Nat → UInt8)
    (peer : Peer) :
    message.FollowsForm (fun buffer size => handleInv calls fresh buffer size peer)
        (invMessages calls (message.byte 0) message.hashes peer) ↔
      message.CountRepeated ∧ (message.Formed → True) := by
  apply followsForm_iff
  · exact handleInv_malformed message.length_buffer
  · intro second
    rw [handleInv_passed message.length_buffer second (Nat.le_of_lt message.size_lt_length)]
    simp
  · intro short result
    rw [handleInv_short short]
    simp
  · intro formed equal positive
    refine iff_true_intro ⟨?_, ?_⟩
    · exact (shows_buffer formed equal).handleInv_eq calls fresh peer
    · exact (shows_own formed equal (toNat_pos_of_ne_zero positive)).handleInv_eq calls fresh peer

theorem handleGetdata_iff (message : ReceivedMessage) (calls : ClientCalls) (peer : Peer) :
    message.FollowsForm (fun buffer size => handleGetdata calls buffer size peer)
        (getdataMessages calls (message.byte 0) message.hashes peer) ↔
      message.CountRepeated ∧ (message.Formed →
        message.byte 0 = dtypeBlock ∨ message.byte 0 = dtypeTx) := by
  apply followsForm_iff
  · exact handleGetdata_malformed message.length_buffer
  · intro second
    rw [handleGetdata_passed message.length_buffer second]
    cases getdataLoop calls message.buffer.toList peer 0
      (message.buffer.toList.getD 2 0).toNat none <;> simp
  · exact handleGetdata_short
  · intro formed equal positive
    have whole := shows_buffer formed equal
    have own := shows_own formed equal (toNat_pos_of_ne_zero positive)
    have counted : message.byte 2 ≠ 0 := equal ▸ positive
    constructor
    · rintro ⟨handled, _⟩
      by_contra unknown
      rw [handleGetdata_unknown whole.long whole.second counted unknown] at handled
      cases handled
    · intro known
      constructor
      · exact whole.handleGetdata_eq calls peer known
      · exact own.handleGetdata_eq calls peer known

end ReceivedMessage

/-- The handlers pass exactly the messages of the protocol's form, read nothing behind them and
process each of their hashes, if and only if every message of the right size has a hash that starts
with the count.  `handle_getdata` also needs the data type to be one it knows. -/
theorem inventoryFollowsForm_iff (calls : ClientCalls) (fresh : Nat → UInt8)
    (message : ReceivedMessage) (peer : Peer) :
    (message.FollowsForm (fun buffer size => handleInv calls fresh buffer size peer)
        (invMessages calls (message.byte 0) message.hashes peer) ↔ message.CountRepeated) ∧
    (message.FollowsForm (fun buffer size => handleGetdata calls buffer size peer)
        (getdataMessages calls (message.byte 0) message.hashes peer) ↔
      message.CountRepeated ∧ (message.Formed →
        message.byte 0 = dtypeBlock ∨ message.byte 0 = dtypeTx)) := by
  refine ⟨?_, message.handleGetdata_iff calls peer⟩
  rw [message.handleInv_iff, imp_true_iff, and_true]

/-- A client that knows nothing and builds nothing. -/
def idleCalls : ClientCalls where
  ioIsBlock _ := false
  mempoolContains _ := false
  mBuildGetdata _ _ _ := none
  mBuildBlock _ := none
  mBuildTx _ := none

/-- An inv, or a request, for the block whose hash is zero. -/
def singleHash : ReceivedMessage where
  buffer := ⟨0 :: 1 :: List.replicate (maxMsgSize - 2) 0, by
    rw [List.length_cons, List.length_cons, List.length_replicate]
    rfl⟩
  size := 34

/-- It is of the protocol's form, and both handlers take it for malformed. -/
theorem not_inventoryFollowsForm_singleHash :
    ¬ singleHash.FollowsForm (fun buffer size => handleInv idleCalls (fun _ => 0) buffer size ())
        (invMessages idleCalls (singleHash.byte 0) singleHash.hashes ()) ∧
      ¬ singleHash.FollowsForm (fun buffer size => handleGetdata idleCalls buffer size ())
        (getdataMessages idleCalls (singleHash.byte 0) singleHash.hashes ()) := by
  have formed : singleHash.Formed := rfl
  have second : singleHash.byte 2 = 0 := rfl
  have other : singleHash.size.toNat ≠ 2 + 32 * (singleHash.byte 2).toNat := by
    rw [second]
    decide
  constructor
  · rintro ⟨accepts, _⟩
    exact accepts.mpr formed (handleInv_malformed singleHash.length_buffer other)
  · rintro ⟨accepts, _⟩
    exact accepts.mpr formed (handleGetdata_malformed singleHash.length_buffer other)

end Freecoin
