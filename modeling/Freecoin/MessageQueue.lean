import Freecoin.Foundation.LinkedList
import Freecoin.Foundation.Memory

/-!
# The message queue

`msgqueue.c` keeps the messages between the socket threads and the main thread in a doubly linked
list with a sentinel at each end.  A new node is linked behind the head, and the node in front of
the tail is taken out; both locked sections keep the list between the sentinels well formed.
-/

namespace Freecoin

open Foundation

variable {Addr Peer : Type}

/-- A message as it is enqueued and dequeued. -/
structure Message (Peer : Type) where
  raw : List UInt8
  size : UInt32
  type : UInt8
  peer : Peer
  deriving DecidableEq

/-- `msgnode_t`; `raw` stands for the bytes of the block it points to. -/
structure MsgNode (Addr Peer : Type) extends Message Peer where
  next : Option Addr
  prev : Option Addr

/-- `msgqueue_t`, without the mutex. -/
structure MsgQueue (Addr : Type) where
  head : Addr
  tail : Addr
  length : UInt32

/-- The nodes that are allocated. -/
abbrev MsgHeap (Addr Peer : Type) := Addr → Option (MsgNode Addr Peer)

/-- The node at an address. -/
def MsgHeap.load (heap : MsgHeap Addr Peer) (addr : Addr) : Run (MsgNode Addr Peer) :=
  match heap addr with
  | some node => .ok node
  | none => .error .outOfBounds

/-- The address in a pointer. -/
def follow (pointer : Option Addr) : Run Addr :=
  match pointer with
  | some addr => .ok addr
  | none => .error .nullPointer

/-- The `next` pointer of the node at an address. -/
def MsgHeap.next (heap : MsgHeap Addr Peer) (addr : Addr) : Option Addr :=
  (heap addr).bind MsgNode.next

/-- The `prev` pointer of the node at an address. -/
def MsgHeap.prev (heap : MsgHeap Addr Peer) (addr : Addr) : Option Addr :=
  (heap addr).bind MsgNode.prev

/-- The message of the node at an address. -/
def MsgHeap.message (heap : MsgHeap Addr Peer) (addr : Addr) : Option (Message Peer) :=
  (heap addr).map MsgNode.toMessage

theorem MsgHeap.load_of_eq {heap : MsgHeap Addr Peer} {addr : Addr} {node : MsgNode Addr Peer}
    (found : heap addr = some node) : heap.load addr = .ok node := by
  rw [load, found]

theorem MsgHeap.exists_of_next {heap : MsgHeap Addr Peer} {addr other : Addr}
    (link : heap.next addr = some other) : ∃ node, heap addr = some node ∧ node.next = some other :=
  Option.bind_eq_some_iff.mp link

theorem MsgHeap.exists_of_prev {heap : MsgHeap Addr Peer} {addr other : Addr}
    (link : heap.prev addr = some other) : ∃ node, heap addr = some node ∧ node.prev = some other :=
  Option.bind_eq_some_iff.mp link

/-! ## The list behind the pointers -/

/-- The nodes of a queue, from the newest to the oldest, are linked between the two sentinels,
behind which there is nothing. -/
structure WellFormed (heap : MsgHeap Addr Peer) (q : MsgQueue Addr) (nodes : List Addr) : Prop where
  linked : Linked heap.next heap.prev (q.head :: (nodes ++ [q.tail]))
  start : heap.prev q.head = none
  stop : heap.next q.tail = none

/-- Every address of a queue is in use. -/
theorem WellFormed.allocated {heap : MsgHeap Addr Peer} {q : MsgQueue Addr} {nodes : List Addr}
    (wellFormed : WellFormed heap q nodes) {addr : Addr}
    (member : addr ∈ q.head :: (nodes ++ [q.tail])) : heap addr ≠ none := by
  have links := wellFormed.linked.links
  rcases List.mem_cons.mp member with rfl | later
  · obtain ⟨first, rest, split⟩ : ∃ first rest, nodes ++ [q.tail] = first :: rest :=
      List.exists_cons_of_ne_nil (by simp)
    rw [split] at links
    obtain ⟨node, found, _⟩ := MsgHeap.exists_of_next (List.isChain_cons_cons.mp links).1.1
    simp [found]
  · obtain ⟨front, back, split⟩ := List.append_of_mem later
    rw [split, ← List.cons_append] at links
    obtain ⟨front, before, whole⟩ : ∃ rest before, q.head :: front = rest ++ [before] :=
      ⟨_, _, (List.dropLast_append_getLast (List.cons_ne_nil q.head front)).symm⟩
    rw [whole, List.append_assoc, List.singleton_append] at links
    obtain ⟨node, found, _⟩ :=
      MsgHeap.exists_of_prev (List.isChain_append_cons_cons.mp links).2.1.2
    simp [found]

theorem WellFormed.head_ne_tail {heap : MsgHeap Addr Peer} {q : MsgQueue Addr} {nodes : List Addr}
    (wellFormed : WellFormed heap q nodes) : q.head ≠ q.tail := by
  intro same
  exact (List.nodup_cons.mp wellFormed.linked.distinct).1 (by simp [same])

/-- A node between the sentinels is neither of them. -/
theorem WellFormed.ne_sentinel {heap : MsgHeap Addr Peer} {q : MsgQueue Addr} {nodes : List Addr}
    (wellFormed : WellFormed heap q nodes) {addr : Addr} (member : addr ∈ nodes) :
    addr ≠ q.head ∧ addr ≠ q.tail := by
  obtain ⟨headApart, distinct⟩ := List.nodup_cons.mp wellFormed.linked.distinct
  constructor
  · rintro rfl
    exact headApart (List.mem_append_left _ member)
  · exact (List.nodup_append.mp distinct).2.2 addr member q.tail List.mem_cons_self

/-- The tail leads back to the oldest node. -/
theorem WellFormed.prev_tail {heap : MsgHeap Addr Peer} {q : MsgQueue Addr} {rest : List Addr}
    {msg : Addr} (wellFormed : WellFormed heap q (rest ++ [msg])) :
    heap.prev q.tail = some msg := by
  have links := wellFormed.linked.links
  rw [List.append_assoc, ← List.cons_append] at links
  exact (List.isChain_append_cons_cons.mp links).2.1.2

/-- The nodes of a queue are determined by its pointers. -/
theorem WellFormed.unique {heap : MsgHeap Addr Peer} {q : MsgQueue Addr} {left right : List Addr}
    (leftFormed : WellFormed heap q left) (rightFormed : WellFormed heap q right) :
    left = right := by
  have same : left ++ [q.tail] = right ++ [q.tail] := by
    apply Linked.unique leftFormed.linked.links rightFormed.linked.links
    · simpa using leftFormed.stop
    · simpa using rightFormed.stop
  exact List.append_cancel_right same

/-- Along the queue, the two directions are inverse to each other. -/
theorem WellFormed.next_iff_prev {heap : MsgHeap Addr Peer} {q : MsgQueue Addr} {nodes : List Addr}
    (wellFormed : WellFormed heap q nodes) {left right : Addr}
    (leftIn : left ∈ q.head :: (nodes ++ [q.tail]))
    (rightIn : right ∈ q.head :: (nodes ++ [q.tail])) :
    heap.next left = some right ↔ heap.prev right = some left := by
  apply wellFormed.linked.next_iff_prev _ _ leftIn rightIn
  · simpa using wellFormed.start
  · simpa [List.getLast?_cons] using wellFormed.stop

/-! ## Operations -/

variable [DecidableEq Addr]

/-- `msgqueue_init`, for two blocks that were allocated with any content. -/
def msgqueueInit (heap : MsgHeap Addr Peer) (head tail : Addr)
    (headNode tailNode : MsgNode Addr Peer) : MsgHeap Addr Peer × MsgQueue Addr :=
  let heap := Function.update heap head (some { headNode with next := some tail, prev := none })
  let heap := Function.update heap tail (some { tailNode with prev := some head, next := none })
  (heap, { head, tail, length := 0 })

/-- The locked section of `msgqueue_enqueue`, for the block `msg` that was allocated in it. -/
def msgqueueEnqueue (heap : MsgHeap Addr Peer) (q : MsgQueue Addr) (msg : Addr) (raw : List UInt8)
    (size : UInt32) (type : UInt8) (peer : Peer) : Run (MsgHeap Addr Peer × MsgQueue Addr) := do
  let copied ← readOut size.toNat raw
  let headNode ← heap.load q.head
  let heap := Function.update heap msg
    (some { raw := copied, size, type, peer, next := headNode.next, prev := some q.head })
  let headNode ← MsgHeap.load heap q.head
  let first ← follow headNode.next
  let firstNode ← MsgHeap.load heap first
  let heap := Function.update heap first (some { firstNode with prev := some msg })
  let headNode ← MsgHeap.load heap q.head
  let heap := Function.update heap q.head (some { headNode with next := some msg })
  return (heap, { q with length := q.length + 1 })

/-- The locked section of `msgqueue_dequeue`: the nodes and the queue afterwards, and what it leaves
in the caller's buffer and variables. -/
def msgqueueDequeue (heap : MsgHeap Addr Peer) (q : MsgQueue Addr) (raw : Buffer) :
    Run (MsgHeap Addr Peer × MsgQueue Addr × Buffer × UInt32 × UInt8 × Peer) := do
  let tailNode ← heap.load q.tail
  let msg ← follow tailNode.prev
  let node ← heap.load msg
  let size := node.size
  let copied ← readOut size.toNat node.raw
  let raw ← raw.store 0 copied
  let type := node.type
  let peer := node.peer
  let before ← follow node.prev
  let beforeNode ← heap.load before
  let heap := Function.update heap before (some { beforeNode with next := some q.tail })
  let node ← MsgHeap.load heap msg
  let tailNode ← MsgHeap.load heap q.tail
  let heap := Function.update heap q.tail (some { tailNode with prev := node.prev })
  let heap := Function.update heap msg none
  return (heap, { q with length := q.length - 1 }, raw, size, type, peer)

/-! ## Links after an assignment -/

namespace MsgHeap

@[simp] theorem next_update (heap : MsgHeap Addr Peer) (addr : Addr)
    (node : Option (MsgNode Addr Peer)) :
    next (Function.update heap addr node) =
      Function.update (next heap) addr (node.bind MsgNode.next) :=
  Function.comp_update (fun node : Option (MsgNode Addr Peer) => node.bind MsgNode.next) heap
    addr node

@[simp] theorem prev_update (heap : MsgHeap Addr Peer) (addr : Addr)
    (node : Option (MsgNode Addr Peer)) :
    prev (Function.update heap addr node) =
      Function.update (prev heap) addr (node.bind MsgNode.prev) :=
  Function.comp_update (fun node : Option (MsgNode Addr Peer) => node.bind MsgNode.prev) heap
    addr node

@[simp] theorem message_update (heap : MsgHeap Addr Peer) (addr : Addr)
    (node : Option (MsgNode Addr Peer)) :
    message (Function.update heap addr node) =
      Function.update (message heap) addr (node.map MsgNode.toMessage) :=
  Function.comp_update (fun node : Option (MsgNode Addr Peer) => node.map MsgNode.toMessage) heap
    addr node

end MsgHeap

/-! ## Enqueuing -/

/-- The nodes after `msg` was linked between the head and what was the first node. -/
def enqueuedHeap (heap : MsgHeap Addr Peer) (head first msg : Addr)
    (headNode firstNode : MsgNode Addr Peer) (message : Message Peer) : MsgHeap Addr Peer :=
  Function.update
    (Function.update
      (Function.update heap msg (some { message with next := some first, prev := some head }))
      first (some { firstNode with prev := some msg }))
    head (some { headNode with next := some msg })

section Enqueue

variable {heap : MsgHeap Addr Peer} {q : MsgQueue Addr} {first msg : Addr}
  {headNode firstNode : MsgNode Addr Peer} (headFound : heap q.head = some headNode)
  (firstFound : heap first = some firstNode) (headMsg : q.head ≠ msg) (firstMsg : first ≠ msg)
  (headFirst : q.head ≠ first)

include headFound firstFound headMsg firstMsg headFirst

theorem msgqueueEnqueue_eq {raw : List UInt8} {size : UInt32} (type : UInt8) (peer : Peer)
    (headNext : headNode.next = some first) (long : size.toNat ≤ raw.length) :
    msgqueueEnqueue heap q msg raw size type peer =
      .ok (enqueuedHeap heap q.head first msg headNode firstNode
          { raw := raw.take size.toNat, size, type, peer },
        { q with length := q.length + 1 }) := by
  rw [msgqueueEnqueue, readOut_of_le long, Run.ok_bind, MsgHeap.load_of_eq headFound, Run.ok_bind]
  simp only [headNext]
  rw [MsgHeap.load_of_eq (by rw [Function.update_of_ne headMsg, headFound]), Run.ok_bind, headNext,
    follow, Run.ok_bind, MsgHeap.load_of_eq (by rw [Function.update_of_ne firstMsg, firstFound]),
    Run.ok_bind, MsgHeap.load_of_eq (by
    rw [Function.update_of_ne headFirst, Function.update_of_ne headMsg, headFound]), Run.ok_bind]
  rfl

theorem enqueuedHeap_links (message : Message Peer) :
    let after := enqueuedHeap heap q.head first msg headNode firstNode message
    after.next = Function.update (Function.update heap.next msg (some first)) q.head (some msg) ∧
    after.prev = Function.update (Function.update heap.prev msg (some q.head)) first (some msg) ∧
    after.message = Function.update heap.message msg (some message) := by
  intro after
  simp only [after, enqueuedHeap, MsgHeap.next_update, MsgHeap.prev_update, MsgHeap.message_update,
    Option.bind_some, Option.map_some]
  refine ⟨?_, ?_, ?_⟩
  · have firstNext : Function.update (Function.update heap.next msg (some first)) first
        firstNode.next = Function.update heap.next msg (some first) := by
      rw [Function.update_eq_self_iff, Function.update_of_ne firstMsg, MsgHeap.next, firstFound]
      rfl
    rw [firstNext]
  · rw [Function.update_eq_self_iff, Function.update_of_ne headFirst, Function.update_of_ne headMsg,
      MsgHeap.prev, headFound]
    rfl
  · have firstMessage : Function.update (Function.update heap.message msg (some message)) first
        (some firstNode.toMessage) = Function.update heap.message msg (some message) := by
      rw [Function.update_eq_self_iff, Function.update_of_ne firstMsg, MsgHeap.message, firstFound]
      rfl
    rw [firstMessage, Function.update_eq_self_iff, Function.update_of_ne headMsg, MsgHeap.message,
      headFound]
    rfl

omit headMsg firstMsg headFirst in
/-- Only the new node was not in use before. -/
theorem enqueuedHeap_eq_none (message : Message Peer) {addr : Addr} (other : addr ≠ msg)
    (unused : heap addr = none) :
    enqueuedHeap heap q.head first msg headNode firstNode message addr = none := by
  have notHead : addr ≠ q.head := by
    rintro rfl
    simp [unused] at headFound
  have notFirst : addr ≠ first := by
    rintro rfl
    simp [unused] at firstFound
  rw [enqueuedHeap, Function.update_of_ne notHead, Function.update_of_ne notFirst,
    Function.update_of_ne other, unused]

end Enqueue

/-- Enqueuing links the new node behind the head. -/
theorem exists_msgqueueEnqueue {heap : MsgHeap Addr Peer} {q : MsgQueue Addr} {nodes : List Addr}
    {msg : Addr} {raw : List UInt8} {size : UInt32} (type : UInt8) (peer : Peer)
    (wellFormed : WellFormed heap q nodes) (fresh : heap msg = none)
    (long : size.toNat ≤ raw.length) :
    ∃ after : MsgHeap Addr Peer, msgqueueEnqueue heap q msg raw size type peer =
        .ok (after, { q with length := q.length + 1 }) ∧
      WellFormed after q (msg :: nodes) ∧ msg ∉ nodes ∧
      after.message = Function.update heap.message msg
        (some { raw := raw.take size.toNat, size, type, peer }) ∧
      ∀ addr, addr ≠ msg → heap addr = none → after addr = none := by
  have new : msg ∉ q.head :: (nodes ++ [q.tail]) := fun member =>
    wellFormed.allocated member fresh
  have linked := wellFormed.linked
  have notNode : msg ∉ nodes := fun member => new (by simp [member])
  have tailMsg : q.tail ≠ msg := fun same => new (by simp [same])
  obtain ⟨first, rest, split⟩ : ∃ first rest, nodes ++ [q.tail] = first :: rest :=
    List.exists_cons_of_ne_nil (by simp)
  rw [split] at new linked
  have link := (List.isChain_cons_cons.mp linked.links).1
  obtain ⟨headNode, headFound, headNext⟩ := MsgHeap.exists_of_next link.1
  obtain ⟨firstNode, firstFound, _⟩ := MsgHeap.exists_of_prev link.2
  have headMsg : q.head ≠ msg := fun same => new (by simp [same])
  have firstMsg : first ≠ msg := fun same => new (by simp [same])
  have headFirst : q.head ≠ first := fun same =>
    (List.nodup_cons.mp linked.distinct).1 (same ▸ List.mem_cons_self)
  obtain ⟨next_eq, prev_eq, message_eq⟩ := enqueuedHeap_links headFound firstFound headMsg firstMsg
    headFirst { raw := raw.take size.toNat, size, type, peer }
  refine ⟨_, msgqueueEnqueue_eq headFound firstFound headMsg firstMsg headFirst type peer headNext
    long, ⟨?_, ?_, ?_⟩, notNode, message_eq,
    fun addr => enqueuedHeap_eq_none headFound firstFound _⟩
  · rw [next_eq, prev_eq, List.cons_append, split]
    exact linked.insert new
  · rw [prev_eq, Function.update_of_ne headFirst, Function.update_of_ne headMsg]
    exact wellFormed.start
  · rw [next_eq, Function.update_of_ne wellFormed.head_ne_tail.symm,
      Function.update_of_ne tailMsg]
    exact wellFormed.stop

/-! ## Dequeuing -/

/-- The nodes after `msg` was taken out between the node in front of it and the tail. -/
def dequeuedHeap (heap : MsgHeap Addr Peer) (tail before msg : Addr)
    (tailNode beforeNode : MsgNode Addr Peer) : MsgHeap Addr Peer :=
  Function.update
    (Function.update (Function.update heap before (some { beforeNode with next := some tail })) tail
      (some { tailNode with prev := some before }))
    msg none

section Dequeue

variable {heap : MsgHeap Addr Peer} {q : MsgQueue Addr} {before msg : Addr}
  {tailNode beforeNode node : MsgNode Addr Peer} (tailFound : heap q.tail = some tailNode)
  (beforeFound : heap before = some beforeNode) (tailBefore : q.tail ≠ before)

include tailFound beforeFound tailBefore

theorem msgqueueDequeue_eq {raw : Buffer} (found : heap msg = some node)
    (tailPrev : tailNode.prev = some msg) (nodePrev : node.prev = some before)
    (msgBefore : msg ≠ before) (sized : node.raw.length = node.size.toNat)
    (room : node.size.toNat ≤ raw.size) :
    msgqueueDequeue heap q raw =
      .ok (dequeuedHeap heap q.tail before msg tailNode beforeNode,
        { q with length := q.length - 1 }, raw.write 0 node.raw, node.size, node.type,
        node.peer) := by
  have copied : readOut node.size.toNat node.raw = .ok node.raw := by
    rw [readOut_of_le (by omega), List.take_of_length_le (by omega)]
  rw [msgqueueDequeue, MsgHeap.load_of_eq tailFound, Run.ok_bind, tailPrev, follow, Run.ok_bind,
    MsgHeap.load_of_eq found, Run.ok_bind]
  simp only [copied, Run.ok_bind, Buffer.store_of_le (show 0 + node.raw.length ≤ raw.size by omega),
    nodePrev, follow]
  rw [MsgHeap.load_of_eq beforeFound, Run.ok_bind,
    MsgHeap.load_of_eq (by rw [Function.update_of_ne msgBefore, found]), Run.ok_bind,
    MsgHeap.load_of_eq (by rw [Function.update_of_ne tailBefore, tailFound]), Run.ok_bind, nodePrev]
  rfl

theorem dequeuedHeap_links :
    let after := dequeuedHeap heap q.tail before msg tailNode beforeNode
    after.next = Function.update (Function.update heap.next before (some q.tail)) msg none ∧
    after.prev = Function.update (Function.update heap.prev q.tail (some before)) msg none ∧
    after.message = Function.update heap.message msg none := by
  intro after
  simp only [after, dequeuedHeap, MsgHeap.next_update, MsgHeap.prev_update, MsgHeap.message_update,
    Option.bind_some, Option.map_some, Option.bind_none, Option.map_none]
  refine ⟨?_, ?_, ?_⟩
  · have tailNext : Function.update (Function.update heap.next before (some q.tail)) q.tail
        tailNode.next = Function.update heap.next before (some q.tail) := by
      rw [Function.update_eq_self_iff, Function.update_of_ne tailBefore, MsgHeap.next, tailFound]
      rfl
    rw [tailNext]
  · have beforePrev : Function.update heap.prev before beforeNode.prev = heap.prev := by
      rw [Function.update_eq_self_iff, MsgHeap.prev, beforeFound]
      rfl
    rw [beforePrev]
  · have beforeMessage : Function.update heap.message before (some beforeNode.toMessage) =
        heap.message := by
      rw [Function.update_eq_self_iff, MsgHeap.message, beforeFound]
      rfl
    have tailMessage : Function.update heap.message q.tail (some tailNode.toMessage) =
        heap.message := by
      rw [Function.update_eq_self_iff, MsgHeap.message, tailFound]
      rfl
    rw [beforeMessage, tailMessage]

end Dequeue

/-- Dequeuing takes the oldest node out and hands over its message. -/
theorem exists_msgqueueDequeue {heap : MsgHeap Addr Peer} {q : MsgQueue Addr} {rest : List Addr}
    {msg : Addr} {message : Message Peer} {raw : Buffer}
    (wellFormed : WellFormed heap q (rest ++ [msg])) (found : heap.message msg = some message)
    (sized : message.raw.length = message.size.toNat) (room : message.size.toNat ≤ raw.size) :
    ∃ after : MsgHeap Addr Peer, msgqueueDequeue heap q raw =
        .ok (after, { q with length := q.length - 1 }, raw.write 0 message.raw, message.size,
          message.type, message.peer) ∧
      WellFormed after q rest ∧ after.message = Function.update heap.message msg none := by
  obtain ⟨front, before, whole⟩ : ∃ front before, q.head :: rest = front ++ [before] :=
    ⟨_, _, (List.dropLast_append_getLast (List.cons_ne_nil q.head rest)).symm⟩
  have arranged : q.head :: (rest ++ [msg] ++ [q.tail]) = front ++ [before, msg, q.tail] := by
    rw [List.append_assoc, ← List.cons_append, whole, List.append_assoc]
    rfl
  have shorter : q.head :: (rest ++ [q.tail]) = front ++ [before, q.tail] := by
    rw [← List.cons_append, whole, List.append_assoc]
    rfl
  have linked := wellFormed.linked
  rw [arranged] at linked
  obtain ⟨_, oldest, _⟩ := List.isChain_append_cons_cons.mp linked.links
  obtain ⟨node, nodeFound, rfl⟩ := Option.map_eq_some_iff.mp found
  obtain ⟨beforeNode, beforeFound, _⟩ := MsgHeap.exists_of_next oldest.1
  obtain ⟨tailNode, tailFound, tailPrev⟩ := MsgHeap.exists_of_prev wellFormed.prev_tail
  have nodePrev : node.prev = some before := by
    have link := oldest.2
    rwa [MsgHeap.prev, nodeFound, Option.bind_some] at link
  have removed : msg ∉ front ++ [before, q.tail] ∧ q.tail ≠ before := by
    have apart := linked.distinct
    simp only [List.nodup_append, List.nodup_cons, List.mem_cons, List.mem_append] at apart ⊢
    grind
  obtain ⟨msgHead, msgTail⟩ := wellFormed.ne_sentinel (show msg ∈ rest ++ [msg] by simp)
  obtain ⟨next_eq, prev_eq, message_eq⟩ := dequeuedHeap_links tailFound beforeFound removed.2
  refine ⟨_, msgqueueDequeue_eq tailFound beforeFound removed.2 nodeFound tailPrev nodePrev
    (fun same => removed.1 (by simp [same])) sized room, ⟨?_, ?_, ?_⟩, message_eq⟩
  · rw [next_eq, prev_eq, shorter]
    exact linked.remove.update_of_notMem removed.1 none none
  · rw [prev_eq, Function.update_of_ne msgHead.symm, Function.update_of_ne wellFormed.head_ne_tail]
    exact wellFormed.start
  · rw [next_eq, Function.update_of_ne msgTail.symm, Function.update_of_ne removed.2]
    exact wellFormed.stop

/-- A dequeue that returns had room for the message in its buffer. -/
theorem room_of_msgqueueDequeue {heap after : MsgHeap Addr Peer} {q queue : MsgQueue Addr}
    {msg : Addr} {message : Message Peer} {raw filled : Buffer} {size : UInt32} {type : UInt8}
    {peer : Peer} (oldest : heap.prev q.tail = some msg) (found : heap.message msg = some message)
    (returned : msgqueueDequeue heap q raw = .ok (after, queue, filled, size, type, peer)) :
    message.size.toNat ≤ raw.size := by
  obtain ⟨tailNode, tailFound, tailPrev⟩ := MsgHeap.exists_of_prev oldest
  obtain ⟨node, nodeFound, rfl⟩ := Option.map_eq_some_iff.mp found
  simp only [msgqueueDequeue, MsgHeap.load_of_eq tailFound, Run.ok_bind, tailPrev, follow,
    MsgHeap.load_of_eq nodeFound, Run.bind_eq_ok] at returned
  obtain ⟨copied, read, _, stored, _⟩ := returned
  have inside := (Buffer.store_eq_ok.mp stored).1
  obtain ⟨long, rfl⟩ := readOut_eq_ok.mp read
  rw [List.length_take_of_le long] at inside
  omega

/-- An enqueue that returns could read the message. -/
theorem long_of_msgqueueEnqueue {heap after : MsgHeap Addr Peer} {q queue : MsgQueue Addr}
    {msg : Addr} {raw : List UInt8} {size : UInt32} {type : UInt8} {peer : Peer}
    (returned : msgqueueEnqueue heap q msg raw size type peer = .ok (after, queue)) :
    size.toNat ≤ raw.length := by
  simp only [msgqueueEnqueue, Run.bind_eq_ok] at returned
  obtain ⟨copied, read, _⟩ := returned
  exact (readOut_eq_ok.mp read).1

end Freecoin
