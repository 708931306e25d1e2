import Freecoin.MessageQueue
import Mathlib.Logic.Relation

/-!
# Runs of the message queue

Any number of producers enqueue messages, and one consumer dequeues them.  The consumer tests the
length before it takes the lock; since nobody else takes messages out, the node it found is still
there then.  So the queue hands over exactly the messages that were enqueued, in their order.
-/

namespace Freecoin

open Foundation

variable {Addr Peer : Type} [DecidableEq Addr]

/-! ## Threads -/

/-- Where the consumer is: at the test of the length, or behind it and about to take the lock. -/
inductive ConsumerPhase where
  | testing
  | ready
  deriving DecidableEq

/-- The queue between its threads, with the messages that were enqueued, in the order of the locked
sections, and those the consumer has received. -/
structure QueueRun (Addr Peer : Type) where
  heap : MsgHeap Addr Peer
  queue : MsgQueue Addr
  phase : ConsumerPhase
  enqueued : List (Message Peer)
  received : List (Message Peer)

/-- One atomic step of some thread. -/
inductive QueueStep : QueueRun Addr Peer → QueueRun Addr Peer → Prop
  /-- The locked section of a producer.  `malloc` returns any block that is not in use. -/
  | enqueue {s : QueueRun Addr Peer} {heap : MsgHeap Addr Peer} {queue : MsgQueue Addr} (msg : Addr)
      (raw : List UInt8) (size : UInt32) (type : UInt8) (peer : Peer) (fresh : s.heap msg = none)
      (returned : msgqueueEnqueue s.heap s.queue msg raw size type peer = .ok (heap, queue)) :
      QueueStep s { s with
        heap, queue
        enqueued := s.enqueued ++ [{ raw := raw.take size.toNat, size, type, peer }] }
  /-- The consumer finds the queue empty and sleeps. -/
  | sleep {s : QueueRun Addr Peer} (testing : s.phase = .testing) (empty : s.queue.length = 0) :
      QueueStep s s
  /-- The consumer finds a message, without the lock. -/
  | test {s : QueueRun Addr Peer} (testing : s.phase = .testing) (filled : s.queue.length ≠ 0) :
      QueueStep s { s with phase := .ready }
  /-- The locked section of the consumer. -/
  | dequeue {s : QueueRun Addr Peer} {heap : MsgHeap Addr Peer} {queue : MsgQueue Addr}
      {after : Buffer} {size : UInt32} {type : UInt8} {peer : Peer} (raw : Buffer)
      (ready : s.phase = .ready)
      (returned : msgqueueDequeue s.heap s.queue raw = .ok (heap, queue, after, size, type, peer)) :
      QueueStep s { s with
        heap, queue
        phase := .testing
        received := s.received ++ [{ raw := after.window 0 size.toNat, size, type, peer }] }

/-- A queue that was just made. -/
def QueueRun.Initial (s : QueueRun Addr Peer) : Prop :=
  ∃ (heap : MsgHeap Addr Peer) (head tail : Addr) (headNode tailNode : MsgNode Addr Peer),
    heap head = none ∧ heap tail = none ∧ head ≠ tail ∧
    s = { heap := (msgqueueInit heap head tail headNode tailNode).1
          queue := (msgqueueInit heap head tail headNode tailNode).2
          phase := .testing, enqueued := [], received := [] }

/-- The states that the threads reach from there, in any interleaving. -/
def QueueRun.Reachable (s : QueueRun Addr Peer) : Prop :=
  ∃ start : QueueRun Addr Peer, start.Initial ∧ Relation.ReflTransGen QueueStep start s

/-! ## The invariant -/

namespace QueueRun

/-- The nodes of the queue hold the messages that were enqueued and not received yet, in order, and
the length counts them as far as 32 bits go. -/
structure Inv (s : QueueRun Addr Peer) (nodes : List Addr) (pending : List (Message Peer)) :
    Prop where
  wellFormed : WellFormed s.heap s.queue nodes
  length : s.queue.length = .ofNat nodes.length
  messages : nodes.reverse.map s.heap.message = pending.map some
  sized : ∀ message ∈ pending, message.raw.length = message.size.toNat
  history : s.enqueued = s.received ++ pending
  ready : s.phase = .ready → nodes ≠ []

theorem Initial.inv {s : QueueRun Addr Peer} (initial : s.Initial) : s.Inv [] [] := by
  obtain ⟨heap, head, tail, headNode, tailNode, _, _, different, rfl⟩ := initial
  have next_eq : (msgqueueInit heap head tail headNode tailNode).1.next =
      Function.update (Function.update heap.next head (some tail)) tail none := by
    simp [msgqueueInit]
  have prev_eq : (msgqueueInit heap head tail headNode tailNode).1.prev =
      Function.update (Function.update heap.prev head none) tail (some head) := by
    simp [msgqueueInit]
  refine ⟨⟨⟨?_, ?_⟩, ?_, ?_⟩, rfl, rfl, ?_, rfl, ?_⟩
  · simp [msgqueueInit, different]
  · change List.IsChain _ [head, tail]
    rw [List.isChain_pair, Link, next_eq, prev_eq, Function.update_of_ne different,
      Function.update_self, Function.update_self]
    exact ⟨rfl, rfl⟩
  · change MsgHeap.prev _ head = none
    rw [prev_eq, Function.update_of_ne different, Function.update_self]
  · change MsgHeap.next _ tail = none
    rw [next_eq, Function.update_self]
  · simp
  · simp

section Steps

variable {s : QueueRun Addr Peer} {nodes : List Addr} {pending : List (Message Peer)}
  (inv : s.Inv nodes pending)

include inv

/-- A producer can always enqueue a message that it can read. -/
theorem Inv.enqueue {msg : Addr} {raw : List UInt8} {size : UInt32} (type : UInt8) (peer : Peer)
    (fresh : s.heap msg = none) (long : size.toNat ≤ raw.length) :
    ∃ heap, msgqueueEnqueue s.heap s.queue msg raw size type peer =
        .ok (heap, { s.queue with length := s.queue.length + 1 }) ∧
      Inv { s with
          heap
          queue := { s.queue with length := s.queue.length + 1 }
          enqueued := s.enqueued ++ [{ raw := raw.take size.toNat, size, type, peer }] }
        (msg :: nodes) (pending ++ [{ raw := raw.take size.toNat, size, type, peer }]) ∧
      ∀ addr, addr ≠ msg → s.heap addr = none → heap addr = none := by
  obtain ⟨heap, returned, wellFormed, new, messages, unused⟩ :=
    exists_msgqueueEnqueue type peer inv.wellFormed fresh long
  have others : nodes.reverse.map heap.message = nodes.reverse.map s.heap.message := by
    refine List.map_congr_left fun addr member => ?_
    have different : addr ≠ msg := by
      rintro rfl
      exact new (List.mem_reverse.mp member)
    rw [messages, Function.update_of_ne different]
  refine ⟨heap, returned, ⟨⟨wellFormed.linked, wellFormed.start, wellFormed.stop⟩, ?_, ?_, ?_, ?_,
    fun _ => List.cons_ne_nil _ _⟩, unused⟩
  · change s.queue.length + 1 = _
    rw [inv.length, List.length_cons, UInt32.ofNat_add]
    rfl
  · rw [List.reverse_cons, List.map_append, List.map_append, others, inv.messages,
      List.map_singleton, messages, Function.update_self]
    rfl
  · intro message member
    rcases List.mem_append.mp member with old | new
    · exact inv.sized message old
    · obtain rfl := List.mem_singleton.mp new
      exact List.length_take_of_le long
  · change s.enqueued ++ _ = s.received ++ _
    rw [inv.history, List.append_assoc]

/-- The consumer takes a message out, and never a sentinel. -/
theorem Inv.dequeue (filled : nodes ≠ []) :
    ∃ rest msg message others, nodes = rest ++ [msg] ∧ pending = message :: others ∧
      s.heap.prev s.queue.tail = some msg ∧ s.heap.message msg = some message ∧
      ∀ raw : Buffer, message.size.toNat ≤ raw.size →
        ∃ heap, msgqueueDequeue s.heap s.queue raw =
            .ok (heap, { s.queue with length := s.queue.length - 1 }, raw.write 0 message.raw,
              message.size, message.type, message.peer) ∧
          Inv { s with
              heap
              queue := { s.queue with length := s.queue.length - 1 }
              phase := .testing
              received := s.received ++ [message] }
            rest others := by
  obtain ⟨rest, msg, rfl⟩ : ∃ rest msg, nodes = rest ++ [msg] :=
    ⟨_, _, (List.dropLast_append_getLast filled).symm⟩
  have messages := inv.messages
  rw [List.reverse_append, List.reverse_singleton, List.singleton_append, List.map_cons] at messages
  cases pending with
  | nil => contradiction
  | cons message others =>
      rw [List.map_cons, List.cons.injEq] at messages
      obtain ⟨found, remaining⟩ := messages
      refine ⟨rest, msg, message, others, rfl, rfl, inv.wellFormed.prev_tail, found,
        fun raw room => ?_⟩
      obtain ⟨heap, returned, wellFormed, left⟩ := exists_msgqueueDequeue inv.wellFormed found
        (inv.sized message List.mem_cons_self) room
      have kept : ∀ addr ∈ rest.reverse, heap.message addr = s.heap.message addr := by
        intro addr member
        have distinct := (List.nodup_cons.mp inv.wellFormed.linked.distinct).2
        have different : addr ≠ msg := (List.nodup_append.mp distinct.of_append_left).2.2 addr
          (List.mem_reverse.mp member) msg List.mem_cons_self
        rw [left, Function.update_of_ne different]
      refine ⟨heap, returned, ⟨wellFormed.linked, wellFormed.start, wellFormed.stop⟩, ?_, ?_, ?_,
        ?_, fun ready => by cases ready⟩
      · change s.queue.length - 1 = _
        rw [inv.length, List.length_append, UInt32.ofNat_add]
        exact UInt32.add_sub_cancel _ _
      · exact (List.map_congr_left kept).trans remaining
      · exact fun other member => inv.sized other (List.mem_cons_of_mem _ member)
      · change s.enqueued = s.received ++ [message] ++ others
        rw [inv.history, List.append_assoc]
        rfl

end Steps

/-- The invariant is kept by every step. -/
theorem Inv.step {s t : QueueRun Addr Peer} {nodes : List Addr} {pending : List (Message Peer)}
    (inv : s.Inv nodes pending) (step : QueueStep s t) :
    ∃ nodes pending, t.Inv nodes pending := by
  cases step with
  | enqueue msg raw size type peer fresh returned =>
      obtain ⟨heap, enqueued, after, _⟩ :=
        inv.enqueue type peer fresh (long_of_msgqueueEnqueue returned)
      obtain ⟨rfl, rfl⟩ := Prod.mk.inj (Except.ok.inj (enqueued.symm.trans returned))
      exact ⟨_, _, after⟩
  | sleep testing empty => exact ⟨nodes, pending, inv⟩
  | test testing filled =>
      refine ⟨nodes, pending, inv.wellFormed, inv.length, inv.messages, inv.sized, inv.history, ?_⟩
      rintro _ rfl
      exact filled inv.length
  | dequeue raw ready returned =>
      obtain ⟨rest, msg, message, others, _, rfl, oldest, found, dequeues⟩ :=
        inv.dequeue (inv.ready ready)
      obtain ⟨heap, dequeued, after⟩ := dequeues raw (room_of_msgqueueDequeue oldest found returned)
      have results := Except.ok.inj (dequeued.symm.trans returned)
      simp only [Prod.mk.injEq] at results
      obtain ⟨rfl, rfl, rfl, rfl, rfl, rfl⟩ := results
      have handed : (raw.write 0 message.raw).window 0 message.size.toNat = message.raw := by
        rw [← inv.sized message List.mem_cons_self, Buffer.window_write_self]
      rw [handed]
      exact ⟨rest, others, after⟩

theorem Reachable.inv {s : QueueRun Addr Peer} (reachable : s.Reachable) :
    ∃ nodes pending, s.Inv nodes pending := by
  obtain ⟨start, initial, run⟩ := reachable
  induction run with
  | refl => exact ⟨[], [], initial.inv⟩
  | tail _ step ih =>
      obtain ⟨nodes, pending, inv⟩ := ih
      exact inv.step step

/-! ## First in, first out -/

/-- A queue in which `pending` messages wait in `nodes`: what the threads can rely on. -/
structure Fifo (s : QueueRun Addr Peer) (nodes : List Addr) (pending : List (Message Peer)) :
    Prop where
  /-- The list between the sentinels is well formed. -/
  wellFormed : WellFormed s.heap s.queue nodes
  inverse : ∀ left ∈ s.queue.head :: (nodes ++ [s.queue.tail]),
    ∀ right ∈ s.queue.head :: (nodes ++ [s.queue.tail]),
      (s.heap.next left = some right ↔ s.heap.prev right = some left)
  length : s.queue.length.toNat = nodes.length % 2 ^ 32
  /-- What was received, and what waits from the oldest node on, is what was enqueued. -/
  history : s.enqueued = s.received ++ pending
  messages : nodes.reverse.map s.heap.message = pending.map some
  /-- A consumer that is about to take the lock finds a node that is no sentinel. -/
  oldest : s.phase = .ready → ∃ msg ∈ nodes, s.heap.prev s.queue.tail = some msg ∧
    msg ≠ s.queue.head ∧ msg ≠ s.queue.tail
  /-- Neither locked section fails, as long as its caller's memory is large enough. -/
  enqueues : ∀ msg raw size type peer, s.heap msg = none → size.toNat ≤ raw.length →
    ∃ after, msgqueueEnqueue s.heap s.queue msg raw size type peer = .ok after
  dequeues : s.phase = .ready → ∀ raw : Buffer,
    (∀ message ∈ pending.head?, message.size.toNat ≤ raw.size) →
      ∃ after, msgqueueDequeue s.heap s.queue raw = .ok after

/-- In every interleaving of producers with one consumer the queue hands over the messages that were
enqueued, in the order of the locked sections, each of them once; its length is the number of its
nodes modulo 2^32. -/
theorem fifo_of_reachable (s : QueueRun Addr Peer) (reachable : s.Reachable) :
    ∃ nodes pending, s.Fifo nodes pending := by
  obtain ⟨nodes, pending, inv⟩ := reachable.inv
  refine ⟨nodes, pending, inv.wellFormed, ?_, ?_, inv.history, inv.messages, ?_, ?_, ?_⟩
  · exact fun left leftIn right rightIn => inv.wellFormed.next_iff_prev leftIn rightIn
  · rw [inv.length]
    exact UInt32.toNat_ofNat'
  · intro ready
    obtain ⟨rest, msg, _, _, rfl, _, oldest, _⟩ := inv.dequeue (inv.ready ready)
    have member : msg ∈ rest ++ [msg] := List.mem_append_right _ List.mem_cons_self
    exact ⟨msg, member, oldest, inv.wellFormed.ne_sentinel member⟩
  · intro msg raw size type peer fresh long
    obtain ⟨_, returned, _⟩ := inv.enqueue type peer fresh long
    exact ⟨_, returned⟩
  · intro ready raw room
    obtain ⟨_, _, message, _, _, rfl, _, _, dequeues⟩ := inv.dequeue (inv.ready ready)
    obtain ⟨_, returned, _⟩ := dequeues raw (room message (by simp))
    exact ⟨_, returned⟩

/-- A queue that was just made, with its sentinels at the addresses 0 and 1. -/
theorem exists_initial :
    ∃ s : QueueRun Nat Unit, s.Initial ∧ s.phase = .testing ∧ s.enqueued = [] ∧ s.received = [] ∧
      ∀ addr, 2 ≤ addr → s.heap addr = none := by
  have garbage : MsgNode Nat Unit :=
    { raw := [], size := 0, type := 0, peer := (), next := none, prev := none }
  refine ⟨_, ⟨fun _ => none, 0, 1, garbage, garbage, rfl, rfl, Nat.zero_ne_one, rfl⟩, rfl, rfl, rfl,
    ?_⟩
  intro addr beyond
  simp only [msgqueueInit]
  rw [Function.update_of_ne (by omega), Function.update_of_ne (by omega)]

section Continued

variable {s : QueueRun Addr Peer} {nodes : List Addr} {pending : List (Message Peer)}
  (inv : s.Inv nodes pending) (reachable : s.Reachable)

include inv reachable

/-- A run goes on with an enqueue. -/
theorem Reachable.exists_enqueue {msg : Addr} {raw : List UInt8} {size : UInt32} (type : UInt8)
    (peer : Peer) (fresh : s.heap msg = none) (long : size.toNat ≤ raw.length) :
    ∃ t : QueueRun Addr Peer, t.Reachable ∧
      t.Inv (msg :: nodes) (pending ++ [⟨raw.take size.toNat, size, type, peer⟩]) ∧
      t.phase = s.phase ∧ t.enqueued = s.enqueued ++ [⟨raw.take size.toNat, size, type, peer⟩] ∧
      t.received = s.received ∧ ∀ addr, addr ≠ msg → s.heap addr = none → t.heap addr = none := by
  obtain ⟨start, initial, run⟩ := reachable
  obtain ⟨heap, returned, after, unused⟩ := inv.enqueue type peer fresh long
  exact ⟨_, ⟨start, initial, run.tail (.enqueue msg raw size type peer fresh returned)⟩, after, rfl,
    rfl, rfl, unused⟩

/-- A consumer that finds messages receives the oldest one. -/
theorem Reachable.exists_receive {message : Message Peer} {others : List (Message Peer)}
    (oldest : pending = message :: others) (testing : s.phase = .testing) (filled : nodes ≠ [])
    (nonempty : s.queue.length ≠ 0) :
    ∃ t : QueueRun Addr Peer, t.Reachable ∧ t.enqueued = s.enqueued ∧
      t.received = s.received ++ [message] := by
  obtain ⟨start, initial, run⟩ := reachable
  have tested : Inv { s with phase := .ready } nodes pending :=
    ⟨inv.wellFormed, inv.length, inv.messages, inv.sized, inv.history, fun _ => filled⟩
  obtain ⟨_, _, found, _, _, pending_eq, _, _, dequeues⟩ := tested.dequeue filled
  obtain ⟨rfl, _⟩ := List.cons.inj (pending_eq.symm.trans oldest)
  obtain ⟨_, returned, _⟩ := dequeues { size := found.size.toNat, byte := fun _ => 0 } le_rfl
  refine ⟨_, ⟨start, initial, (run.tail (.test testing nonempty)).tail (.dequeue _ rfl returned)⟩,
    rfl, ?_⟩
  have size_eq := inv.sized found (oldest ▸ List.mem_cons_self)
  rw [← size_eq, Buffer.window_write_self]

end Continued

/-- A run of any number of enqueues, and nothing else. -/
theorem exists_reachable (n : Nat) :
    ∃ s : QueueRun Nat Unit, s.Reachable ∧ s.enqueued.length = n ∧ s.received = [] ∧
      ∀ addr, n + 2 ≤ addr → s.heap addr = none := by
  induction n with
  | zero =>
      obtain ⟨s, initial, _, enqueued, received, unused⟩ := exists_initial
      exact ⟨s, ⟨s, initial, .refl⟩, by rw [enqueued, List.length_nil], received, unused⟩
  | succ n ih =>
      obtain ⟨s, reachable, count, received, unused⟩ := ih
      obtain ⟨nodes, pending, inv⟩ := reachable.inv
      obtain ⟨t, continued, _, _, enqueued, kept, other⟩ :=
        reachable.exists_enqueue inv 0 () (unused (n + 2) le_rfl)
          (show (0 : UInt32).toNat ≤ ([] : List UInt8).length from le_rfl)
      refine ⟨t, continued, by simp [enqueued, count], kept.trans received, ?_⟩
      intro addr beyond
      exact other addr (by omega) (unused addr (by omega))

/-- Two messages are enqueued, and the consumer finds the queue filled and receives the first. -/
theorem exists_received :
    ∃ s : QueueRun Nat Unit, s.Reachable ∧
      s.enqueued = [⟨[7], 1, 3, ()⟩, ⟨[8, 9], 2, 4, ()⟩] ∧ s.received = [⟨[7], 1, 3, ()⟩] := by
  obtain ⟨start, initial, testing, enqueued, received, unused⟩ := exists_initial
  obtain ⟨once, reachable, inv, phase, onceEnqueued, onceReceived, other⟩ :=
    Reachable.exists_enqueue initial.inv ⟨start, initial, .refl⟩ 3 () (unused 2 le_rfl)
      (show (1 : UInt32).toNat ≤ ([7] : List UInt8).length from le_rfl)
  obtain ⟨twice, reachable, inv, samePhase, twiceEnqueued, twiceReceived, _⟩ :=
    reachable.exists_enqueue inv 4 () (other 3 (by decide) (unused 3 (by decide)))
      (show (2 : UInt32).toNat ≤ ([8, 9] : List UInt8).length from le_rfl)
  have nonempty : twice.queue.length ≠ 0 := by
    rw [inv.length]
    decide
  obtain ⟨s, reachable, enqueued_eq, received_eq⟩ := reachable.exists_receive inv rfl
    (samePhase.trans (phase.trans testing)) (List.cons_ne_nil _ _) nonempty
  refine ⟨s, reachable, ?_, ?_⟩
  · rw [enqueued_eq, twiceEnqueued, onceEnqueued, enqueued]
    rfl
  · rw [received_eq, twiceReceived, onceReceived, received]
    rfl

theorem fifo_of_reachable_received :
    ∃ s : QueueRun Nat Unit, s.received = [⟨[7], 1, 3, ()⟩] ∧
      s.enqueued = [⟨[7], 1, 3, ()⟩, ⟨[8, 9], 2, 4, ()⟩] ∧
      ∃ nodes pending, s.Fifo nodes pending := by
  obtain ⟨s, reachable, enqueued, received⟩ := exists_received
  exact ⟨s, received, enqueued, fifo_of_reachable s reachable⟩

/-- When 2^32 messages wait, the length of the queue is 0. -/
theorem length_wraps :
    ∃ s : QueueRun Nat Unit, s.Reachable ∧
      ∀ nodes, WellFormed s.heap s.queue nodes → s.queue.length.toNat ≠ nodes.length := by
  obtain ⟨s, reachable, count, received, _⟩ := exists_reachable (2 ^ 32)
  refine ⟨s, reachable, fun nodes wellFormed => ?_⟩
  obtain ⟨others, pending, inv⟩ := reachable.inv
  obtain rfl := wellFormed.unique inv.wellFormed
  have waiting := congrArg List.length inv.messages
  rw [List.length_map, List.length_map, List.length_reverse] at waiting
  rw [inv.history, received, List.nil_append, ← waiting] at count
  rw [inv.length, count]
  decide

end QueueRun

end Freecoin
