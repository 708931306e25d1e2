import Mathlib.Data.Vector.Basic
import Mathlib.Tactic.Ring

/-!
# Checked byte memory

A run of a C function either produces a value or ends in a fault.  Source bytes are lists, so that
a pointer into an object is a suffix of that object; destination objects are `Buffer`s, whose size
is fixed and whose bytes are arbitrary until they are written.  No access outside an object is
given a value.
-/

namespace Foundation

/-- The ways in which a run can leave defined behaviour, or stop without returning. -/
inductive Fault where
  /-- An access outside an object. -/
  | outOfBounds
  /-- A member of a null pointer was accessed. -/
  | nullPointer
  /-- An integer division by zero. -/
  | divisionByZero
  /-- A signed operation left the range of its type. -/
  | intOverflow
  /-- A variable was read before it had a value. -/
  | uninitialized
  /-- The program stopped itself with a message. -/
  | fatal (message : String)
  /-- The loop budget of the model ran out. -/
  | outOfFuel
  deriving DecidableEq, Repr

/-- A run produces a value or ends in a fault. -/
abbrev Run (α : Type) := Except Fault α

namespace Run

variable {α β : Type}

@[simp] theorem ok_bind (value : α) (next : α → Run β) :
    ((.ok value : Run α) >>= next) = next value := rfl

@[simp] theorem error_bind (fault : Fault) (next : α → Run β) :
    ((.error fault : Run α) >>= next) = .error fault := rfl

@[simp] theorem pure_eq_ok (value : α) : (pure value : Run α) = .ok value := rfl

@[simp] theorem bind_ok (run : Run α) : (run >>= fun value => .ok value) = run :=
  bind_pure run

/-- A composite run returns exactly when both of its parts do. -/
theorem bind_eq_ok {first : Run α} {next : α → Run β} {result : β} :
    (first >>= next) = .ok result ↔ ∃ value, first = .ok value ∧ next value = .ok result := by
  cases first with
  | error fault => simp
  | ok value => simp

theorem map_eq_ok {run : Run α} {f : α → β} {result : β} :
    f <$> run = .ok result ↔ ∃ value, run = .ok value ∧ f value = result := by
  cases run with
  | error fault => simp
  | ok value => simp

/-- A checked value is returned exactly when the check succeeds. -/
theorem ite_eq_ok {check : Prop} [Decidable check] {value result : α} {fault : Fault} :
    (if check then .ok value else .error fault : Run α) = .ok result ↔
      check ∧ result = value := by
  split
  · rename_i holds
    simp [holds, eq_comm]
  · rename_i fails
    simp [fails]

end Run

/-! ## Reading arrays -/

/-- Element `index` of an array. -/
def fetch {α : Type} (cells : List α) (index : Nat) : Run α :=
  match cells[index]? with
  | some cell => .ok cell
  | none => .error .outOfBounds

theorem fetch_eq_ok {α : Type} {cells : List α} {index : Nat} {cell : α} :
    fetch cells index = .ok cell ↔ cells[index]? = some cell := by
  unfold fetch
  cases cells[index]? <;> simp

@[simp] theorem fetch_of_lt {α : Type} {cells : List α} {index : Nat}
    (inside : index < cells.length) : fetch cells index = .ok cells[index] := by
  rw [fetch_eq_ok, List.getElem?_eq_getElem inside]

/-- Assign element `index` of an array. -/
def assign {α : Type} (cells : List α) (index : Nat) (value : α) : Run (List α) :=
  if index < cells.length then .ok (cells.set index value) else .error .outOfBounds

@[simp] theorem assign_of_lt {α : Type} {cells : List α} {index : Nat} {value : α}
    (inside : index < cells.length) : assign cells index value = .ok (cells.set index value) := by
  simp [assign, inside]

theorem assign_eq_ok {α : Type} {cells after : List α} {index : Nat} {value : α} :
    assign cells index value = .ok after ↔
      index < cells.length ∧ after = cells.set index value := Run.ite_eq_ok

/-- An array of at least two cells. -/
theorem exists_cons_cons {α : Type} {cells : List α} {count : Nat}
    (length_eq : cells.length = count + 2) :
    ∃ first second rest, cells = first :: second :: rest ∧ rest.length = count := by
  obtain ⟨first, others, rfl⟩ := List.exists_cons_of_length_eq_add_one length_eq
  rw [List.length_cons] at length_eq
  obtain ⟨second, rest, rfl⟩ :=
    List.exists_cons_of_length_eq_add_one (show others.length = count + 1 by omega)
  rw [List.length_cons] at length_eq
  exact ⟨first, second, rest, rfl, by omega⟩

/-- Behind a front part, the element in front of the rest is read. -/
theorem fetch_append {α : Type} {front : List α} {index : Nat} (cell : α) (back : List α)
    (length_eq : front.length = index) : fetch (front ++ cell :: back) index = .ok cell := by
  rw [fetch_eq_ok, ← length_eq, List.getElem?_append_right le_rfl, Nat.sub_self]
  rfl

/-- And assigned. -/
theorem assign_append {α : Type} {front : List α} {index : Nat} (cell value : α) (back : List α)
    (length_eq : front.length = index) :
    assign (front ++ cell :: back) index value = .ok (front ++ value :: back) := by
  rw [assign_of_lt (by simp [← length_eq]), ← length_eq, List.set_append_right _ _ le_rfl,
    Nat.sub_self, List.set_cons_zero]

/-- The first `count` bytes behind a pointer, as a fixed-size array. -/
def copyOut (count : Nat) (source : List UInt8) : Run (List.Vector UInt8 count) :=
  if inside : count ≤ source.length then
    .ok ⟨source.take count, by simp [inside]⟩
  else
    .error .outOfBounds

theorem copyOut_eq_ok {count : Nat} {source : List UInt8} {copied : List.Vector UInt8 count} :
    copyOut count source = .ok copied ↔
      count ≤ source.length ∧ copied.toList = source.take count := by
  unfold copyOut
  split
  · rename_i inside
    constructor
    · intro equality
      obtain rfl := Except.ok.inj equality
      exact ⟨inside, rfl⟩
    · rintro ⟨_, equality⟩
      rw [show copied = ⟨source.take count, by simp [inside]⟩ from List.Vector.eq _ _ equality]
  · rename_i outside
    simp [outside]

@[simp] theorem copyOut_append {count : Nat} (copied : List.Vector UInt8 count)
    (rest : List UInt8) : copyOut count (copied.toList ++ rest) = .ok copied := by
  rw [copyOut_eq_ok]
  simp

/-- What was copied out is the front of what the pointer addresses. -/
theorem copyOut_split {count : Nat} {source : List UInt8} {copied : List.Vector UInt8 count}
    (read : copyOut count source = .ok copied) :
    source = copied.toList ++ source.drop count := by
  rw [(copyOut_eq_ok.mp read).2, List.take_append_drop]

theorem exists_copyOut (count : Nat) (source : List UInt8) (long : count ≤ source.length) :
    ∃ copied, copyOut count source = .ok copied :=
  ⟨⟨source.take count, by simp [long]⟩, by simp [copyOut, long]⟩

/-- The first `count` bytes behind a pointer, for a count known only at run time. -/
def readOut (count : Nat) (source : List UInt8) : Run (List UInt8) :=
  if count ≤ source.length then .ok (source.take count) else .error .outOfBounds

theorem readOut_of_le {count : Nat} {source : List UInt8} (inside : count ≤ source.length) :
    readOut count source = .ok (source.take count) := by
  simp [readOut, inside]

theorem readOut_eq_ok {count : Nat} {source copied : List UInt8} :
    readOut count source = .ok copied ↔ count ≤ source.length ∧ copied = source.take count :=
  Run.ite_eq_ok

/-! ## Destination buffers -/

/-- A destination object: a size, and bytes that are arbitrary until written. -/
@[ext]
structure Buffer where
  /-- Number of bytes of the object. -/
  size : Nat
  /-- Current content. -/
  byte : Nat → UInt8

namespace Buffer

/-- The content after copying `bytes` to `start`, without a bounds check. -/
def write (buffer : Buffer) (start : Nat) (bytes : List UInt8) : Buffer where
  size := buffer.size
  byte index :=
    if start ≤ index then bytes[index - start]?.getD (buffer.byte index) else buffer.byte index

/-- Copy `bytes` to `start`, if they fit. -/
def store (buffer : Buffer) (start : Nat) (bytes : List UInt8) : Run Buffer :=
  if start + bytes.length ≤ buffer.size then .ok (buffer.write start bytes)
  else .error .outOfBounds

/-- The `count` bytes from `start`, without a bounds check. -/
def window (buffer : Buffer) (start count : Nat) : List UInt8 :=
  (List.range count).map fun index => buffer.byte (start + index)

/-- Read `count` bytes from `start`, if they are inside the object. -/
def read (buffer : Buffer) (start count : Nat) : Run (List UInt8) :=
  if start + count ≤ buffer.size then .ok (buffer.window start count) else .error .outOfBounds

@[simp] theorem size_write (buffer : Buffer) (start : Nat) (bytes : List UInt8) :
    (buffer.write start bytes).size = buffer.size := rfl

@[simp] theorem length_window (buffer : Buffer) (start count : Nat) :
    (buffer.window start count).length = count := by
  simp [window]

@[simp] theorem getElem_window (buffer : Buffer) (start count index : Nat)
    (inside : index < (buffer.window start count).length) :
    (buffer.window start count)[index] = buffer.byte (start + index) := by
  simp [window]

theorem store_of_le {buffer : Buffer} {start : Nat} {bytes : List UInt8}
    (inside : start + bytes.length ≤ buffer.size) :
    buffer.store start bytes = .ok (buffer.write start bytes) := by
  simp [store, inside]

theorem store_eq_ok {buffer after : Buffer} {start : Nat} {bytes : List UInt8} :
    buffer.store start bytes = .ok after ↔
      start + bytes.length ≤ buffer.size ∧ after = buffer.write start bytes := by
  unfold store
  split <;> simp_all [eq_comm]

theorem read_of_le {buffer : Buffer} {start count : Nat}
    (inside : start + count ≤ buffer.size) :
    buffer.read start count = .ok (buffer.window start count) := by
  simp [read, inside]

theorem byte_write_of_lt (buffer : Buffer) {start index : Nat} (bytes : List UInt8)
    (before : index < start) : (buffer.write start bytes).byte index = buffer.byte index := by
  simp [write, Nat.not_le.mpr before]

theorem byte_write_of_ge (buffer : Buffer) {start index : Nat} (bytes : List UInt8)
    (after : start + bytes.length ≤ index) :
    (buffer.write start bytes).byte index = buffer.byte index := by
  have beyond : bytes.length ≤ index - start := by omega
  simp [write, List.getElem?_eq_none beyond]

theorem byte_write_of_mem (buffer : Buffer) {start offset : Nat} (bytes : List UInt8)
    (inside : offset < bytes.length) :
    (buffer.write start bytes).byte (start + offset) = bytes[offset] := by
  simp [write, inside]

/-- Two adjacent writes are one write of the concatenation. -/
theorem write_append (buffer : Buffer) {start next : Nat} (front back : List UInt8)
    (adjacent : next = start + front.length) :
    (buffer.write start front).write next back = buffer.write start (front ++ back) := by
  subst adjacent
  ext index
  · rfl
  · simp only [write, List.getElem?_append]
    by_cases inBack : start + front.length ≤ index
    · have pastStart : start ≤ index := by omega
      have pastFront : ¬ index - start < front.length := by omega
      have shifted : index - (start + front.length) = index - start - front.length := by omega
      simp [inBack, pastStart, pastFront, shifted]
    · by_cases pastStart : start ≤ index
      · have inFront : index - start < front.length := by omega
        simp [inBack, pastStart, inFront]
      · simp [inBack, pastStart]

@[simp] theorem write_nil (buffer : Buffer) (start : Nat) : buffer.write start [] = buffer := by
  ext index
  · rfl
  · simp [write]

/-- A write covers an earlier one at the same place that is not longer. -/
theorem write_write (buffer : Buffer) (start : Nat) {before bytes : List UInt8}
    (covered : before.length ≤ bytes.length) :
    (buffer.write start before).write start bytes = buffer.write start bytes := by
  ext index
  · rfl
  · simp only [write]
    split
    · by_cases inside : index - start < bytes.length
      · simp [inside]
      · have beyond : before.length ≤ index - start := by omega
        simp [List.getElem?_eq_none (Nat.not_lt.mp inside), List.getElem?_eq_none beyond]
    · rfl

theorem window_append (buffer : Buffer) (start front back : Nat) :
    buffer.window start (front + back) =
      buffer.window start front ++ buffer.window (start + front) back := by
  simp [window, List.range_add, Function.comp_def, Nat.add_assoc]

@[simp] theorem window_write_self (buffer : Buffer) (start : Nat) (bytes : List UInt8) :
    (buffer.write start bytes).window start bytes.length = bytes := by
  apply List.ext_getElem
  · simp
  · intro index _ inside
    rw [getElem_window, byte_write_of_mem _ _ inside]

theorem window_take (buffer : Buffer) (start : Nat) {count total : Nat} (fits : count ≤ total) :
    (buffer.window start total).take count = buffer.window start count := by
  obtain ⟨rest, rfl⟩ := Nat.exists_eq_add_of_le fits
  rw [window_append]
  simp

theorem window_write_take (buffer : Buffer) (start : Nat) {count : Nat} {bytes : List UInt8}
    (inside : count ≤ bytes.length) :
    (buffer.write start bytes).window start count = bytes.take count := by
  rw [← window_take _ _ inside, window_write_self]

end Buffer

/-! ## Counted loops -/

/-- `for (i = start; i < start + count; i++)`, returning the first nonzero code. -/
def checkRange (check : Nat → Run UInt8) : Nat → Nat → Run UInt8
  | _, 0 => .ok 0
  | index, count + 1 => do
      let code ← check index
      if code ≠ 0 then .ok code else checkRange check (index + 1) count

/-- A checking loop returns zero exactly when every check in its range does. -/
theorem checkRange_eq_zero {check : Nat → Run UInt8} {start count : Nat} :
    checkRange check start count = .ok 0 ↔
      ∀ index, start ≤ index → index < start + count → check index = .ok 0 := by
  induction count generalizing start with
  | zero =>
      simp only [checkRange, true_iff]
      intro index lower upper
      omega
  | succ count ih =>
      rw [checkRange, Run.bind_eq_ok]
      constructor
      · rintro ⟨code, checked, rest⟩ index lower upper
        by_cases passed : code = 0
        · simp only [passed, ne_eq, not_true_eq_false, if_false] at rest checked
          rcases Nat.eq_or_lt_of_le lower with rfl | later
          · exact checked
          · exact ih.mp rest index later (by omega)
        · simp [passed] at rest
      · intro all
        refine ⟨0, all start le_rfl (by omega), ?_⟩
        simp only [ne_eq, not_true_eq_false, if_false]
        exact ih.mpr fun index lower upper => all index (by omega) (by omega)

/-- The codes a checking loop can return are those of its checks. -/
theorem checkRange_code {check : Nat → Run UInt8} {start count : Nat} {code : UInt8}
    (returned : checkRange check start count = .ok code) (failed : code ≠ 0) :
    ∃ index, check index = .ok code := by
  induction count generalizing start with
  | zero =>
      simp only [checkRange, Except.ok.injEq] at returned
      exact absurd returned.symm failed
  | succ count ih =>
      rw [checkRange, Run.bind_eq_ok] at returned
      obtain ⟨first, checked, rest⟩ := returned
      by_cases passed : first = 0
      · simp only [passed, ne_eq, not_true_eq_false, if_false] at rest
        exact ih rest
      · simp only [ne_eq, passed, not_false_eq_true, if_true, Except.ok.injEq] at rest
        exact ⟨start, rest ▸ checked⟩

end Foundation
