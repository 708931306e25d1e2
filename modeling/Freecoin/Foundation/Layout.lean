import Freecoin.Foundation.Memory

/-!
# Layouts of records

A record is written field by field, each field at a position of its own.  When the fields tile the
record, the writes are one write of the bytes they have together, and no byte is written twice.
-/

namespace Foundation

/-- A field as it is written: its position in the record and its bytes. -/
structure Field where
  start : Nat
  bytes : List UInt8

/-- The field is written over the byte at an index of the record. -/
def Field.Covers (field : Field) (index : Nat) : Prop :=
  field.start ≤ index ∧ index < field.start + field.bytes.length

instance (field : Field) (index : Nat) : Decidable (field.Covers index) :=
  inferInstanceAs (Decidable (_ ∧ _))

/-- Write the fields of a record, one after the other, to `buffer[pos..]`. -/
def storeFields (pos : Nat) : List Field → Buffer → Run Buffer
  | [], buffer => .ok buffer
  | field :: fields, buffer => do
      let buffer ← buffer.store (pos + field.start) field.bytes
      storeFields pos fields buffer

/-- Each field starts where the one before it ends. -/
def Tiles : (start : Nat) → List Field → (stop : Nat) → Prop
  | start, [], stop => start = stop
  | start, field :: fields, stop =>
      field.start = start ∧ Tiles (start + field.bytes.length) fields stop

namespace Tiles

variable {start stop : Nat} {fields : List Field}

theorem start_le (tiles : Tiles start fields stop) : start ≤ stop := by
  induction fields generalizing start with
  | nil => exact Nat.le_of_eq tiles
  | cons field fields ih =>
      have rest := ih tiles.2
      omega

/-- Fields that tile a record are written as one string. -/
theorem storeFields_eq {pos : Nat} {buffer : Buffer} (tiles : Tiles start fields stop)
    (inside : pos + stop ≤ buffer.size) :
    storeFields pos fields buffer =
      .ok (buffer.write (pos + start) (fields.flatMap Field.bytes)) := by
  induction fields generalizing start buffer with
  | nil =>
      rw [List.flatMap_nil, Buffer.write_nil]
      rfl
  | cons field fields ih =>
      obtain ⟨start_eq, rest⟩ := tiles
      have next := rest.start_le
      have fits : pos + field.start + field.bytes.length ≤ buffer.size := by omega
      have room : pos + stop ≤ (buffer.write (pos + field.start) field.bytes).size := inside
      rw [storeFields, Buffer.store_of_le fits, Run.ok_bind, ih rest room, start_eq,
        List.flatMap_cons, Buffer.write_append _ _ _ (Nat.add_assoc pos start _).symm]

/-- Outside of the record nothing is written. -/
theorem countP_covers_of_outside {index : Nat} (tiles : Tiles start fields stop)
    (outside : index < start ∨ stop ≤ index) :
    fields.countP (fun field => field.Covers index) = 0 := by
  induction fields generalizing start with
  | nil => rfl
  | cons field fields ih =>
      obtain ⟨start_eq, rest⟩ := tiles
      have next := rest.start_le
      have missed : ¬ field.Covers index := by
        rintro ⟨lower, upper⟩
        omega
      rw [List.countP_cons_of_neg (by simpa using missed)]
      exact ih rest (by omega)

/-- Inside, every byte is written once. -/
theorem countP_covers {index : Nat} (tiles : Tiles start fields stop) (lower : start ≤ index)
    (upper : index < stop) : fields.countP (fun field => field.Covers index) = 1 := by
  induction fields generalizing start with
  | nil =>
      have empty : start = stop := tiles
      omega
  | cons field fields ih =>
      obtain ⟨start_eq, rest⟩ := tiles
      by_cases covered : field.Covers index
      · have behind : index < start + field.bytes.length := start_eq ▸ covered.2
        rw [List.countP_cons_of_pos (by simpa using covered),
          rest.countP_covers_of_outside (Or.inl behind)]
      · have after : start + field.bytes.length ≤ index := by
          by_contra within
          exact covered ⟨by omega, by omega⟩
        rw [List.countP_cons_of_neg (by simpa using covered)]
        exact ih rest after

/-- A record that starts at zero is covered once, and nothing behind it. -/
theorem countP_covers_eq (tiles : Tiles 0 fields stop) (index : Nat) :
    fields.countP (fun field => field.Covers index) = if index < stop then 1 else 0 := by
  split
  · rename_i inside
    exact tiles.countP_covers (Nat.zero_le index) inside
  · rename_i outside
    exact tiles.countP_covers_of_outside (Or.inr (Nat.not_lt.mp outside))

end Tiles

end Foundation
