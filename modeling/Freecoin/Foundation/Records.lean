import Freecoin.Foundation.Memory

/-!
# Fixed-size records

A `RecordCodec` is a fixed-size encoding whose decoder is exact in both directions: it inverts the
encoder in front of any rest, and what it accepts is an encoding.  Arrays of records inherit both
laws, so a format made of counted arrays is a bijection once its records are.
-/

namespace Foundation

/-- An exact fixed-size encoding of records. -/
structure RecordCodec (Record : Type) where
  /-- Number of bytes of every record. -/
  size : Nat
  /-- The bytes of a record. -/
  encode : Record → List UInt8
  /-- Read the record behind a pointer. -/
  decode : List UInt8 → Run Record
  /-- Every record occupies `size` bytes. -/
  length_encode : ∀ record, (encode record).length = size
  /-- Decoding reads an encoded record back, whatever follows it. -/
  decode_encode : ∀ record rest, decode (encode record ++ rest) = .ok record
  /-- A decoded record is encoded by the bytes that were read. -/
  encode_of_decode : ∀ {source record}, decode source = .ok record →
    ∃ rest, source = encode record ++ rest
  /-- Only a short source makes decoding fail. -/
  decode_total : ∀ source, size ≤ source.length → ∃ record, decode source = .ok record

namespace RecordCodec

variable {Record : Type} (codec : RecordCodec Record)

/-- The bytes of an array of records. -/
def encodeAll (records : List Record) : List UInt8 := records.flatMap codec.encode

/-- Read `count` records behind a pointer. -/
def decodeAll : Nat → List UInt8 → Run (List Record)
  | 0, _ => .ok []
  | count + 1, source => do
      let record ← codec.decode source
      let records ← decodeAll count (source.drop codec.size)
      return record :: records

@[simp] theorem encodeAll_nil : codec.encodeAll [] = [] := rfl

@[simp] theorem encodeAll_cons (record : Record) (records : List Record) :
    codec.encodeAll (record :: records) = codec.encode record ++ codec.encodeAll records := rfl

@[simp] theorem length_encodeAll (records : List Record) :
    (codec.encodeAll records).length = records.length * codec.size := by
  induction records with
  | nil => simp
  | cons record records ih =>
      simp only [encodeAll_cons, List.length_append, codec.length_encode, ih, List.length_cons]
      ring

theorem drop_encode (record : Record) (rest : List UInt8) :
    (codec.encode record ++ rest).drop codec.size = rest := by
  rw [← codec.length_encode record, List.drop_left]

/-- Nothing of a record is lost in its bytes. -/
theorem encode_injective : Function.Injective codec.encode := by
  intro record other same
  have decoded := codec.decode_encode record []
  rw [same, codec.decode_encode other []] at decoded
  exact (Except.ok.inj decoded).symm

/-- What was decoded from a source of the size of a record is encoded as that source. -/
theorem encode_eq_of_decode {source : List UInt8} {record : Record}
    (size_eq : source.length = codec.size) (decoded : codec.decode source = .ok record) :
    codec.encode record = source := by
  obtain ⟨rest, split⟩ := codec.encode_of_decode decoded
  have whole := congrArg List.length split
  rw [List.length_append, codec.length_encode, size_eq] at whole
  obtain rfl : rest = [] := List.eq_nil_of_length_eq_zero (by omega)
  rw [split, List.append_nil]

/-- What stands in a buffer after a record was written to it. -/
theorem window_write_encode (record : Record) (buffer : Buffer) (start : Nat) :
    (buffer.write start (codec.encode record)).window start codec.size = codec.encode record := by
  rw [← codec.length_encode record, Buffer.window_write_self]

/-- Decoding reads an encoded array back, whatever follows it. -/
theorem decodeAll_encodeAll (records : List Record) (rest : List UInt8) :
    codec.decodeAll records.length (codec.encodeAll records ++ rest) = .ok records := by
  induction records with
  | nil => rfl
  | cons record records ih =>
      simp only [List.length_cons, decodeAll, encodeAll_cons, List.append_assoc,
        codec.decode_encode, Run.ok_bind, drop_encode, ih, Run.pure_eq_ok]

/-- A decoded array has the requested length and is encoded by the bytes that were read. -/
theorem encodeAll_of_decodeAll {count : Nat} {source : List UInt8} {records : List Record}
    (decoded : codec.decodeAll count source = .ok records) :
    records.length = count ∧ ∃ rest, source = codec.encodeAll records ++ rest := by
  induction count generalizing source records with
  | zero =>
      obtain rfl := Except.ok.inj decoded
      exact ⟨rfl, source, rfl⟩
  | succ count ih =>
      simp only [decodeAll, Run.bind_eq_ok, Run.pure_eq_ok, Except.ok.injEq] at decoded
      obtain ⟨record, first, records, others, rfl⟩ := decoded
      obtain ⟨tail, rfl⟩ := codec.encode_of_decode first
      rw [drop_encode] at others
      obtain ⟨length_eq, rest, rfl⟩ := ih others
      exact ⟨by rw [List.length_cons, length_eq], rest, by simp⟩

/-- Only a short source makes decoding an array fail. -/
theorem decodeAll_total (count : Nat) (source : List UInt8)
    (long : count * codec.size ≤ source.length) :
    ∃ records, codec.decodeAll count source = .ok records := by
  induction count generalizing source with
  | zero => exact ⟨[], rfl⟩
  | succ count ih =>
      have split : (count + 1) * codec.size = codec.size + count * codec.size := by ring
      obtain ⟨record, first⟩ := codec.decode_total source (by omega)
      obtain ⟨records, others⟩ := ih (source.drop codec.size) (by
        rw [List.length_drop]
        omega)
      exact ⟨record :: records, by simp [decodeAll, first, others]⟩

end RecordCodec

end Foundation
