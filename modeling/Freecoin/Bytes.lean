import Freecoin.Foundation.Memory
import Mathlib.Tactic.IntervalCases

/-!
# Byte order and hexadecimal text

The conversions of `util.c` between integers and big-endian bytes, the bytes an integer object
occupies on the little-endian host, and the hexadecimal text that names files.
-/

namespace Freecoin

open Foundation

/-- A fixed-size byte array. -/
abbrev Bytes (count : Nat) := List.Vector UInt8 count

/-- A SHA-256 digest, the type of block and transaction ids. -/
abbrev Digest := Bytes 32

def sizeSha256 : Nat := 32

theorem length_flatMap_digests (ids : List Digest) :
    (ids.flatMap List.Vector.toList).length = ids.length * 32 := by
  induction ids with
  | nil => rfl
  | cons id ids ih =>
      rw [List.flatMap_cons, List.length_append, id.toList_length, ih, List.length_cons]
      ring

/-! ## Big-endian integers -/

/-- The two bytes of a 16-bit integer, most significant first. -/
def ustob (src : UInt16) : List UInt8 :=
  [((src >>> 8) &&& 0xff).toUInt8, (src &&& 0xff).toUInt8]

/-- The four bytes of a 32-bit integer, most significant first. -/
def uitob (src : UInt32) : List UInt8 :=
  [((src >>> 24) &&& 0xff).toUInt8, ((src >>> 16) &&& 0xff).toUInt8,
    ((src >>> 8) &&& 0xff).toUInt8, (src &&& 0xff).toUInt8]

/-- The 16-bit integer behind a pointer. -/
def btous : List UInt8 → Run UInt16
  | b₀ :: b₁ :: _ => .ok ((b₀.toUInt16 <<< 8) ||| b₁.toUInt16)
  | _ => .error .outOfBounds

/-- The 32-bit integer behind a pointer. -/
def btoui : List UInt8 → Run UInt32
  | b₀ :: b₁ :: b₂ :: b₃ :: _ =>
      .ok ((b₀.toUInt32 <<< 24) ||| (b₁.toUInt32 <<< 16) ||| (b₂.toUInt32 <<< 8) ||| b₃.toUInt32)
  | _ => .error .outOfBounds

@[simp] theorem length_ustob (src : UInt16) : (ustob src).length = 2 := rfl

@[simp] theorem length_uitob (src : UInt32) : (uitob src).length = 4 := rfl

@[simp] theorem btous_ustob (src : UInt16) (rest : List UInt8) :
    btous (ustob src ++ rest) = .ok src := by
  simp only [ustob, List.cons_append, btous, Except.ok.injEq]
  apply UInt16.eq_of_toBitVec_eq
  ext bit inside
  interval_cases bit <;> simp [-UInt16.toUInt16_toUInt8]

@[simp] theorem btoui_uitob (src : UInt32) (rest : List UInt8) :
    btoui (uitob src ++ rest) = .ok src := by
  simp only [uitob, List.cons_append, btoui, Except.ok.injEq]
  apply UInt32.eq_of_toBitVec_eq
  ext bit inside
  interval_cases bit <;> simp [-UInt32.toUInt32_toUInt8]

private theorem ustob_join (b₀ b₁ : UInt8) :
    ustob ((b₀.toUInt16 <<< 8) ||| b₁.toUInt16) = [b₀, b₁] := by
  simp only [ustob, List.cons.injEq, and_true]
  constructor <;>
    · apply UInt8.eq_of_toBitVec_eq
      ext bit inside
      interval_cases bit <;> simp

private theorem uitob_join (b₀ b₁ b₂ b₃ : UInt8) :
    uitob ((b₀.toUInt32 <<< 24) ||| (b₁.toUInt32 <<< 16) ||| (b₂.toUInt32 <<< 8) |||
      b₃.toUInt32) = [b₀, b₁, b₂, b₃] := by
  simp only [uitob, List.cons.injEq, and_true]
  refine ⟨?_, ?_, ?_, ?_⟩ <;>
    · apply UInt8.eq_of_toBitVec_eq
      ext bit inside
      interval_cases bit <;> simp

/-- Reading a 16-bit integer loses nothing: its bytes are the two that were read. -/
theorem ustob_of_btous {src : List UInt8} {value : UInt16} (loaded : btous src = .ok value) :
    src = ustob value ++ src.drop 2 := by
  match src, loaded with
  | b₀ :: b₁ :: rest, loaded =>
      simp only [btous, Except.ok.injEq] at loaded
      rw [← loaded, ustob_join]
      rfl

/-- Reading a 32-bit integer loses nothing: its bytes are the four that were read. -/
theorem uitob_of_btoui {src : List UInt8} {value : UInt32} (loaded : btoui src = .ok value) :
    src = uitob value ++ src.drop 4 := by
  match src, loaded with
  | b₀ :: b₁ :: b₂ :: b₃ :: rest, loaded =>
      simp only [btoui, Except.ok.injEq] at loaded
      rw [← loaded, uitob_join]
      rfl

theorem exists_btous (src : List UInt8) (long : 2 ≤ src.length) :
    ∃ value, btous src = .ok value := by
  match src, long with
  | b₀ :: b₁ :: rest, _ => exact ⟨_, rfl⟩

theorem exists_btoui (src : List UInt8) (long : 4 ≤ src.length) :
    ∃ value, btoui src = .ok value := by
  match src, long with
  | b₀ :: b₁ :: b₂ :: b₃ :: rest, _ => exact ⟨_, rfl⟩

theorem ustob_injective : Function.Injective ustob := by
  intro left right equality
  have loaded := btous_ustob left []
  rw [equality, btous_ustob] at loaded
  exact (Except.ok.inj loaded).symm

theorem uitob_injective : Function.Injective uitob := by
  intro left right equality
  have loaded := btoui_uitob left []
  rw [equality, btoui_uitob] at loaded
  exact (Except.ok.inj loaded).symm

/-! ## Integer objects in host memory -/

/-- The object representation of a 16-bit integer on the little-endian host. -/
def hostShort (src : UInt16) : List UInt8 := (ustob src).reverse

/-- The object representation of a 32-bit integer on the little-endian host. -/
def hostInt (src : UInt32) : List UInt8 := (uitob src).reverse

@[simp] theorem length_hostShort (src : UInt16) : (hostShort src).length = 2 := rfl

@[simp] theorem length_hostInt (src : UInt32) : (hostInt src).length = 4 := rfl

/-! ## Signed counters -/

/-- A number below 2^32 is what its 32 bits say. -/
theorem toNat_ofNat_of_lt {value : Nat} (small : value < 2 ^ 32) :
    (UInt32.ofNat value).toNat = value := UInt32.toNat_ofNat_of_lt' small

theorem toNat_pos_of_ne_zero {byte : UInt8} (nonzero : byte ≠ 0) : 0 < byte.toNat :=
  Nat.pos_of_ne_zero fun zero => nonzero (UInt8.toNat_inj.mp (zero.trans UInt8.toNat_zero.symm))

/-- `value += step` on an `int` that is not negative. -/
def intAdd (value step : Nat) : Run Nat :=
  if value + step < 2 ^ 31 then .ok (value + step) else .error .intOverflow

@[simp] theorem intAdd_of_lt {value step : Nat} (fits : value + step < 2 ^ 31) :
    intAdd value step = .ok (value + step) := if_pos fits

theorem intAdd_eq_ok {value step result : Nat} :
    intAdd value step = .ok result ↔ value + step < 2 ^ 31 ∧ result = value + step :=
  Run.ite_eq_ok

/-! ## Hexadecimal text -/

/-- The character of a nibble. -/
def nibbleToHexc (nibble : UInt8) : Char :=
  ['0', '1', '2', '3', '4', '5', '6', '7', '8', '9', 'a', 'b', 'c', 'd', 'e', 'f'].getD
    nibble.toNat '?'

/-- The lower-case hexadecimal text of a byte string, with its terminating zero. -/
def btoascii (bytes : List UInt8) : List Char :=
  (bytes.flatMap fun byte : UInt8 => [nibbleToHexc (byte >>> 4), nibbleToHexc (byte &&& 0x0f)]) ++
    ['\x00']

theorem nibbleToHexc_injective {left right : UInt8} (leftSmall : left < 16)
    (rightSmall : right < 16) (same : nibbleToHexc left = nibbleToHexc right) : left = right := by
  have digits : ∀ i j : Fin 16, nibbleToHexc (.ofNat i) = nibbleToHexc (.ofNat j) → i = j := by
    decide
  have equal := digits ⟨left.toNat, leftSmall⟩ ⟨right.toNat, rightSmall⟩ (by
    simpa only [UInt8.ofNat_toNat] using same)
  exact UInt8.toNat_inj.mp (Fin.mk.inj equal)

theorem nibbleToHexc_ne_zero (nibble : UInt8) : nibbleToHexc nibble ≠ '\x00' := by
  have digits : ∀ digit ∈ ['0', '1', '2', '3', '4', '5', '6', '7', '8', '9', 'a', 'b', 'c', 'd',
      'e', 'f', '?'], digit ≠ '\x00' := by simp
  apply digits
  rw [nibbleToHexc, List.getD_eq_getElem?_getD]
  cases found : ['0', '1', '2', '3', '4', '5', '6', '7', '8', '9', 'a', 'b', 'c', 'd', 'e',
      'f'][nibble.toNat]? with
  | none => simp
  | some digit =>
      exact List.mem_append_left ['?'] (List.mem_of_getElem? found)

theorem highNibble_lt (byte : UInt8) : byte >>> 4 < 16 := by
  have bound := byte.toNat_lt
  rw [UInt8.lt_iff_toNat_lt, UInt8.toNat_shiftRight]
  change byte.toNat >>> 4 < 16
  rw [Nat.shiftRight_eq_div_pow]
  omega

theorem lowNibble_lt (byte : UInt8) : byte &&& 0x0f < 16 := by
  rw [UInt8.lt_iff_toNat_lt, UInt8.toNat_and]
  exact Nat.lt_succ_of_le Nat.and_le_right

theorem nibbles_join (byte : UInt8) : (byte >>> 4) <<< 4 ||| (byte &&& 0x0f) = byte := by
  apply UInt8.eq_of_toBitVec_eq
  ext bit inside
  interval_cases bit <;> simp

/-- A byte is determined by its two nibbles. -/
theorem nibbles_injective {left right : UInt8} (high : left >>> 4 = right >>> 4)
    (low : left &&& 0x0f = right &&& 0x0f) : left = right := by
  rw [← nibbles_join left, ← nibbles_join right, high, low]

/-- The text determines the bytes. -/
theorem btoascii_injective {left right : List UInt8} (same : btoascii left = btoascii right) :
    left = right := by
  have texts := List.append_cancel_right same
  induction left generalizing right with
  | nil =>
      cases right with
      | nil => rfl
      | cons byte rest => cases texts
  | cons byte rest ih =>
      cases right with
      | nil => cases texts
      | cons other others =>
          simp only [List.flatMap_cons, List.cons_append, List.nil_append, List.cons.injEq] at texts
          obtain ⟨high, low, texts⟩ := texts
          have byte_eq : byte = other := nibbles_injective
            (nibbleToHexc_injective (highNibble_lt byte) (highNibble_lt other) high)
            (nibbleToHexc_injective (lowNibble_lt byte) (lowNibble_lt other) low)
          rw [byte_eq, ih (congrArg (· ++ ['\x00']) texts) texts]

end Freecoin
