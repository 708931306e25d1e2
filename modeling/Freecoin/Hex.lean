import Freecoin.Bytes

/-!
# Hexadecimal text

`btoascii` writes the digits of a byte string and `asciitob` reads them back, each with `int`
cursors of its own.  Text and bytes determine each other up to the case of the digits.
-/

namespace Freecoin

open Foundation

/-- `hexc_to_nibble`. -/
def hexcToNibble (c : Char) : UInt8 :=
  if '0' ≤ c ∧ c ≤ '9' then .ofNat (c.toNat - '0'.toNat)
  else if 'a' ≤ c ∧ c ≤ 'f' then .ofNat (c.toNat - 'a'.toNat + 10)
  else if 'A' ≤ c ∧ c ≤ 'F' then .ofNat (c.toNat - 'A'.toNat + 10)
  else 255

/-- The byte of two digits. -/
def hexByte (high low : Char) : UInt8 := (hexcToNibble high <<< 4) ||| hexcToNibble low

/-- The loop of `asciitob`. -/
def asciitobLoop (string : List Char) :
    (bytePos strPos remaining : Nat) → (bytearr : List UInt8) → Run (List UInt8)
  | _, _, 0, bytearr => .ok bytearr
  | bytePos, strPos, remaining + 1, bytearr => do
      let high ← fetch string strPos
      let lowPos ← intAdd strPos 1
      let low ← fetch string lowPos
      let bytearr ← assign bytearr bytePos (hexByte high low)
      let bytePos ← intAdd bytePos 1
      let strPos ← intAdd strPos 2
      asciitobLoop string bytePos strPos remaining bytearr

/-- `asciitob`: what the array holds afterwards. -/
def asciitob (bytearr : List UInt8) (string : List Char) (bytes : Nat) : Run (List UInt8) :=
  asciitobLoop string 0 0 bytes bytearr

/-- The loop of `btoascii`. -/
def btoasciiLoop (bytes : List UInt8) :
    (i remaining : Nat) → (string : List Char) → Run (List Char)
  | _, 0, string => .ok string
  | i, remaining + 1, string => do
      let byte ← fetch bytes i
      let highPos ← intAdd i i
      let string ← assign string highPos (nibbleToHexc (byte >>> 4))
      let lowPos ← intAdd highPos 1
      let string ← assign string lowPos (nibbleToHexc (byte &&& 0x0f))
      let i ← intAdd i 1
      btoasciiLoop bytes i remaining string

/-- `btoascii` on an array of characters, with the position of the terminating zero computed in the
unsigned type of the count. -/
def btoasciiInto (string : List Char) (bytes : List UInt8) : Run (List Char) := do
  let string ← btoasciiLoop bytes 0 bytes.length string
  assign string (bytes.length * 2) '\x00'

/-! ## Digits -/

/-- The hexadecimal digits, in either case. -/
def IsHexDigit (c : Char) : Prop :=
  ('0' ≤ c ∧ c ≤ '9') ∨ ('a' ≤ c ∧ c ≤ 'f') ∨ ('A' ≤ c ∧ c ≤ 'F')

instance (c : Char) : Decidable (IsHexDigit c) :=
  inferInstanceAs (Decidable (_ ∨ _))

theorem hexcToNibble_nibbleToHexc {nibble : UInt8} (small : nibble < 16) :
    hexcToNibble (nibbleToHexc nibble) = nibble := by
  have digits : ∀ i : Fin 16, hexcToNibble (nibbleToHexc (.ofNat i)) = .ofNat i := by decide
  simpa only [UInt8.ofNat_toNat] using digits ⟨nibble.toNat, small⟩

/-- A digit stands for a nibble whose digit is the same one in lower case. -/
theorem nibbleToHexc_hexcToNibble {c : Char} (digit : IsHexDigit c) :
    hexcToNibble c < 16 ∧ nibbleToHexc (hexcToNibble c) = c.toLower := by
  have digits : ∀ code < 103, IsHexDigit (Char.ofNat code) →
      hexcToNibble (Char.ofNat code) < 16 ∧
        nibbleToHexc (hexcToNibble (Char.ofNat code)) = (Char.ofNat code).toLower := by
    decide
  have bound : c.toNat < 103 := by
    rcases digit with ⟨_, upper⟩ | ⟨_, upper⟩ | ⟨_, upper⟩
    · exact Nat.lt_of_le_of_lt upper (by decide)
    · exact Nat.lt_of_le_of_lt upper (by decide)
    · exact Nat.lt_of_le_of_lt upper (by decide)
  have found := digits c.toNat bound
  rw [Char.ofNat_toNat] at found
  exact found digit

/-- The two nibbles of a byte that was put together from them. -/
theorem nibbles_of_join {high low : UInt8} (highSmall : high < 16) (lowSmall : low < 16) :
    (high <<< 4 ||| low) >>> 4 = high ∧ (high <<< 4 ||| low) &&& 0x0f = low := by
  rw [UInt8.lt_iff_toNat_lt] at highSmall lowSmall
  change high.toNat < 16 at highSmall
  change low.toNat < 16 at lowSmall
  have shifted : (high <<< 4).toNat = 2 ^ 4 * high.toNat := by
    rw [UInt8.toNat_shiftLeft]
    change high.toNat <<< 4 % 2 ^ 8 = _
    rw [Nat.shiftLeft_eq]
    omega
  have joined : (high <<< 4 ||| low).toNat = 16 * high.toNat + low.toNat := by
    rw [UInt8.toNat_or, shifted]
    exact (Nat.two_pow_add_eq_or_of_lt lowSmall high.toNat).symm
  constructor
  · apply UInt8.toNat_inj.mp
    rw [UInt8.toNat_shiftRight, joined]
    change (16 * high.toNat + low.toNat) >>> 4 = _
    rw [Nat.shiftRight_eq_div_pow]
    omega
  · apply UInt8.toNat_inj.mp
    rw [UInt8.toNat_and, joined]
    change (16 * high.toNat + low.toNat) &&& (2 ^ 4 - 1) = _
    rw [Nat.and_two_pow_sub_one_eq_mod]
    omega

/-! ## Text -/

/-- The two digits of a byte. -/
def hexPair (byte : UInt8) : List Char := [nibbleToHexc (byte >>> 4), nibbleToHexc (byte &&& 0x0f)]

theorem btoascii_eq (bytes : List UInt8) : btoascii bytes = bytes.flatMap hexPair ++ ['\x00'] := rfl

/-- The bytes of a text, two digits each. -/
def hexBytes : List Char → List UInt8
  | high :: low :: rest => hexByte high low :: hexBytes rest
  | _ => []

theorem hexBytes_flatMap_hexPair (bytes : List UInt8) :
    hexBytes (bytes.flatMap hexPair) = bytes := by
  induction bytes with
  | nil => rfl
  | cons byte bytes ih =>
      have joined : hexByte (nibbleToHexc (byte >>> 4)) (nibbleToHexc (byte &&& 0x0f)) = byte := by
        rw [hexByte, hexcToNibble_nibbleToHexc (highNibble_lt byte),
          hexcToNibble_nibbleToHexc (lowNibble_lt byte), nibbles_join]
      rw [List.flatMap_cons, hexPair]
      change hexByte _ _ :: hexBytes (bytes.flatMap hexPair) = _
      rw [joined, ih]

theorem hexPair_hexByte {high low : Char} (highDigit : IsHexDigit high)
    (lowDigit : IsHexDigit low) :
    hexPair (hexByte high low) = [high.toLower, low.toLower] := by
  obtain ⟨highSmall, highText⟩ := nibbleToHexc_hexcToNibble highDigit
  obtain ⟨lowSmall, lowText⟩ := nibbleToHexc_hexcToNibble lowDigit
  obtain ⟨highNibble, lowNibble⟩ := nibbles_of_join highSmall lowSmall
  rw [hexPair, hexByte, highNibble, lowNibble, highText, lowText]

/-- Digits in any case come back in lower case. -/
theorem flatMap_hexPair_hexBytes {n : Nat} {digits : List Char} (length_eq : digits.length = 2 * n)
    (hexadecimal : ∀ c ∈ digits, IsHexDigit c) :
    (hexBytes digits).length = n ∧
      (hexBytes digits).flatMap hexPair = digits.map Char.toLower := by
  induction n generalizing digits with
  | zero =>
      rw [List.length_eq_zero_iff.mp length_eq]
      exact ⟨rfl, rfl⟩
  | succ n ih =>
      obtain ⟨high, low, rest, rfl, rest_eq⟩ := exists_cons_cons length_eq
      have restDigits : ∀ c ∈ rest, IsHexDigit c := fun c member =>
        hexadecimal c (List.mem_cons_of_mem _ (List.mem_cons_of_mem _ member))
      obtain ⟨restLength, restText⟩ := ih rest_eq restDigits
      have pair := hexPair_hexByte (hexadecimal high List.mem_cons_self)
        (hexadecimal low (List.mem_cons_of_mem _ List.mem_cons_self))
      rw [hexBytes, List.length_cons, List.flatMap_cons, restLength, restText, pair]
      exact ⟨rfl, rfl⟩

/-! ## The loops -/

/-- From the bytes that are still to be written on, the loop fills the room for their digits. -/
theorem btoasciiLoop_eq {done bytes : List UInt8} {front room : List Char} (back : List Char)
    (front_eq : front.length = done.length + done.length) (room_eq : room.length = 2 * bytes.length)
    (small : done.length + bytes.length ≤ 2 ^ 30) :
    btoasciiLoop (done ++ bytes) done.length bytes.length (front ++ (room ++ back)) =
      .ok (front ++ (bytes.flatMap hexPair ++ back)) := by
  induction bytes generalizing done front room with
  | nil =>
      rw [List.length_eq_zero_iff.mp room_eq]
      rfl
  | cons byte bytes ih =>
      rw [List.length_cons] at room_eq small
      obtain ⟨first, second, room, rfl, left_eq⟩ := exists_cons_cons room_eq
      have nextFront : (front ++ hexPair byte).length =
          (done ++ [byte]).length + (done ++ [byte]).length := by
        simp only [List.length_append, front_eq, hexPair, List.length_cons, List.length_nil]
        omega
      have nextSmall : (done ++ [byte]).length + bytes.length ≤ 2 ^ 30 := by
        rw [List.length_append, List.length_singleton]
        omega
      have rest := ih nextFront left_eq nextSmall
      simp only [hexPair, List.append_assoc, List.cons_append, List.nil_append, List.length_append,
        List.length_singleton] at rest
      have lowFront : (front ++ [nibbleToHexc (byte >>> 4)]).length =
          done.length + done.length + 1 := by
        rw [List.length_append, List.length_singleton, front_eq]
      rw [List.length_cons, btoasciiLoop, fetch_append byte bytes rfl, Run.ok_bind,
        intAdd_of_lt (by omega), Run.ok_bind, List.cons_append, List.cons_append,
        assign_append first _ _ front_eq, Run.ok_bind, intAdd_of_lt (by omega), Run.ok_bind,
        List.append_cons, assign_append second _ _ lowFront, Run.ok_bind, intAdd_of_lt (by omega),
        Run.ok_bind, List.append_assoc]
      simp only [List.cons_append, List.nil_append, List.flatMap_cons, hexPair]
      exact rest

/-- `btoascii` leaves the text in the array, and what is behind it as it was. -/
theorem btoasciiInto_eq {string : List Char} {bytes : List UInt8} (small : bytes.length ≤ 2 ^ 30)
    (room : 2 * bytes.length + 1 ≤ string.length) :
    btoasciiInto string bytes = .ok (btoascii bytes ++ string.drop (2 * bytes.length + 1)) := by
  obtain ⟨last, after, tail⟩ := List.exists_cons_of_length_pos
    (show 0 < (string.drop (2 * bytes.length)).length by rw [List.length_drop]; omega)
  have behind : string.drop (2 * bytes.length + 1) = after := by
    rw [← List.drop_drop, tail]
    rfl
  have whole : string.take (2 * bytes.length) ++ last :: after = string := by
    rw [← tail, List.take_append_drop]
  have looped := btoasciiLoop_eq (last :: after) (show ([] : List Char).length = _ from rfl)
    (show (string.take (2 * bytes.length)).length = _ from List.length_take_of_le (by omega))
    (show ([] : List UInt8).length + bytes.length ≤ 2 ^ 30 by simpa using small)
  have written : (bytes.flatMap hexPair).length = bytes.length * 2 := by
    simp [List.length_flatMap, hexPair]
  simp only [List.nil_append, List.length_nil, whole] at looped
  rw [btoasciiInto, looped, Run.ok_bind, assign_append last _ _ written, btoascii_eq, behind,
    List.append_assoc]
  rfl

/-- From the digits that are still to be read on, the loop fills the room for their bytes. -/
theorem asciitobLoop_eq {n : Nat} {read digits : List Char} {front room : List UInt8}
    (rest : List Char) (back : List UInt8) (read_eq : read.length = 2 * front.length)
    (digits_eq : digits.length = 2 * n) (room_eq : room.length = n)
    (small : front.length + n < 2 ^ 30) :
    asciitobLoop (read ++ (digits ++ rest)) front.length read.length n (front ++ (room ++ back)) =
      .ok (front ++ (hexBytes digits ++ back)) := by
  induction n generalizing read digits front room with
  | zero =>
      rw [List.length_eq_zero_iff.mp room_eq, List.length_eq_zero_iff.mp digits_eq]
      rfl
  | succ n ih =>
      obtain ⟨high, low, digits, rfl, unread_eq⟩ := exists_cons_cons digits_eq
      obtain ⟨cell, room, rfl⟩ := List.exists_cons_of_length_eq_add_one room_eq
      rw [List.length_cons] at room_eq
      have nextRead : (read ++ [high, low]).length = 2 * (front ++ [hexByte high low]).length := by
        simp only [List.length_append, List.length_cons, List.length_nil]
        omega
      have nextSmall : (front ++ [hexByte high low]).length + n < 2 ^ 30 := by
        rw [List.length_append, List.length_singleton]
        omega
      have others := ih nextRead unread_eq (show room.length = n by omega) nextSmall
      simp only [List.append_assoc, List.cons_append, List.nil_append, List.length_append,
        List.length_cons, List.length_nil] at others
      have lowFront : (read ++ [high]).length = read.length + 1 := by
        rw [List.length_append, List.length_singleton]
      have lowFetch : fetch (read ++ high :: low :: (digits ++ rest)) (read.length + 1) =
          .ok low := by
        rw [List.append_cons, fetch_append low _ lowFront]
      simp only [List.cons_append]
      rw [asciitobLoop, fetch_append high _ rfl, Run.ok_bind, intAdd_of_lt (by omega), Run.ok_bind,
        lowFetch, Run.ok_bind, assign_append cell _ _ rfl, Run.ok_bind, intAdd_of_lt (by omega),
        Run.ok_bind, intAdd_of_lt (by omega), Run.ok_bind, hexBytes]
      exact others

/-- `asciitob` leaves the bytes of the digits in the array, and what is behind them as it was. -/
theorem asciitob_eq {n : Nat} {bytearr : List UInt8} {digits : List Char} (rest : List Char)
    (digits_eq : digits.length = 2 * n) (small : n < 2 ^ 30) (room : n ≤ bytearr.length) :
    asciitob bytearr (digits ++ rest) n = .ok (hexBytes digits ++ bytearr.drop n) := by
  have looped := asciitobLoop_eq rest (bytearr.drop n)
    (show ([] : List Char).length = 2 * 0 from rfl) digits_eq
    (show (bytearr.take n).length = n from List.length_take_of_le room)
    (show ([] : List UInt8).length + n < 2 ^ 30 by simpa using small)
  simp only [List.nil_append, List.length_nil, List.take_append_drop] at looped
  exact looped

/-! ## Round trips -/

/-- Text and bytes determine each other: reading back what `btoascii` wrote gives the bytes, and
writing what `asciitob` read gives the digits in lower case and a terminating zero.  The arrays may
be larger and hold anything. -/
theorem hex_roundTrip (n : Nat) (small : n < 2 ^ 30) (bytearr : List UInt8)
    (byteRoom : n ≤ bytearr.length) (string : List Char) (textRoom : 2 * n + 1 ≤ string.length) :
    (∀ bytes : List UInt8, bytes.length = n →
      ∃ text, btoasciiInto string bytes = .ok text ∧ text.take (2 * n + 1) = btoascii bytes ∧
        asciitob bytearr text n = .ok (bytes ++ bytearr.drop n)) ∧
    (∀ left right : List UInt8, btoascii left = btoascii right → left = right) ∧
    (∀ digits : List Char, digits.length = 2 * n → (∀ c ∈ digits, IsHexDigit c) → ∀ rest,
      ∃ bytes, asciitob bytearr (digits ++ rest) n = .ok (bytes ++ bytearr.drop n) ∧
        bytes.length = n ∧ btoascii bytes = digits.map Char.toLower ++ ['\x00'] ∧
        btoasciiInto string bytes = .ok (digits.map Char.toLower ++ ['\x00'] ++
          string.drop (2 * n + 1))) := by
  refine ⟨?_, fun left right => btoascii_injective, ?_⟩
  · intro bytes length_eq
    have pairs : (bytes.flatMap hexPair).length = 2 * n := by
      simp [List.length_flatMap, hexPair, length_eq, Nat.mul_comm]
    have size : (btoascii bytes).length = 2 * n + 1 := by
      rw [btoascii_eq, List.length_append, pairs, List.length_singleton]
    subst length_eq
    refine ⟨_, btoasciiInto_eq (by omega) textRoom, List.take_left' size, ?_⟩
    rw [btoascii_eq, List.append_assoc, asciitob_eq _ pairs small byteRoom,
      hexBytes_flatMap_hexPair]
  · intro digits length_eq hexadecimal rest
    obtain ⟨size, text⟩ := flatMap_hexPair_hexBytes length_eq hexadecimal
    have lower : btoascii (hexBytes digits) = digits.map Char.toLower ++ ['\x00'] := by
      rw [btoascii_eq, text]
    refine ⟨hexBytes digits, asciitob_eq rest length_eq small byteRoom, size, lower, ?_⟩
    rw [btoasciiInto_eq (by omega) (by omega), lower, size]

/-- Three bytes into larger arrays, and digits in both cases. -/
theorem hex_roundTrip_three :
    (∃ text, btoasciiInto (List.replicate 9 'x') [0x4c, 0x00, 0xfe] = .ok text ∧
        asciitob [1, 2, 3, 4] text 3 = .ok [0x4c, 0x00, 0xfe, 4]) ∧
      ∃ bytes, asciitob [1, 2, 3, 4] ['4', 'C', '0', '0', 'f', 'E'] 3 = .ok (bytes ++ [4]) ∧
        btoascii bytes = ['4', 'c', '0', '0', 'f', 'e', '\x00'] := by
  obtain ⟨write, _, read⟩ :=
    hex_roundTrip 3 (by decide) [1, 2, 3, 4] (by decide) (List.replicate 9 'x') (by decide)
  have digits : ∀ c ∈ ['4', 'C', '0', '0', 'f', 'E'], IsHexDigit c := by
    simp only [List.forall_mem_cons]
    exact ⟨by decide, by decide, by decide, by decide, by decide, by decide, by simp⟩
  constructor
  · obtain ⟨text, written, _, back⟩ := write [0x4c, 0x00, 0xfe] rfl
    exact ⟨text, written, back⟩
  · obtain ⟨bytes, loaded, _, text, _⟩ := read ['4', 'C', '0', '0', 'f', 'E'] rfl digits []
    exact ⟨bytes, loaded, text⟩

end Freecoin
