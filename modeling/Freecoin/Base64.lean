import Freecoin.Bytes
import Mathlib.Data.List.Induction

/-!
# Base 64

The encoder and the decoder of `util.c`, with their tables and `int` cursors.  The text of a byte
string is made of groups of four characters; a partial last group is filled up with zero bytes, and
the characters that stand for nothing but these are overwritten with `=`.
-/

namespace Freecoin

open Foundation

/-! ## Tables -/

/-- `base64_encoding_table`. -/
def base64EncodingTable : List Char :=
  ['A', 'B', 'C', 'D', 'E', 'F', 'G', 'H', 'I', 'J', 'K', 'L', 'M', 'N', 'O', 'P', 'Q', 'R', 'S',
    'T', 'U', 'V', 'W', 'X', 'Y', 'Z', 'a', 'b', 'c', 'd', 'e', 'f', 'g', 'h', 'i', 'j', 'k', 'l',
    'm', 'n', 'o', 'p', 'q', 'r', 's', 't', 'u', 'v', 'w', 'x', 'y', 'z', '0', '1', '2', '3', '4',
    '5', '6', '7', '8', '9', '+', '/']

/-- `base64_mod_table`. -/
def base64ModTable : List Nat := [0, 2, 1]

/-- A character as an index into the decoding table. -/
def charIndex (c : Char) : Nat := c.val.toUInt8.toNat

/-- The loop of `util_init`. -/
def utilInitLoop : (i remaining : Nat) → (table : List Int8) → Run (List Int8)
  | _, 0, table => .ok table
  | i, remaining + 1, table => do
      let c ← fetch base64EncodingTable i
      let table ← assign table (charIndex c) (.ofNat i)
      utilInitLoop (i + 1) remaining table

/-- `util_init`, on the block of memory that becomes the decoding table. -/
def utilInit (table : List Int8) : Run (List Int8) := utilInitLoop 0 64 table

/-! ## Sizes -/

/-- `base64_encoded_size`. -/
def base64EncodedSize (bytes : UInt32) : UInt32 := 4 * ((bytes + 2) / 3)

/-- `base64_decoded_size`. -/
def base64DecodedSize (strlen : UInt32) : UInt32 := strlen / 4 * 3

/-! ## Encoder -/

/-- `i < bytes ? data[i++] : 0`. -/
def base64Octet (data : List UInt8) (bytes : UInt32) (i : Nat) : Run (UInt32 × Nat) :=
  if i < bytes.toNat then do
    let byte ← fetch data i
    let i ← intAdd i 1
    return (byte.toUInt32, i)
  else .ok (0, i)

/-- `dst[j++] = base64_encoding_table[(triple >> shift) & 0x3F]`. -/
def base64Put (triple shift : UInt32) (j : Nat) (dst : List Char) : Run (Nat × List Char) := do
  let c ← fetch base64EncodingTable ((triple >>> shift) &&& 0x3f).toNat
  let dst ← assign dst j c
  let j ← intAdd j 1
  return (j, dst)

/-- The loop of `base64_encode`, with a budget of one iteration for each byte. -/
def base64EncodeLoop (data : List UInt8) (bytes : UInt32) :
    (fuel i j : Nat) → (dst : List Char) → Run (List Char)
  | 0, _, _, _ => .error .outOfFuel
  | fuel + 1, i, j, dst =>
      if i < bytes.toNat then do
        let (octetA, i) ← base64Octet data bytes i
        let (octetB, i) ← base64Octet data bytes i
        let (octetC, i) ← base64Octet data bytes i
        let triple := (octetA <<< 0x10) + (octetB <<< 0x08) + octetC
        let (j, dst) ← base64Put triple (3 * 6) j dst
        let (j, dst) ← base64Put triple (2 * 6) j dst
        let (j, dst) ← base64Put triple (1 * 6) j dst
        let (j, dst) ← base64Put triple (0 * 6) j dst
        base64EncodeLoop data bytes fuel i j dst
      else .ok dst

/-- The loop of `base64_encode` that writes the padding, from the end backwards. -/
def base64PadLoop (outputLength : UInt32) :
    (i remaining : Nat) → (dst : List Char) → Run (List Char)
  | _, 0, dst => .ok dst
  | i, remaining + 1, dst => do
      let dst ← assign dst (outputLength - 1 - .ofNat i).toNat '='
      base64PadLoop outputLength (i + 1) remaining dst

/-- `base64_encode`. -/
def base64Encode (data : List UInt8) (dst : List Char) (bytes : UInt32) : Run (List Char) := do
  let outputLength := base64EncodedSize bytes
  let dst ← base64EncodeLoop data bytes (bytes.toNat + 1) 0 0 dst
  let padding ← fetch base64ModTable (bytes % 3).toNat
  base64PadLoop outputLength 0 padding dst

/-! ## Decoder -/

/-- `ascii[i] == '=' ? 0 & i++ : base64_decoding_table[(uint8_t) ascii[i++]]`, where a `char` of the
table is signed. -/
def base64Sextet (table : List Int8) (ascii : List Char) (i : Nat) : Run (UInt32 × Nat) := do
  let c ← fetch ascii i
  let i ← intAdd i 1
  if c = '=' then return (0, i)
  else do
    let entry ← fetch table (charIndex c)
    return (entry.toInt32.toUInt32, i)

/-- `if (j < bytes) dst[j++] = (triple >> shift) & 0xFF`. -/
def base64Store (bytes triple shift : UInt32) (j : Nat) (dst : List UInt8) :
    Run (Nat × List UInt8) :=
  if j < bytes.toNat then do
    let dst ← assign dst j ((triple >>> shift) &&& 0xff).toUInt8
    let j ← intAdd j 1
    return (j, dst)
  else .ok (j, dst)

/-- The loop of `base64_decode`, with a budget of one iteration for each character. -/
def base64DecodeLoop (table : List Int8) (ascii : List Char) (inputLength bytes : UInt32) :
    (fuel i j : Nat) → (dst : List UInt8) → Run (List UInt8)
  | 0, _, _, _ => .error .outOfFuel
  | fuel + 1, i, j, dst =>
      if i < inputLength.toNat then do
        let (sextetA, i) ← base64Sextet table ascii i
        let (sextetB, i) ← base64Sextet table ascii i
        let (sextetC, i) ← base64Sextet table ascii i
        let (sextetD, i) ← base64Sextet table ascii i
        let triple := (sextetA <<< (3 * 6)) + (sextetB <<< (2 * 6)) + (sextetC <<< (1 * 6)) +
          (sextetD <<< (0 * 6))
        let (j, dst) ← base64Store bytes triple (2 * 8) j dst
        let (j, dst) ← base64Store bytes triple (1 * 8) j dst
        let (j, dst) ← base64Store bytes triple (0 * 8) j dst
        base64DecodeLoop table ascii inputLength bytes fuel i j dst
      else .ok dst

/-- `base64_decode`: each `=` at the end takes one off the unsigned count of bytes. -/
def base64Decode (table : List Int8) (ascii : List Char) (dst : List UInt8) (bytes : UInt32) :
    Run (List UInt8) := do
  let inputLength := base64EncodedSize bytes
  if inputLength % 4 ≠ 0 then return dst
  else do
    let last ← fetch ascii (inputLength - 1).toNat
    let bytes := if last = '=' then bytes - 1 else bytes
    let previous ← fetch ascii (inputLength - 2).toNat
    let bytes := if previous = '=' then bytes - 1 else bytes
    base64DecodeLoop table ascii inputLength bytes (inputLength.toNat + 1) 0 0 dst

/-! ## The decoding table -/

/-- The character of six bits. -/
def base64Letter (sextet : Nat) : Char := base64EncodingTable.getD sextet 'A'

/-- The table has the position of every character of the alphabet at its index. -/
structure DecodingTable (table : List Int8) : Prop where
  size : table.length = 256
  entry : ∀ k < 64, table.getD (charIndex (base64Letter k)) 0 = .ofNat k

/-- The characters of the alphabet have different indices. -/
theorem charIndex_injective : ∀ k < 64, ∀ l < 64,
    charIndex (base64Letter k) = charIndex (base64Letter l) →
      k = l := by
  decide +kernel

theorem utilInitLoop_spec {i remaining : Nat} {table : List Int8} (inside : i + remaining ≤ 64)
    (size : table.length = 256) :
    ∃ after, utilInitLoop i remaining table = .ok after ∧ after.length = 256 ∧
      (∀ k, i ≤ k → k < i + remaining →
        after.getD (charIndex (base64Letter k)) 0 = .ofNat k) ∧
      ∀ k < i, after.getD (charIndex (base64Letter k)) 0 =
        table.getD (charIndex (base64Letter k)) 0 := by
  induction remaining generalizing i table with
  | zero => exact ⟨table, rfl, size, fun k after before => by omega, fun k _ => rfl⟩
  | succ remaining ih =>
      have within : i < base64EncodingTable.length := by
        change i < 64
        omega
      have character : base64EncodingTable[i] = base64Letter i := by simp [base64Letter, within]
      have index : charIndex (base64Letter i) < table.length := by
        rw [size]
        exact UInt8.toNat_lt _
      obtain ⟨after, looped, length_eq, later, earlier⟩ := ih
        (show i + 1 + remaining ≤ 64 by omega)
        (show (table.set (charIndex (base64Letter i)) (.ofNat i)).length = 256 by
          rw [List.length_set, size])
      refine ⟨after, ?_, length_eq, ?_, ?_⟩
      · rw [utilInitLoop, fetch_of_lt within, Run.ok_bind, character, assign_of_lt index,
          Run.ok_bind, looped]
      · intro k lower upper
        rcases Nat.eq_or_lt_of_le lower with rfl | above
        · rw [earlier i (by omega), List.getD_eq_getElem?_getD, List.getElem?_set_self index]
          rfl
        · exact later k above (by omega)
      · intro k below
        have different : charIndex (base64Letter i) ≠
            charIndex (base64Letter k) := fun same =>
          absurd (charIndex_injective i (by omega) k (by omega) same) (by omega)
        rw [earlier k (by omega), List.getD_eq_getElem?_getD, List.getElem?_set_ne different,
          List.getD_eq_getElem?_getD]

/-- `util_init` makes a decoding table of any block of 256 bytes. -/
theorem exists_utilInit {table : List Int8} (size : table.length = 256) :
    ∃ after, utilInit table = .ok after ∧ DecodingTable after := by
  obtain ⟨after, looped, length_eq, entries, _⟩ :=
    utilInitLoop_spec (show 0 + 64 ≤ 64 from le_rfl) size
  exact ⟨after, looped, length_eq, fun k inside => entries k (Nat.zero_le k) (by omega)⟩

/-! ## Groups -/

/-- The number three bytes make. -/
def octetTriple (a b c : UInt8) : UInt32 :=
  (a.toUInt32 <<< 0x10) + (b.toUInt32 <<< 0x08) + c.toUInt32

/-- The number four sextets make. -/
def sextetTriple (a b c d : UInt32) : UInt32 :=
  (a <<< (3 * 6)) + (b <<< (2 * 6)) + (c <<< (1 * 6)) + (d <<< (0 * 6))

/-- The sextet of a number at a shift. -/
def sextetAt (triple shift : UInt32) : UInt32 := (triple >>> shift) &&& 0x3f

/-- The byte of a number at a shift. -/
def octetAt (triple shift : UInt32) : UInt8 := ((triple >>> shift) &&& 0xff).toUInt8

theorem toNat_octetTriple (a b c : UInt8) :
    (octetTriple a b c).toNat = a.toNat * 65536 + b.toNat * 256 + c.toNat := by
  have boundA := a.toNat_lt
  have boundB := b.toNat_lt
  have boundC := c.toNat_lt
  have high : (a.toUInt32 <<< 0x10).toNat = a.toNat <<< 16 % 2 ^ 32 := rfl
  have middle : (b.toUInt32 <<< 0x08).toNat = b.toNat <<< 8 % 2 ^ 32 := rfl
  rw [octetTriple, UInt32.toNat_add, UInt32.toNat_add, high, middle, UInt8.toNat_toUInt32,
    Nat.shiftLeft_eq, Nat.shiftLeft_eq]
  omega

theorem toNat_sextetAt {triple shift : UInt32} (small : shift.toNat < 32) :
    (sextetAt triple shift).toNat = triple.toNat / 2 ^ shift.toNat % 64 := by
  rw [sextetAt, UInt32.toNat_and, UInt32.toNat_shiftRight, Nat.mod_eq_of_lt small,
    Nat.shiftRight_eq_div_pow]
  exact Nat.and_two_pow_sub_one_eq_mod _ 6

theorem toNat_octetAt {triple shift : UInt32} (small : shift.toNat < 32) :
    (octetAt triple shift).toNat = triple.toNat / 2 ^ shift.toNat % 256 := by
  rw [octetAt, UInt32.toNat_toUInt8, UInt32.toNat_and, UInt32.toNat_shiftRight,
    Nat.mod_eq_of_lt small, Nat.shiftRight_eq_div_pow]
  change (triple.toNat / 2 ^ shift.toNat &&& (2 ^ 8 - 1)) % 2 ^ 8 = _
  rw [Nat.and_two_pow_sub_one_eq_mod, Nat.mod_mod]

/-- The bytes of a number made of three bytes. -/
theorem octetAt_octetTriple (a b c : UInt8) :
    octetAt (octetTriple a b c) (2 * 8) = a ∧ octetAt (octetTriple a b c) (1 * 8) = b ∧
      octetAt (octetTriple a b c) (0 * 8) = c := by
  have boundA := a.toNat_lt
  have boundB := b.toNat_lt
  have boundC := c.toNat_lt
  have value := toNat_octetTriple a b c
  refine ⟨UInt8.toNat_inj.mp ?_, UInt8.toNat_inj.mp ?_, UInt8.toNat_inj.mp ?_⟩
  · rw [toNat_octetAt (by decide), value]
    change _ / 2 ^ 16 % 256 = _
    omega
  · rw [toNat_octetAt (by decide), value]
    change _ / 2 ^ 8 % 256 = _
    omega
  · rw [toNat_octetAt (by decide), value]
    change _ / 2 ^ 0 % 256 = _
    omega

/-- A number of 24 bits is made of its sextets. -/
theorem sextetTriple_sextetAt {triple : UInt32} (small : triple.toNat < 2 ^ 24) :
    sextetTriple (sextetAt triple (3 * 6)) (sextetAt triple (2 * 6)) (sextetAt triple (1 * 6))
      (sextetAt triple (0 * 6)) = triple := by
  have first : (sextetAt triple (3 * 6)).toNat = triple.toNat / 2 ^ 18 % 64 :=
    toNat_sextetAt (by decide)
  have second : (sextetAt triple (2 * 6)).toNat = triple.toNat / 2 ^ 12 % 64 :=
    toNat_sextetAt (by decide)
  have third : (sextetAt triple (1 * 6)).toNat = triple.toNat / 2 ^ 6 % 64 :=
    toNat_sextetAt (by decide)
  have fourth : (sextetAt triple (0 * 6)).toNat = triple.toNat / 2 ^ 0 % 64 :=
    toNat_sextetAt (by decide)
  apply UInt32.toNat_inj.mp
  simp only [sextetTriple, UInt32.toNat_add, UInt32.toNat_shiftLeft, first, second, third, fourth,
    Nat.shiftLeft_eq]
  change (((_ * 2 ^ 18 % 2 ^ 32 + _ * 2 ^ 12 % 2 ^ 32) % 2 ^ 32 + _ * 2 ^ 6 % 2 ^ 32) % 2 ^ 32 +
    _ * 2 ^ 0 % 2 ^ 32) % 2 ^ 32 = _
  omega

/-- The sextets that only hold bits of missing bytes are zero. -/
theorem sextetAt_octetTriple_zero (a b : UInt8) :
    sextetAt (octetTriple a b 0) (0 * 6) = 0 ∧ sextetAt (octetTriple a 0 0) (1 * 6) = 0 := by
  constructor
  · apply UInt32.toNat_inj.mp
    rw [toNat_sextetAt (by decide), toNat_octetTriple]
    change (_ + 0) / 2 ^ 0 % 64 = 0
    omega
  · apply UInt32.toNat_inj.mp
    rw [toNat_sextetAt (by decide), toNat_octetTriple]
    change (_ + 0 * 256 + 0) / 2 ^ 6 % 64 = 0
    omega

/-! ## Text -/

/-- The four characters of a number. -/
def base64Quad (triple : UInt32) : List Char :=
  [base64Letter (sextetAt triple (3 * 6)).toNat, base64Letter (sextetAt triple (2 * 6)).toNat,
    base64Letter (sextetAt triple (1 * 6)).toNat, base64Letter (sextetAt triple (0 * 6)).toNat]

/-- What the loop of the encoder writes: missing bytes are zero. -/
def base64Quads : List UInt8 → List Char
  | a :: b :: c :: rest => base64Quad (octetTriple a b c) ++ base64Quads rest
  | [a, b] => base64Quad (octetTriple a b 0)
  | [a] => base64Quad (octetTriple a 0 0)
  | [] => []

/-- The text of a byte string. -/
def base64Text : List UInt8 → List Char
  | a :: b :: c :: rest => base64Quad (octetTriple a b c) ++ base64Text rest
  | [a, b] => (base64Quad (octetTriple a b 0)).take 3 ++ ['=']
  | [a] => (base64Quad (octetTriple a 0 0)).take 2 ++ ['=', '=']
  | [] => []

/-- The number of `=` behind the text of so many bytes. -/
def base64Padding (count : Nat) : Nat := (3 - count % 3) % 3

theorem base64Letter_mem (sextet : Nat) : base64Letter sextet ∈ base64EncodingTable := by
  rw [base64Letter, List.getD_eq_getElem?_getD]
  cases found : base64EncodingTable[sextet]? with
  | none => exact List.mem_cons_self
  | some c => exact List.mem_of_getElem? found

/-- `=` is no letter. -/
theorem base64Letter_ne_pad (sextet : Nat) : base64Letter sextet ≠ '=' := by
  have absent : '=' ∉ base64EncodingTable := by decide
  exact fun pad => absent (pad ▸ base64Letter_mem sextet)

theorem mem_base64Quad {triple : UInt32} {c : Char} (member : c ∈ base64Quad triple) :
    c ∈ base64EncodingTable := by
  simp only [base64Quad, List.mem_cons, List.not_mem_nil, or_false] at member
  rcases member with rfl | rfl | rfl | rfl <;> exact base64Letter_mem _

theorem length_base64Quads (data : List UInt8) :
    (base64Quads data).length = 4 * ((data.length + 2) / 3) := by
  induction data using base64Quads.induct with
  | case1 a b c rest ih =>
      rw [base64Quads, List.length_append, ih, base64Quad]
      simp only [List.length_cons, List.length_nil]
      omega
  | case2 a b => simp [base64Quads, base64Quad]
  | case3 a => simp [base64Quads, base64Quad]
  | case4 => rfl

/-- The text is what the loop writes, with the last characters replaced. -/
theorem exists_base64Text (data : List UInt8) :
    ∃ body tail, base64Quads data = body ++ tail ∧ tail.length = base64Padding data.length ∧
      base64Text data = body ++ List.replicate (base64Padding data.length) '=' ∧
      ∀ c ∈ body, c ∈ base64EncodingTable := by
  induction data using base64Quads.induct with
  | case1 a b c rest ih =>
      obtain ⟨body, tail, quads, tail_eq, text, letters⟩ := ih
      have padding : base64Padding (a :: b :: c :: rest).length = base64Padding rest.length := by
        simp only [base64Padding, List.length_cons]
        omega
      refine ⟨base64Quad (octetTriple a b c) ++ body, tail, ?_, ?_, ?_, ?_⟩
      · rw [base64Quads, quads, List.append_assoc]
      · rw [padding, tail_eq]
      · rw [base64Text, padding, text, List.append_assoc]
      · intro c member
        rcases List.mem_append.mp member with first | later
        · exact mem_base64Quad first
        · exact letters c later
  | case2 a b =>
      refine ⟨(base64Quad (octetTriple a b 0)).take 3, (base64Quad (octetTriple a b 0)).drop 3, ?_,
        rfl, rfl, fun c member => mem_base64Quad (List.mem_of_mem_take member)⟩
      rw [List.take_append_drop]
      rfl
  | case3 a =>
      refine ⟨(base64Quad (octetTriple a 0 0)).take 2, (base64Quad (octetTriple a 0 0)).drop 2, ?_,
        rfl, rfl, fun c member => mem_base64Quad (List.mem_of_mem_take member)⟩
      rw [List.take_append_drop]
      rfl
  | case4 => exact ⟨[], [], rfl, rfl, rfl, fun c member => absurd member (List.not_mem_nil)⟩

theorem length_base64Text (data : List UInt8) :
    (base64Text data).length = 4 * ((data.length + 2) / 3) := by
  obtain ⟨body, tail, quads, tail_eq, text, _⟩ := exists_base64Text data
  rw [← length_base64Quads, quads, text, List.length_append, List.length_append, tail_eq,
    List.length_replicate]

/-! ## The encoder -/

theorem base64Octet_of_lt {data : List UInt8} {bytes : UInt32} {i : Nat} {byte : UInt8}
    (found : data[i]? = some byte) (inside : i < bytes.toNat) (small : i + 1 < 2 ^ 31) :
    base64Octet data bytes i = .ok (byte.toUInt32, i + 1) := by
  rw [base64Octet, if_pos inside, fetch_eq_ok.mpr found, Run.ok_bind, intAdd_of_lt small]
  rfl

theorem base64Octet_of_le {data : List UInt8} {bytes : UInt32} {i : Nat}
    (behind : bytes.toNat ≤ i) :
    base64Octet data bytes i = .ok (0, i) := if_neg (Nat.not_lt.mpr behind)

theorem base64Put_append {front : List Char} {j : Nat} (triple shift : UInt32) (cell : Char)
    (back : List Char) (front_eq : front.length = j) (small : j + 1 < 2 ^ 31) :
    base64Put triple shift j (front ++ cell :: back) =
      .ok (j + 1, front ++ base64Letter (sextetAt triple shift).toNat :: back) := by
  have inside : (sextetAt triple shift).toNat < base64EncodingTable.length := by
    change _ < 64
    rw [sextetAt, UInt32.toNat_and]
    exact Nat.lt_succ_of_le Nat.and_le_right
  have letter : base64EncodingTable[(sextetAt triple shift).toNat] =
      base64Letter (sextetAt triple shift).toNat := by
    simp [base64Letter, inside]
  rw [base64Put]
  change (fetch base64EncodingTable (sextetAt triple shift).toNat >>= _) = _
  rw [fetch_of_lt inside, Run.ok_bind, letter,
    assign_append cell _ back front_eq, Run.ok_bind, intAdd_of_lt small]
  rfl

/-- One iteration, for the three octets that are read, into room for four characters. -/
theorem base64EncodeLoop_step {data : List UInt8} {bytes a b c : UInt32} {fuel i k l m j : Nat}
    {front room : List Char} (back : List Char) (inside : i < bytes.toNat)
    (readA : base64Octet data bytes i = .ok (a, k)) (readB : base64Octet data bytes k = .ok (b, l))
    (readC : base64Octet data bytes l = .ok (c, m)) (front_eq : front.length = j)
    (room_eq : room.length = 4) (small : j + 4 < 2 ^ 31) :
    base64EncodeLoop data bytes (fuel + 1) i j (front ++ (room ++ back)) =
      base64EncodeLoop data bytes fuel m (j + 4)
        (front ++ (base64Quad ((a <<< 0x10) + (b <<< 0x08) + c) ++ back)) := by
  obtain ⟨w, x, y, z, rfl⟩ : ∃ w x y z, room = [w, x, y, z] := by
    rw [List.length_eq_four] at room_eq
    exact room_eq
  generalize triple_eq : (a <<< 0x10) + (b <<< 0x08) + c = triple
  have appended : ∀ {written : List Char} {count : Nat} (c : Char), written.length = count →
      (written ++ [c]).length = count + 1 := by
    intro written count c length_eq
    rw [List.length_append, length_eq, List.length_singleton]
  simp only [base64EncodeLoop, if_pos inside, readA, readB, readC, Run.ok_bind, triple_eq,
    List.cons_append, List.nil_append]
  rw [base64Put_append triple (3 * 6) w _ front_eq (by omega)]
  simp only [Run.ok_bind]
  rw [List.append_cons, base64Put_append triple (2 * 6) x _ (appended _ front_eq) (by omega)]
  simp only [Run.ok_bind]
  rw [List.append_cons, base64Put_append triple (1 * 6) y _ (appended _ (appended _ front_eq))
    (by omega)]
  simp only [Run.ok_bind]
  rw [List.append_cons, base64Put_append triple (0 * 6) z _
    (appended _ (appended _ (appended _ front_eq))) (by omega)]
  simp only [Run.ok_bind, List.append_assoc, List.cons_append, List.nil_append, base64Quad]

theorem base64EncodeLoop_of_le {data : List UInt8} {bytes : UInt32} {fuel i j : Nat}
    {dst : List Char} (behind : bytes.toNat ≤ i) :
    base64EncodeLoop data bytes (fuel + 1) i j dst = .ok dst := by
  rw [base64EncodeLoop, if_neg (Nat.not_lt.mpr behind)]

/-- From the bytes that are still to be encoded on, the loop fills the room for their groups. -/
theorem base64EncodeLoop_eq {read rest : List UInt8} {bytes : UInt32} {fuel i j : Nat}
    {front room : List Char} (back : List Char) (read_eq : read.length = i)
    (bytes_eq : bytes.toNat = i + rest.length) (enough : rest.length < fuel)
    (front_eq : front.length = j) (room_eq : room.length = 4 * ((rest.length + 2) / 3))
    (small : i + rest.length < 2 ^ 31) (fits : j + room.length < 2 ^ 31) :
    base64EncodeLoop (read ++ rest) bytes fuel i j (front ++ (room ++ back)) =
      .ok (front ++ (base64Quads rest ++ back)) := by
  obtain ⟨fuel, rfl⟩ := Nat.exists_eq_succ_of_ne_zero (by omega : fuel ≠ 0)
  induction rest using base64Quads.induct generalizing read fuel i j front room with
  | case1 a b c rest ih =>
      simp only [List.length_cons] at bytes_eq enough room_eq small
      obtain ⟨fuel, rfl⟩ := Nat.exists_eq_succ_of_ne_zero (by omega : fuel ≠ 0)
      have readA : base64Octet (read ++ a :: b :: c :: rest) bytes i = .ok (a.toUInt32, i + 1) :=
        base64Octet_of_lt (by simp [← read_eq]) (by omega) (by omega)
      have readB : base64Octet (read ++ a :: b :: c :: rest) bytes (i + 1) =
          .ok (b.toUInt32, i + 2) :=
        base64Octet_of_lt (by simp [← read_eq]) (by omega) (by omega)
      have readC : base64Octet (read ++ a :: b :: c :: rest) bytes (i + 2) =
          .ok (c.toUInt32, i + 3) :=
        base64Octet_of_lt (by simp [← read_eq]) (by omega) (by omega)
      have first : (room.take 4).length = 4 := List.length_take_of_le (by omega)
      have remaining : (room.drop 4).length = room.length - 4 := List.length_drop
      have nextRead : (read ++ [a, b, c]).length = i + 3 := by simp [read_eq]
      have nextFront : (front ++ base64Quad (octetTriple a b c)).length = j + 4 := by
        simp [front_eq, base64Quad]
      have others := ih nextRead (by omega) nextFront (remaining.trans (by omega)) (by omega)
        (by omega) fuel (by omega)
      simp only [List.append_assoc, List.cons_append, List.nil_append] at others
      rw [← List.take_append_drop 4 room, List.append_assoc,
        base64EncodeLoop_step _ (by omega) readA readB readC front_eq first (by omega), base64Quads,
        List.append_assoc]
      exact others
  | case2 a b =>
      simp only [List.length_cons, List.length_nil] at bytes_eq enough room_eq small
      obtain ⟨fuel, rfl⟩ := Nat.exists_eq_succ_of_ne_zero (by omega : fuel ≠ 0)
      have readA : base64Octet (read ++ [a, b]) bytes i = .ok (a.toUInt32, i + 1) :=
        base64Octet_of_lt (by simp [← read_eq]) (by omega) (by omega)
      have readB : base64Octet (read ++ [a, b]) bytes (i + 1) = .ok (b.toUInt32, i + 2) :=
        base64Octet_of_lt (by simp [← read_eq]) (by omega) (by omega)
      have readC : base64Octet (read ++ [a, b]) bytes (i + 2) = .ok (0, i + 2) :=
        base64Octet_of_le (by omega)
      rw [base64EncodeLoop_step _ (by omega) readA readB readC front_eq room_eq (by omega),
        base64EncodeLoop_of_le (by omega)]
      rfl
  | case3 a =>
      simp only [List.length_cons, List.length_nil] at bytes_eq enough room_eq small
      obtain ⟨fuel, rfl⟩ := Nat.exists_eq_succ_of_ne_zero (by omega : fuel ≠ 0)
      have readA : base64Octet (read ++ [a]) bytes i = .ok (a.toUInt32, i + 1) :=
        base64Octet_of_lt (by simp [← read_eq]) (by omega) (by omega)
      have readB : base64Octet (read ++ [a]) bytes (i + 1) = .ok (0, i + 1) :=
        base64Octet_of_le (by omega)
      rw [base64EncodeLoop_step _ (by omega) readA readB readB front_eq room_eq (by omega),
        base64EncodeLoop_of_le (by omega)]
      rfl
  | case4 =>
      rw [List.length_eq_zero_iff.mp room_eq, base64EncodeLoop_of_le (by simp [bytes_eq])]
      rfl

/-- The padding replaces the characters at the end, from the last one backwards. -/
theorem base64PadLoop_eq {outputLength : UInt32} {i : Nat} {body tail : List Char}
    (back : List Char) (length_eq : body.length + tail.length + i = outputLength.toNat) :
    base64PadLoop outputLength i tail.length (body ++ (tail ++ (List.replicate i '=' ++ back))) =
      .ok (body ++ (List.replicate (tail.length + i) '=' ++ back)) := by
  induction tail using List.reverseRecOn generalizing i with
  | nil =>
      rw [List.length_nil, Nat.zero_add]
      rfl
  | append_singleton tail c ih =>
      rw [List.length_append, List.length_singleton] at length_eq ⊢
      have bound := outputLength.toNat_lt
      have i_eq : (UInt32.ofNat i).toNat = i :=
        toNat_ofNat_of_lt (by omega)
      have index : (body ++ tail).length = (outputLength - 1 - .ofNat i).toNat := by
        rw [UInt32.toNat_sub, UInt32.toNat_sub, i_eq, UInt32.toNat_one, List.length_append]
        omega
      have others := ih (i := i + 1) (by omega)
      have arranged : body ++ (tail ++ [c] ++ (List.replicate i '=' ++ back)) =
          body ++ tail ++ c :: (List.replicate i '=' ++ back) := by simp
      rw [base64PadLoop, arranged, assign_append c _ _ index, Run.ok_bind]
      rw [List.replicate_succ] at others
      simp only [List.append_assoc, List.cons_append] at others ⊢
      rw [others, Nat.add_assoc, Nat.add_comm 1 i]

theorem toNat_base64EncodedSize {n : Nat} (small : 4 * ((n + 2) / 3) < 2 ^ 32) :
    (base64EncodedSize (.ofNat n)).toNat = 4 * ((n + 2) / 3) := by
  have n_eq : (UInt32.ofNat n).toNat = n := toNat_ofNat_of_lt (by omega)
  have four : (4 : UInt32).toNat = 4 := rfl
  have three : (3 : UInt32).toNat = 3 := rfl
  have two : (2 : UInt32).toNat = 2 := rfl
  rw [base64EncodedSize, UInt32.toNat_mul, UInt32.toNat_div, UInt32.toNat_add, n_eq, four, three,
    two, Nat.mod_eq_of_lt (show n + 2 < 2 ^ 32 by omega), Nat.mod_eq_of_lt small]

theorem fetch_base64ModTable {n : Nat} (small : n < 2 ^ 32) :
    fetch base64ModTable (UInt32.ofNat n % 3).toNat = .ok (base64Padding n) := by
  have n_eq : (UInt32.ofNat n).toNat = n := toNat_ofNat_of_lt (by omega)
  have three : (3 : UInt32).toNat = 3 := rfl
  have entries : ∀ r < 3, fetch base64ModTable r = .ok ((3 - r) % 3) := by decide
  rw [UInt32.toNat_mod, n_eq, three, entries _ (Nat.mod_lt n (by decide)), base64Padding]

/-- As long as its cursor can hold the size of the text, the encoder writes the text and leaves the
rest of the array alone. -/
theorem base64Encode_eq {data : List UInt8} {dst : List Char}
    (fits : 4 * ((data.length + 2) / 3) < 2 ^ 31)
    (room : 4 * ((data.length + 2) / 3) ≤ dst.length) :
    base64Encode data dst (.ofNat data.length) =
      .ok (base64Text data ++ dst.drop (4 * ((data.length + 2) / 3))) := by
  have n_eq : (UInt32.ofNat data.length).toNat = data.length :=
    toNat_ofNat_of_lt (by omega)
  obtain ⟨body, tail, quads, tail_eq, text, _⟩ := exists_base64Text data
  have size := length_base64Quads data
  rw [quads, List.length_append] at size
  have taken : (dst.take (4 * ((data.length + 2) / 3))).length = _ := List.length_take_of_le room
  have looped : base64EncodeLoop ([] ++ data) (.ofNat data.length) (data.length + 1) 0 0
      ([] ++ (dst.take (4 * ((data.length + 2) / 3)) ++ dst.drop (4 * ((data.length + 2) / 3)))) =
        .ok _ :=
    base64EncodeLoop_eq _ rfl (by omega) (by omega) rfl taken (by omega) (by omega)
  have padded : base64PadLoop (base64EncodedSize (.ofNat data.length)) 0 tail.length
      (body ++ (tail ++ (List.replicate 0 '=' ++ dst.drop (4 * ((data.length + 2) / 3))))) =
        .ok _ :=
    base64PadLoop_eq _ (by rw [toNat_base64EncodedSize (by omega)]; omega)
  simp only [List.nil_append, List.take_append_drop, List.replicate_zero,
    Nat.add_zero] at looped padded
  rw [base64Encode, n_eq, looped, Run.ok_bind, fetch_base64ModTable (by omega), Run.ok_bind, quads,
    List.append_assoc, ← tail_eq, padded, text, tail_eq, List.append_assoc]

/-- Reading an octet takes the cursor one byte further at most, and not beyond the count. -/
theorem next_of_base64Octet {data : List UInt8} {bytes value : UInt32} {i next : Nat}
    (before : i ≤ bytes.toNat) (read : base64Octet data bytes i = .ok (value, next)) :
    next ≤ bytes.toNat ∧ next ≤ i + 1 := by
  rw [base64Octet] at read
  split at read
  · simp only [Run.bind_eq_ok, Run.pure_eq_ok, Except.ok.injEq, Prod.mk.injEq] at read
    obtain ⟨_, _, _, added, _, rfl⟩ := read
    have next_eq := (intAdd_eq_ok.mp added).2
    omega
  · obtain ⟨_, rfl⟩ := Prod.mk.inj (Except.ok.inj read)
    omega

/-- Writing a character takes the cursor one place further, as far as an `int` goes. -/
theorem next_of_base64Put {triple shift : UInt32} {j next : Nat} {dst after : List Char}
    (written : base64Put triple shift j dst = .ok (next, after)) :
    next = j + 1 ∧ next < 2 ^ 31 := by
  simp only [base64Put, Run.bind_eq_ok, Run.pure_eq_ok, Except.ok.injEq, Prod.mk.injEq] at written
  obtain ⟨_, _, _, _, _, added, rfl, _⟩ := written
  obtain ⟨fits, rfl⟩ := intAdd_eq_ok.mp added
  exact ⟨rfl, fits⟩

/-- The cursor of an encoder that returns could hold the size of the text. -/
theorem fits_of_base64EncodeLoop {data : List UInt8} {bytes : UInt32} {fuel i j : Nat}
    {dst after : List Char} (before : i ≤ bytes.toNat) (small : j < 2 ^ 31)
    (encoded : base64EncodeLoop data bytes fuel i j dst = .ok after) :
    j + 4 * ((bytes.toNat - i + 2) / 3) < 2 ^ 31 := by
  induction fuel generalizing i j dst with
  | zero => contradiction
  | succ fuel ih =>
      rw [base64EncodeLoop] at encoded
      split at encoded
      · simp only [Run.bind_eq_ok, Prod.exists] at encoded
        obtain ⟨_, k, readA, _, l, readB, _, m, readC, p, _, first, q, _, second, r, _, third, t, _,
          fourth, others⟩ := encoded
        have stepA := next_of_base64Octet before readA
        have stepB := next_of_base64Octet stepA.1 readB
        have stepC := next_of_base64Octet stepB.1 readC
        have placeA := next_of_base64Put first
        have placeB := next_of_base64Put second
        have placeC := next_of_base64Put third
        have placeD := next_of_base64Put fourth
        have rest := ih stepC.1 placeD.2 others
        omega
      · omega

theorem fits_of_base64Encode {data : List UInt8} {dst after : List Char}
    (sized : data.length < 2 ^ 32)
    (encoded : base64Encode data dst (.ofNat data.length) = .ok after) :
    4 * ((data.length + 2) / 3) < 2 ^ 31 := by
  have n_eq : (UInt32.ofNat data.length).toNat = data.length :=
    toNat_ofNat_of_lt (by omega)
  simp only [base64Encode, Run.bind_eq_ok] at encoded
  obtain ⟨_, looped, _⟩ := encoded
  have fits := fits_of_base64EncodeLoop (Nat.zero_le _) (by decide) looped
  rw [n_eq] at fits
  simpa using fits

end Freecoin
