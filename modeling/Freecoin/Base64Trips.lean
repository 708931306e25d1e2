import Freecoin.Base64

/-!
# Base 64 round trips

The decoder takes one off its count of bytes for each `=` at the end.  With the size of the padded
groups as the count it writes exactly the bytes that were encoded; with the number of those bytes it
stops short of the last ones, or wraps around below zero.
-/

namespace Freecoin

open Foundation

/-! ## The decoder -/

/-- The six bits of a character. -/
def base64Value (table : List Int8) (c : Char) : UInt32 :=
  if c = '=' then 0 else (table.getD (charIndex c) 0).toInt32.toUInt32

/-- The bytes of a text, three for each group of four characters. -/
def base64Bytes (table : List Int8) : List Char → List UInt8
  | a :: b :: c :: d :: rest =>
      let triple := sextetTriple (base64Value table a) (base64Value table b) (base64Value table c)
        (base64Value table d)
      octetAt triple (2 * 8) :: octetAt triple (1 * 8) :: octetAt triple (0 * 8) ::
        base64Bytes table rest
  | _ => []

/-- The bytes of the groups of a byte string: a partial last group is filled up with zeros. -/
def base64Filled (data : List UInt8) : List UInt8 :=
  data ++ List.replicate (base64Padding data.length) 0

/-- The count that is left after one was taken off for each `=`. -/
def base64Count (bytes : UInt32) (padding : Nat) : UInt32 := bytes - .ofNat padding

/-- An array after its first elements were assigned. -/
def overwrite {α : Type} (cells old : List α) : List α := cells ++ old.drop cells.length

theorem base64Sextet_eq {table : List Int8} {ascii : List Char} {i : Nat} {c : Char}
    (size : table.length = 256) (found : ascii[i]? = some c) (small : i + 1 < 2 ^ 31) :
    base64Sextet table ascii i = .ok (base64Value table c, i + 1) := by
  have inside : charIndex c < table.length := by
    rw [size]
    exact UInt8.toNat_lt _
  rw [base64Sextet, fetch_eq_ok.mpr found, Run.ok_bind, intAdd_of_lt small, Run.ok_bind,
    base64Value]
  split
  · rfl
  · rw [fetch_of_lt inside]
    simp [inside]

/-- A byte is stored unless the count is reached; what is left to store does not change. -/
theorem exists_base64Store {front back : List UInt8} {j : Nat} (bytes triple shift : UInt32)
    (rest : List UInt8) (front_eq : front.length = j)
    (room : ((octetAt triple shift :: rest).take (bytes.toNat - j)).length ≤ back.length)
    (small : j + 1 < 2 ^ 31) :
    ∃ stored left k, base64Store bytes triple shift j (front ++ back) = .ok (k, stored ++ left) ∧
      stored.length = k ∧ k ≤ j + 1 ∧ (rest.take (bytes.toNat - k)).length ≤ left.length ∧
      stored ++ overwrite (rest.take (bytes.toNat - k)) left =
        front ++ overwrite ((octetAt triple shift :: rest).take (bytes.toNat - j)) back := by
  by_cases before : j < bytes.toNat
  · obtain ⟨gap, gap_eq⟩ := Nat.exists_eq_add_of_lt before
    have count : bytes.toNat - j = gap + 1 := by omega
    have rest_count : bytes.toNat - (j + 1) = gap := by omega
    rw [count, List.take_succ_cons] at room ⊢
    cases back with
    | nil => simp at room
    | cons cell back =>
        refine ⟨front ++ [octetAt triple shift], back, j + 1, ?_, by simp [front_eq], le_rfl, ?_,
          ?_⟩
        · rw [base64Store, if_pos before, assign_append cell _ back front_eq, Run.ok_bind,
            intAdd_of_lt small, Run.ok_bind, List.append_assoc]
          rfl
        · rw [rest_count]
          simpa using room
        · rw [rest_count]
          simp [overwrite]
  · refine ⟨front, back, j, if_neg before, front_eq, by omega, ?_, ?_⟩
    · rw [Nat.sub_eq_zero_of_le (by omega)]
      exact Nat.zero_le _
    · rw [Nat.sub_eq_zero_of_le (by omega)]
      rfl

/-- From the groups that are still to be decoded on, the loop stores their bytes up to the count. -/
theorem base64DecodeLoop_eq {table : List Int8} {read text : List Char} {inputLength bytes : UInt32}
    {groups fuel i j : Nat} {front back : List UInt8} (behind : List Char)
    (size : table.length = 256) (read_eq : read.length = i) (text_eq : text.length = 4 * groups)
    (input_eq : inputLength.toNat = i + 4 * groups) (enough : groups < fuel)
    (front_eq : front.length = j)
    (room : ((base64Bytes table text).take (bytes.toNat - j)).length ≤ back.length)
    (inputSmall : i + 4 * groups < 2 ^ 31) (small : j + 3 * groups < 2 ^ 31) :
    base64DecodeLoop table (read ++ (text ++ behind)) inputLength bytes fuel i j (front ++ back) =
      .ok (front ++ overwrite ((base64Bytes table text).take (bytes.toNat - j)) back) := by
  obtain ⟨fuel, rfl⟩ := Nat.exists_eq_succ_of_ne_zero (by omega : fuel ≠ 0)
  induction groups generalizing read text fuel i j front back with
  | zero =>
      rw [List.length_eq_zero_iff.mp text_eq, base64DecodeLoop, if_neg (by omega)]
      simp [base64Bytes, overwrite]
  | succ groups ih =>
      obtain ⟨fuel, rfl⟩ := Nat.exists_eq_succ_of_ne_zero (by omega : fuel ≠ 0)
      obtain ⟨a, b, others, rfl, others_eq⟩ := exists_cons_cons text_eq
      obtain ⟨c, d, text, rfl, rest_eq⟩ := exists_cons_cons others_eq
      simp only [List.cons_append]
      have readA : base64Sextet table (read ++ a :: b :: c :: d :: (text ++ behind)) i =
          .ok (base64Value table a, i + 1) :=
        base64Sextet_eq size (by simp [← read_eq]) (by omega)
      have readB : base64Sextet table (read ++ a :: b :: c :: d :: (text ++ behind)) (i + 1) =
          .ok (base64Value table b, i + 2) :=
        base64Sextet_eq size (by simp [← read_eq]) (by omega)
      have readC : base64Sextet table (read ++ a :: b :: c :: d :: (text ++ behind)) (i + 2) =
          .ok (base64Value table c, i + 3) :=
        base64Sextet_eq size (by simp [← read_eq]) (by omega)
      have readD : base64Sextet table (read ++ a :: b :: c :: d :: (text ++ behind)) (i + 3) =
          .ok (base64Value table d, i + 4) :=
        base64Sextet_eq size (by simp [← read_eq]) (by omega)
      rw [base64Bytes] at room ⊢
      generalize triple_eq : sextetTriple (base64Value table a) (base64Value table b)
        (base64Value table c) (base64Value table d) = triple at room ⊢
      obtain ⟨front₁, back₁, k, storeA, front₁_eq, k_le, room₁, same₁⟩ :=
        exists_base64Store bytes triple (2 * 8) _ front_eq room (by omega)
      obtain ⟨front₂, back₂, l, storeB, front₂_eq, l_le, room₂, same₂⟩ :=
        exists_base64Store bytes triple (1 * 8) _ front₁_eq room₁ (by omega)
      obtain ⟨front₃, back₃, m, storeC, front₃_eq, m_le, room₃, same₃⟩ :=
        exists_base64Store bytes triple (0 * 8) _ front₂_eq room₂ (by omega)
      have nextRead : (read ++ [a, b, c, d]).length = i + 4 := by simp [read_eq]
      have others := ih nextRead rest_eq (by omega) front₃_eq room₃ (by omega) (by omega) fuel
        (by omega)
      simp only [List.append_assoc, List.cons_append, List.nil_append] at others
      rw [← same₁, ← same₂, ← same₃, ← others, base64DecodeLoop, if_pos (by omega)]
      simp only [readA, readB, readC, readD, Run.ok_bind]
      rw [← sextetTriple, triple_eq]
      simp only [storeA, storeB, storeC, Run.ok_bind]

/-! ## Decoding the text -/

/-- The bytes of a number come back from characters that stand for its sextets. -/
theorem base64Bytes_cons {a b c : UInt8} {w x y z : Char} (text : List Char)
    (first : base64Value table w = sextetAt (octetTriple a b c) (3 * 6))
    (second : base64Value table x = sextetAt (octetTriple a b c) (2 * 6))
    (third : base64Value table y = sextetAt (octetTriple a b c) (1 * 6))
    (fourth : base64Value table z = sextetAt (octetTriple a b c) (0 * 6)) :
    base64Bytes table (w :: x :: y :: z :: text) = a :: b :: c :: base64Bytes table text := by
  have small : (octetTriple a b c).toNat < 2 ^ 24 := by
    have boundA := a.toNat_lt
    have boundB := b.toNat_lt
    have boundC := c.toNat_lt
    rw [toNat_octetTriple]
    omega
  obtain ⟨high, middle, low⟩ := octetAt_octetTriple a b c
  rw [base64Bytes, first, second, third, fourth, sextetTriple_sextetAt small, high, middle, low]

/-- The character at an index of the text is `=` exactly if the index is in the padding. -/
theorem base64Text_getElem? {data : List UInt8} {k : Nat}
    (inside : k < 4 * ((data.length + 2) / 3)) :
    ∃ c, (base64Text data)[k]? = some c ∧
      (c = '=' ↔ 4 * ((data.length + 2) / 3) ≤ k + base64Padding data.length) := by
  obtain ⟨body, tail, quads, tail_eq, text, letters⟩ := exists_base64Text data
  have size := length_base64Quads data
  rw [quads, List.length_append, tail_eq] at size
  have absent : '=' ∉ base64EncodingTable := by decide
  rw [text]
  rcases Nat.lt_or_ge k body.length with front | back
  · refine ⟨body[k], ?_, iff_of_false (fun pad => ?_) (by omega)⟩
    · rw [List.getElem?_append_left front, List.getElem?_eq_getElem front]
    · exact absent (pad ▸ letters _ (List.getElem_mem front))
  · refine ⟨'=', ?_, iff_of_true rfl (by omega)⟩
    rw [List.getElem?_append_right back, List.getElem?_replicate, if_pos (by omega)]

theorem base64Count_eq {padding : Nat} {last previous : Char} (bytes : UInt32)
    (few : padding ≤ 2) (last_iff : last = '=' ↔ 1 ≤ padding)
    (previous_iff : previous = '=' ↔ 2 ≤ padding) :
    (if previous = '=' then (if last = '=' then bytes - 1 else bytes) - 1
      else if last = '=' then bytes - 1 else bytes) = base64Count bytes padding := by
  simp only [last_iff, previous_iff, base64Count]
  interval_cases padding
  · simp
  · rfl
  · grind

section Table

variable {table : List Int8} (decoding : DecodingTable table)

include decoding

theorem base64Value_letter (triple shift : UInt32) :
    base64Value table (base64Letter (sextetAt triple shift).toNat) = sextetAt triple shift := by
  have small : (sextetAt triple shift).toNat < 64 := by
    rw [sextetAt, UInt32.toNat_and]
    exact Nat.lt_succ_of_le Nat.and_le_right
  have extended : ∀ k < 64, (Int8.ofNat k).toInt32.toUInt32 = .ofNat k := by decide
  rw [base64Value, if_neg (base64Letter_ne_pad _), decoding.entry _ small, extended _ small,
    UInt32.ofNat_toNat]

/-- Decoding the text of a byte string gives its bytes, and the zeros that filled its last group. -/
theorem base64Bytes_base64Text (data : List UInt8) :
    base64Bytes table (base64Text data) = base64Filled data := by
  have letter := base64Value_letter decoding
  have pad : base64Value table '=' = 0 := rfl
  induction data using base64Quads.induct with
  | case1 a b c rest ih =>
      have padding : base64Padding (a :: b :: c :: rest).length = base64Padding rest.length := by
        simp only [base64Padding, List.length_cons]
        omega
      rw [base64Filled, padding, List.cons_append, List.cons_append, List.cons_append,
        ← base64Filled, ← ih, base64Text]
      exact base64Bytes_cons _ (letter _ _) (letter _ _) (letter _ _) (letter _ _)
  | case2 a b =>
      have zero := (sextetAt_octetTriple_zero a b).1
      exact base64Bytes_cons [] (letter _ _) (letter _ _) (letter _ _)
        (pad.trans zero.symm)
  | case3 a =>
      have zero := (sextetAt_octetTriple_zero a 0).1
      have zeroAbove := (sextetAt_octetTriple_zero a 0).2
      exact base64Bytes_cons [] (letter _ _) (letter _ _) (pad.trans zeroAbove.symm)
        (pad.trans zero.symm)
  | case4 => rfl

end Table

/-- On a text, the decoder runs its loop with what is left of the count. -/
theorem base64Decode_eq_loop {table : List Int8} {data dst : List UInt8} {bytes : UInt32}
    (behind : List Char) (nonempty : 1 ≤ data.length)
    (sized : (base64EncodedSize bytes).toNat = 4 * ((data.length + 2) / 3)) :
    base64Decode table (base64Text data ++ behind) dst bytes =
      base64DecodeLoop table (base64Text data ++ behind) (base64EncodedSize bytes)
        (base64Count bytes (base64Padding data.length)) (4 * ((data.length + 2) / 3) + 1) 0 0
        dst := by
  have few : base64Padding data.length ≤ 2 := by
    rw [base64Padding]
    omega
  have bound := (base64EncodedSize bytes).toNat_lt
  have lastIndex : (base64EncodedSize bytes - 1).toNat = 4 * ((data.length + 2) / 3) - 1 := by
    rw [UInt32.toNat_sub, sized, UInt32.toNat_one]
    omega
  have previousIndex : (base64EncodedSize bytes - 2).toNat = 4 * ((data.length + 2) / 3) - 2 := by
    have two : (2 : UInt32).toNat = 2 := rfl
    rw [UInt32.toNat_sub, sized, two]
    omega
  have whole : base64EncodedSize bytes % 4 = 0 := by
    apply UInt32.toNat_inj.mp
    rw [UInt32.toNat_mod, sized]
    exact Nat.mul_mod_right 4 _
  obtain ⟨last, lastFound, last_iff⟩ : ∃ c, _ ∧ (c = '=' ↔ _) := base64Text_getElem?
    (show 4 * ((data.length + 2) / 3) - 1 < 4 * ((data.length + 2) / 3) by omega)
  obtain ⟨previous, previousFound, previous_iff⟩ : ∃ c, _ ∧ (c = '=' ↔ _) := base64Text_getElem?
    (show 4 * ((data.length + 2) / 3) - 2 < 4 * ((data.length + 2) / 3) by omega)
  have fetched : ∀ {k : Nat} {c : Char}, (base64Text data)[k]? = some c →
      fetch (base64Text data ++ behind) k = .ok c := by
    intro k c found
    rw [fetch_eq_ok, List.getElem?_append_left (List.getElem?_eq_some_iff.mp found).1, found]
  have count := base64Count_eq bytes few (last_iff.trans (by omega)) (previous_iff.trans (by omega))
  simp only [base64Decode, whole, lastIndex, previousIndex, fetched lastFound,
    fetched previousFound, Run.ok_bind, sized, count, ne_eq, not_true_eq_false, if_false]

/-- What the decoder leaves in the array for a text, with any count that gives its size. -/
theorem base64Decode_text {table : List Int8} (decoding : DecodingTable table)
    {data dst : List UInt8} {bytes : UInt32} (behind : List Char) (nonempty : 1 ≤ data.length)
    (fits : 4 * ((data.length + 2) / 3) < 2 ^ 31)
    (sized : (base64EncodedSize bytes).toNat = 4 * ((data.length + 2) / 3))
    (room : ((base64Filled data).take
      (base64Count bytes (base64Padding data.length)).toNat).length ≤ dst.length) :
    base64Decode table (base64Text data ++ behind) dst bytes =
      .ok (overwrite ((base64Filled data).take
        (base64Count bytes (base64Padding data.length)).toNat) dst) := by
  rw [base64Decode_eq_loop behind nonempty sized]
  rw [← base64Bytes_base64Text decoding] at room ⊢
  have looped : base64DecodeLoop table ([] ++ (base64Text data ++ behind)) (base64EncodedSize bytes)
      (base64Count bytes (base64Padding data.length)) (4 * ((data.length + 2) / 3) + 1) 0 0
        ([] ++ dst) = .ok _ :=
    base64DecodeLoop_eq behind decoding.size rfl (length_base64Text data) (by omega) (by omega) rfl
      room (by omega) (by omega)
  exact looped

/-- A byte that is to be stored has room, and the cursor moves behind it. -/
theorem next_of_base64Store {bytes triple shift : UInt32} {j next : Nat} {dst after : List UInt8}
    (before : j < bytes.toNat) (stored : base64Store bytes triple shift j dst = .ok (next, after)) :
    next = j + 1 ∧ j < dst.length ∧ after.length = dst.length := by
  simp only [base64Store, if_pos before, Run.bind_eq_ok, Run.pure_eq_ok, Except.ok.injEq,
    Prod.mk.injEq] at stored
  obtain ⟨_, assigned, _, added, rfl, rfl⟩ := stored
  obtain ⟨inside, rfl⟩ := assign_eq_ok.mp assigned
  exact ⟨(intAdd_eq_ok.mp added).2, inside, List.length_set⟩

/-- An iteration that may store three bytes has room for them. -/
theorem room_of_base64DecodeLoop {table : List Int8} {ascii : List Char}
    {inputLength bytes : UInt32} {fuel i j : Nat} {dst after : List UInt8}
    (inside : i < inputLength.toNat) (count : j + 3 ≤ bytes.toNat)
    (decoded : base64DecodeLoop table ascii inputLength bytes fuel i j dst = .ok after) :
    j + 3 ≤ dst.length := by
  cases fuel with
  | zero => contradiction
  | succ fuel =>
      rw [base64DecodeLoop, if_pos inside] at decoded
      simp only [Run.bind_eq_ok, Prod.exists] at decoded
      obtain ⟨_, _, _, _, _, _, _, _, _, _, _, _, k, _, storeA, l, _, storeB, m, _, storeC, _⟩ :=
        decoded
      obtain ⟨rfl, _, lengthA⟩ := next_of_base64Store (by omega) storeA
      obtain ⟨rfl, _, lengthB⟩ := next_of_base64Store (by omega) storeB
      obtain ⟨rfl, within, _⟩ := next_of_base64Store (by omega) storeC
      omega

/-! ## With the size of the groups -/

theorem base64Padding_le (n : Nat) : base64Padding n ≤ 2 := by
  rw [base64Padding]
  omega

/-- The decoded size of the encoded size counts whole groups. -/
theorem base64DecodedSize_eq {n : Nat} (small : n ≤ 2 ^ 30) :
    base64DecodedSize (base64EncodedSize (.ofNat n)) = .ofNat (3 * ((n + 2) / 3)) := by
  have encoded := toNat_base64EncodedSize (show 4 * ((n + 2) / 3) < 2 ^ 32 by omega)
  have four : (4 : UInt32).toNat = 4 := rfl
  have three : (3 : UInt32).toNat = 3 := rfl
  apply UInt32.toNat_inj.mp
  rw [base64DecodedSize, UInt32.toNat_mul, UInt32.toNat_div, encoded, four, three,
    toNat_ofNat_of_lt (by omega)]
  omega

theorem toNat_base64Count {bytes padding : Nat} (small : bytes < 2 ^ 32)
    (enough : padding ≤ bytes) :
    (base64Count (.ofNat bytes) padding).toNat = bytes - padding := by
  have bytes_eq : (UInt32.ofNat bytes).toNat = bytes :=
    toNat_ofNat_of_lt (by omega)
  have padding_eq : (UInt32.ofNat padding).toNat = padding :=
    toNat_ofNat_of_lt (by omega)
  rw [base64Count, UInt32.toNat_sub, bytes_eq, padding_eq]
  omega

/-- The encoder writes as many characters as `base64_encoded_size` says, letters and then up to two
`=`.  With `base64_decoded_size` of that as its count, the decoder writes the bytes that were
encoded and nothing behind them. -/
theorem base64_exact (data : List UInt8) (nonempty : 1 ≤ data.length)
    (small : data.length ≤ 2 ^ 30) (memory : List Int8) (allocated : memory.length = 256)
    (ascii : List Char)
    (textRoom : (base64EncodedSize (.ofNat data.length)).toNat ≤ ascii.length)
    (dst : List UInt8) (byteRoom : data.length ≤ dst.length) :
    ∃ table body padding, utilInit memory = .ok table ∧
      base64Encode data ascii (.ofNat data.length) =
        .ok (body ++ List.replicate padding '=' ++
          ascii.drop (base64EncodedSize (.ofNat data.length)).toNat) ∧
      body.length + padding = (base64EncodedSize (.ofNat data.length)).toNat ∧
      (∀ c ∈ body, c ∈ base64EncodingTable) ∧ padding ≤ 2 ∧
      ∀ behind, base64Decode table (body ++ List.replicate padding '=' ++ behind) dst
          (base64DecodedSize (base64EncodedSize (.ofNat data.length))) =
        .ok (data ++ dst.drop data.length) := by
  obtain ⟨table, initialized, decoding⟩ := exists_utilInit allocated
  obtain ⟨body, tail, quads, tail_eq, text, letters⟩ := exists_base64Text data
  have sized := toNat_base64EncodedSize (show 4 * ((data.length + 2) / 3) < 2 ^ 32 by omega)
  have length_eq := length_base64Text data
  have padding_eq : base64Padding data.length = 3 * ((data.length + 2) / 3) - data.length := by
    rw [base64Padding]
    omega
  rw [sized] at textRoom ⊢
  refine ⟨table, body, base64Padding data.length, initialized, ?_, ?_, letters, base64Padding_le _,
    ?_⟩
  · rw [← text, base64Encode_eq (by omega) textRoom]
  · rw [text, List.length_append, List.length_replicate] at length_eq
    exact length_eq
  · intro behind
    have count : (base64Count (.ofNat (3 * ((data.length + 2) / 3)))
        (base64Padding data.length)).toNat = data.length := by
      rw [toNat_base64Count (by omega) (by omega)]
      omega
    have bytes : (base64Filled data).take data.length = data := List.take_left
    have groups : (base64EncodedSize (.ofNat (3 * ((data.length + 2) / 3)))).toNat =
        4 * ((data.length + 2) / 3) := by
      rw [toNat_base64EncodedSize (by omega)]
      omega
    rw [← text, base64DecodedSize_eq small,
      base64Decode_text decoding behind nonempty (by omega) groups
        (by rw [count, bytes]; exact byteRoom),
      count, bytes, overwrite]

/-- The text of four bytes. -/
theorem base64_exact_four :
    ∃ table body padding, utilInit (List.replicate 256 0) = .ok table ∧
      base64Encode [77, 97, 110, 1] (List.replicate 8 'x') 4 =
        .ok (body ++ List.replicate padding '=' ++ []) ∧
      base64Decode table (body ++ List.replicate padding '=' ++ []) [9, 9, 9, 9, 9] 6 =
        .ok [77, 97, 110, 1, 9] := by
  obtain ⟨table, body, padding, initialized, encoded, _, _, _, decoded⟩ :=
    base64_exact [77, 97, 110, 1] (by decide) (by decide) (List.replicate 256 0)
      List.length_replicate (List.replicate 8 'x') (by decide) [9, 9, 9, 9, 9] (by decide)
  exact ⟨table, body, padding, initialized, encoded, decoded []⟩

/-! ## With the number of bytes -/

/-- Encoding a byte string and decoding the text with the number of its bytes leaves them at the
start of the array. -/
def Base64RoundTrips (table : List Int8) (data : List UInt8) (ascii : List Char)
    (dst : List UInt8) : Prop :=
  ∃ text after, base64Encode data ascii (.ofNat data.length) = .ok text ∧
    base64Decode table text dst (.ofNat data.length) = .ok after ∧
    after.take data.length = data

/-- The count of a single byte wraps around, so all three bytes of its group are stored. -/
theorem base64Decode_single {table : List Int8} (decoding : DecodingTable table) (byte : UInt8)
    (behind : List Char) (dst : List UInt8) :
    (3 ≤ dst.length → base64Decode table (base64Text [byte] ++ behind) dst 1 =
      .ok (byte :: 0 :: 0 :: dst.drop 3)) ∧
    (dst.length < 3 → ∀ after,
      base64Decode table (base64Text [byte] ++ behind) dst 1 ≠ .ok after) := by
  have wrapped : (base64Count 1 (base64Padding [byte].length)).toNat = 2 ^ 32 - 1 := rfl
  have groups : (base64EncodedSize 1).toNat = 4 * (([byte].length + 2) / 3) := by
    rw [List.length_singleton]
    rfl
  have filled : (base64Filled [byte]).take (2 ^ 32 - 1) = [byte, 0, 0] :=
    List.take_of_length_le (show 3 ≤ 2 ^ 32 - 1 by decide)
  constructor
  · intro room
    rw [base64Decode_text decoding behind le_rfl (by rw [← groups]; decide) groups
      (by rw [wrapped, filled]; exact room), wrapped, filled]
    rfl
  · intro short after decoded
    rw [base64Decode_eq_loop behind le_rfl groups] at decoded
    have room := room_of_base64DecodeLoop (by decide) (by rw [wrapped]; decide) decoded
    omega

/-- The count of more bytes stops short of those that a `=` stands for. -/
theorem base64Decode_many {table : List Int8} (decoding : DecodingTable table)
    {data dst : List UInt8} (behind : List Char) (many : 2 ≤ data.length)
    (fits : 4 * ((data.length + 2) / 3) < 2 ^ 31) (room : data.length ≤ dst.length) :
    base64Decode table (base64Text data ++ behind) dst (.ofNat data.length) =
      .ok (data.take (data.length - base64Padding data.length) ++
        dst.drop (data.length - base64Padding data.length)) := by
  have enough : base64Padding data.length ≤ data.length := by
    rw [base64Padding]
    omega
  have count := toNat_base64Count (show data.length < 2 ^ 32 by omega) enough
  have bytes : (base64Filled data).take (data.length - base64Padding data.length) =
      data.take (data.length - base64Padding data.length) :=
    List.take_append_of_le_length (by omega)
  have length_eq : (data.take (data.length - base64Padding data.length)).length =
      data.length - base64Padding data.length := List.length_take_of_le (by omega)
  rw [base64Decode_text decoding behind (by omega) fits (toNat_base64EncodedSize (by omega))
    (by rw [count, bytes, length_eq]; omega), count, bytes, overwrite, length_eq]

theorem take_append_drop_eq_iff {data dst : List UInt8} {n : Nat} (before : n ≤ data.length) :
    (data.take n ++ dst.drop n).take data.length = data ↔
      (dst.take data.length).drop n = data.drop n := by
  have front : (data.take n).length = n := List.length_take_of_le before
  have taken : (data.take n ++ dst.drop n).take data.length =
      data.take n ++ (dst.take data.length).drop n := by
    rw [List.take_append, front, List.take_of_length_le (by omega), List.drop_take]
  rw [taken]
  conv_lhs => rhs; rw [← List.take_append_drop n data]
  rw [List.append_right_inj]

theorem base64RoundTrips_iff_decode {table : List Int8} {data dst : List UInt8} {ascii : List Char}
    (fits : 4 * ((data.length + 2) / 3) < 2 ^ 31)
    (textRoom : 4 * ((data.length + 2) / 3) ≤ ascii.length) :
    Base64RoundTrips table data ascii dst ↔
      ∃ after, base64Decode table (base64Text data ++ ascii.drop (4 * ((data.length + 2) / 3))) dst
          (.ofNat data.length) = .ok after ∧
        after.take data.length = data := by
  have encoded := base64Encode_eq fits textRoom
  constructor
  · rintro ⟨text, after, other, decoded, same⟩
    obtain rfl := Except.ok.inj (encoded.symm.trans other)
    exact ⟨after, decoded, same⟩
  · rintro ⟨after, decoded, same⟩
    exact ⟨_, after, encoded, decoded, same⟩

section RoundTrips

variable {table : List Int8} (decoding : DecodingTable table) {ascii : List Char}

include decoding

/-- A single byte comes back exactly if there is room for its whole group. -/
theorem base64RoundTrips_single {byte : UInt8} {dst : List UInt8}
    (textRoom : 4 * (([byte].length + 2) / 3) ≤ ascii.length) :
    Base64RoundTrips table [byte] ascii dst ↔ 3 ≤ dst.length := by
  obtain ⟨roomy, tight⟩ := base64Decode_single decoding byte
    (ascii.drop (4 * (([byte].length + 2) / 3))) dst
  have fits : 4 * (([byte].length + 2) / 3) < 2 ^ 31 := by
    rw [List.length_singleton]
    decide
  rw [base64RoundTrips_iff_decode fits textRoom]
  constructor
  · rintro ⟨after, returned, _⟩
    by_contra short
    exact tight (Nat.lt_of_not_le short) after returned
  · intro room
    exact ⟨_, roomy room, rfl⟩

/-- More bytes come back exactly if the array already holds those that are not stored. -/
theorem base64RoundTrips_many {data dst : List UInt8} (many : 2 ≤ data.length)
    (fits : 4 * ((data.length + 2) / 3) < 2 ^ 31)
    (textRoom : 4 * ((data.length + 2) / 3) ≤ ascii.length) (byteRoom : data.length ≤ dst.length) :
    Base64RoundTrips table data ascii dst ↔
      (dst.take data.length).drop (data.length - base64Padding data.length) =
        data.drop (data.length - base64Padding data.length) := by
  rw [base64RoundTrips_iff_decode fits textRoom,
    base64Decode_many decoding (ascii.drop (4 * ((data.length + 2) / 3))) many fits byteRoom,
    ← take_append_drop_eq_iff (Nat.sub_le _ _)]
  constructor
  · rintro ⟨after, returned, same⟩
    obtain rfl := Except.ok.inj returned
    exact same
  · intro same
    exact ⟨_, rfl, same⟩

end RoundTrips

/-- A byte string comes back exactly if the cursors of the encoder can hold the size of its text,
and it is a single byte and the array has room for three, or the array already holds the last
bytes that the decoder does not store. -/
theorem base64RoundTrips_iff (data : List UInt8) (nonempty : 1 ≤ data.length)
    (sized : data.length < 2 ^ 32) (memory table : List Int8) (allocated : memory.length = 256)
    (initialized : utilInit memory = .ok table) (ascii : List Char)
    (textRoom : (base64EncodedSize (.ofNat data.length)).toNat ≤ ascii.length)
    (dst : List UInt8) (byteRoom : data.length ≤ dst.length) :
    Base64RoundTrips table data ascii dst ↔
      data.length ≤ 1610612733 ∧
        ((data.length = 1 ∧ 3 ≤ dst.length) ∨
          (2 ≤ data.length ∧ (dst.take data.length).drop (data.length - (3 - data.length % 3) % 3) =
            data.drop (data.length - (3 - data.length % 3) % 3))) := by
  obtain ⟨after, decodingInit, decoding⟩ := exists_utilInit allocated
  obtain rfl := Except.ok.inj (initialized.symm.trans decodingInit)
  rcases Nat.lt_or_ge 1610612733 data.length with large | small
  · refine iff_of_false ?_ (by omega)
    rintro ⟨text, _, encoded, _⟩
    have fits := fits_of_base64Encode sized encoded
    omega
  · rw [toNat_base64EncodedSize (by omega)] at textRoom
    rcases Nat.eq_or_lt_of_le nonempty with single | many
    · obtain ⟨byte, rfl⟩ := List.length_eq_one_iff.mp single.symm
      rw [base64RoundTrips_single decoding textRoom]
      constructor
      · intro room
        exact ⟨small, Or.inl ⟨rfl, room⟩⟩
      · rintro ⟨_, ⟨_, room⟩ | ⟨many, _⟩⟩
        · exact room
        · simp at many
    · rw [base64RoundTrips_many decoding many (by omega) textRoom byteRoom]
      constructor
      · intro held
        exact ⟨small, Or.inr ⟨many, held⟩⟩
      · rintro ⟨_, ⟨single, _⟩ | ⟨_, held⟩⟩
        · omega
        · exact held

/-- Three bytes come back. -/
theorem base64RoundTrips_three :
    ∃ table, utilInit (List.replicate 256 0) = .ok table ∧
      Base64RoundTrips table [1, 2, 3] (List.replicate 4 'x') [9, 9, 9] := by
  obtain ⟨table, initialized, _⟩ := exists_utilInit (List.length_replicate (n := 256) (a := 0))
  refine ⟨table, initialized, (base64RoundTrips_iff [1, 2, 3] (by decide) (by decide) _ table
    List.length_replicate initialized (List.replicate 4 'x') (by decide) [9, 9, 9]
    (by decide)).mpr ?_⟩
  decide

/-- Of two bytes the second one is not stored. -/
theorem not_base64RoundTrips_two :
    ∃ table, utilInit (List.replicate 256 0) = .ok table ∧
      ¬ Base64RoundTrips table [1, 2] (List.replicate 4 'x') [9, 9] := by
  obtain ⟨table, initialized, decoding⟩ :=
    exists_utilInit (List.length_replicate (n := 256) (a := 0))
  refine ⟨table, initialized, ?_⟩
  rintro ⟨text, after, encoded, decoded, same⟩
  have written : base64Encode [1, 2] (List.replicate 4 'x') 2 = .ok (base64Text [1, 2] ++ []) :=
    base64Encode_eq (by decide) (by decide)
  obtain rfl := Except.ok.inj (written.symm.trans encoded)
  have read : base64Decode table (base64Text [1, 2] ++ []) [9, 9] 2 = .ok [1, 9] :=
    base64Decode_many decoding [] (by decide) (by decide) (by decide)
  obtain rfl := Except.ok.inj (read.symm.trans decoded)
  exact absurd same (by decide)

end Freecoin
