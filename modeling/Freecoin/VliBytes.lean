import Freecoin.Foundation.Memory
import Freecoin.Vli

/-!
# Very long integers as bytes

Keys and signatures are exchanged as bytes, the highest one first.  Both conversions go through the
words byte by byte; together they lose nothing but what does not fit in the bytes.  They count the
bytes with an `int8_t`.
-/

namespace Freecoin

open Foundation

/-- The bytes that the loop of `ecdsa_vli_nativeToBytes` writes. -/
def nativeBytes (numBytes : Nat) (native : Vli 64) : List UInt8 :=
  (List.range numBytes).map fun i =>
    let b := numBytes - 1 - i
    UInt8.ofBitVec ((native.getD (b / 8) 0#64 >>> (8 * (b % 8))).setWidth 8)

/-- One round of `ecdsa_vli_bytesToNative`. -/
def bytesToNativeStep (bytes : List UInt8) (numBytes : Nat) (native : Vli 64) (i : Nat) : Vli 64 :=
  let b := numBytes - 1 - i
  native.set (b / 8)
    (native.getD (b / 8) 0#64 ||| (bytes.getD i 0).toBitVec.setWidth 64 <<< (8 * (b % 8)))

/-- The words that the loop of `ecdsa_vli_bytesToNative` leaves, as many as it clears. -/
def bytesNative (bytes : List UInt8) (numBytes : Nat) : Vli 64 :=
  (List.range numBytes).foldl (bytesToNativeStep bytes numBytes) (vliClear ((numBytes + 7) / 8))

/-- `ecdsa_vli_nativeToBytes`.  `i` is an `int8_t`: from 128 bytes on it turns negative in the
loop. -/
def vliNativeToBytes (numBytes : Nat) (native : Vli 64) : Run (List UInt8) :=
  if numBytes ≤ 127 ∧ numBytes ≤ 8 * native.length then .ok (nativeBytes numBytes native)
  else .error .outOfBounds

/-- `ecdsa_vli_bytesToNative`, with the same counter. -/
def vliBytesToNative (bytes : List UInt8) (numBytes : Nat) : Run (Vli 64) :=
  if numBytes ≤ 127 ∧ numBytes ≤ bytes.length then .ok (bytesNative bytes numBytes)
  else .error .outOfBounds

theorem vliNativeToBytes_eq {numBytes : Nat} {native : Vli 64} (few : numBytes ≤ 127)
    (available : numBytes ≤ 8 * native.length) :
    vliNativeToBytes numBytes native = .ok (nativeBytes numBytes native) :=
  if_pos ⟨few, available⟩

theorem vliBytesToNative_eq {bytes : List UInt8} {numBytes : Nat} (few : numBytes ≤ 127)
    (available : numBytes ≤ bytes.length) :
    vliBytesToNative bytes numBytes = .ok (bytesNative bytes numBytes) :=
  if_pos ⟨few, available⟩

/-- The number that bytes stand for, the highest byte first. -/
def bytesValue (bytes : List UInt8) : Nat := Limbs.value (bytes.map UInt8.toBitVec).reverse

theorem bytesValue_append_singleton (bytes : List UInt8) (byte : UInt8) :
    bytesValue (bytes ++ [byte]) = byte.toNat + 2 ^ 8 * bytesValue bytes := by
  rw [bytesValue, List.map_append, List.reverse_append]
  exact Limbs.value_cons _ _

theorem bytesValue_lt (bytes : List UInt8) : bytesValue bytes < 2 ^ (8 * bytes.length) := by
  have bound := Limbs.value_lt (bytes.map UInt8.toBitVec).reverse
  rwa [List.length_reverse, List.length_map] at bound

theorem eq_of_bytesValue_eq {left right : List UInt8} (lengths : left.length = right.length)
    (values : bytesValue left = bytesValue right) : left = right := by
  have reversed := Limbs.eq_of_value_eq (by simpa using lengths) values
  have mapped := List.reverse_injective reversed
  exact List.map_injective_iff.mpr (fun _ _ same => UInt8.eq_of_toBitVec_eq same) mapped

/-! ## Bytes to words -/

theorem toNat_setWidth_shiftLeft (byte : UInt8) {place : Nat} (inside : place < 8) :
    (byte.toBitVec.setWidth 64 <<< (8 * place)).toNat = byte.toNat <<< (8 * place) := by
  have small : byte.toNat < 2 ^ 8 := byte.toNat_lt
  have fits : byte.toNat <<< (8 * place) < 2 ^ 64 := by
    rw [Nat.shiftLeft_eq]
    calc byte.toNat * 2 ^ (8 * place)
        < 2 ^ 8 * 2 ^ (8 * place) := Nat.mul_lt_mul_of_pos_right small (Nat.two_pow_pos _)
      _ = 2 ^ (8 + 8 * place) := (pow_add _ _ _).symm
      _ ≤ 2 ^ 64 := Nat.pow_le_pow_right Nat.two_pos (by omega)
  rw [BitVec.toNat_shiftLeft, BitVec.toNat_setWidth, UInt8.toNat_toBitVec,
    Nat.mod_eq_of_lt (small.trans (by decide)), Nat.mod_eq_of_lt fits]

section ToNative

variable {bytes : List UInt8} {numBytes : Nat}

theorem length_bytesToNativeStep (native : Vli 64) (i : Nat) :
    (bytesToNativeStep bytes numBytes native i).length = native.length := List.length_set

/-- Each round sets the bits of one byte. -/
theorem value_bytesToNativeStep {native : Vli 64} {i : Nat} (inside : i < numBytes)
    (words : native.length = (numBytes + 7) / 8) :
    Limbs.value (bytesToNativeStep bytes numBytes native i) =
      Limbs.value native ||| (bytes.getD i 0).toNat <<< (8 * (numBytes - 1 - i)) := by
  rw [bytesToNativeStep, Limbs.value_set_or (by decide) (by omega),
    toNat_setWidth_shiftLeft _ (Nat.mod_lt _ (by decide)), ← Nat.shiftLeft_add]
  congr 2
  omega

/-- After some rounds the words hold that many bytes, in their place. -/
theorem foldl_bytesToNativeStep {count : Nat} (available : numBytes ≤ bytes.length)
    (inside : count ≤ numBytes) :
    let native := (List.range count).foldl (bytesToNativeStep bytes numBytes)
      (vliClear ((numBytes + 7) / 8))
    native.length = (numBytes + 7) / 8 ∧
      Limbs.value native = bytesValue (bytes.take count) <<< (8 * (numBytes - count)) := by
  induction count with
  | zero => simp [bytesValue, length_vliClear, value_vliClear]
  | succ count ih =>
      obtain ⟨words, value_eq⟩ := ih (Nat.le_of_succ_le inside)
      rw [List.range_succ, List.foldl_append, List.foldl_cons, List.foldl_nil]
      refine ⟨(length_bytesToNativeStep _ _).trans words, ?_⟩
      have small : (bytes.getD count 0).toNat < 2 ^ 8 := (bytes.getD count 0).toNat_lt
      have taken : bytes.take (count + 1) = bytes.take count ++ [bytes.getD count 0] := by
        rw [List.take_add_one, List.getD_eq_getElem?_getD,
          List.getElem?_eq_getElem (by omega)]
        rfl
      have room : 8 * (numBytes - count) = 8 + 8 * (numBytes - 1 - count) := by omega
      have last : 8 * (numBytes - (count + 1)) = 8 * (numBytes - 1 - count) := by omega
      rw [value_bytesToNativeStep inside words, value_eq, taken, bytesValue_append_singleton, room,
        last, Nat.shiftLeft_add, ← Nat.shiftLeft_or_distrib, Nat.shiftLeft_eq _ 8,
        mul_comm _ (2 ^ 8), add_comm, Nat.two_pow_add_eq_or_of_lt small]

/-- The loop of `ecdsa_vli_bytesToNative` reads a number from the first bytes. -/
theorem bytesNative_spec (available : numBytes ≤ bytes.length) :
    (bytesNative bytes numBytes).length = (numBytes + 7) / 8 ∧
      Limbs.value (bytesNative bytes numBytes) = bytesValue (bytes.take numBytes) := by
  obtain ⟨words, value_eq⟩ := foldl_bytesToNativeStep available le_rfl
  refine ⟨words, value_eq.trans ?_⟩
  rw [Nat.sub_self, mul_zero, Nat.shiftLeft_zero]

theorem bytesNative_append {more : List UInt8} (available : numBytes ≤ bytes.length) :
    bytesNative (bytes ++ more) numBytes = bytesNative bytes numBytes := by
  obtain ⟨words, value_eq⟩ := bytesNative_spec available
  obtain ⟨others, other_eq⟩ := @bytesNative_spec (bytes ++ more) numBytes
    (by rw [List.length_append]; omega)
  apply Limbs.eq_of_value_eq (others.trans words.symm)
  rw [other_eq, value_eq, List.take_append_of_le_length available]

end ToNative

/-! ## Words to bytes -/

@[simp] theorem length_nativeBytes (numBytes : Nat) (native : Vli 64) :
    (nativeBytes numBytes native).length = numBytes := by
  rw [nativeBytes, List.length_map, List.length_range]

/-- The loop of `ecdsa_vli_nativeToBytes` writes the lowest bytes of the number. -/
theorem bytesValue_nativeBytes (numBytes : Nat) (native : Vli 64) :
    bytesValue (nativeBytes numBytes native) = Limbs.value native % 2 ^ (8 * numBytes) := by
  apply Nat.eq_of_testBit_eq
  intro place
  rw [Nat.testBit_mod_two_pow, bytesValue, Limbs.testBit_value (by decide),
    Limbs.testBit_value (by decide), List.getD_eq_getElem?_getD]
  by_cases inside : place < 8 * numBytes
  · have index : place / 8 < numBytes := by omega
    have mirrored : numBytes - 1 - (numBytes - 1 - place / 8) = place / 8 := by omega
    have word : place / 8 / 8 = place / 64 := Nat.div_div_eq_div_mul place 8 8
    have byte : ((nativeBytes numBytes native).map UInt8.toBitVec).reverse[place / 8]? =
        some ((native.getD (place / 64) 0#64 >>> (8 * (place / 8 % 8))).setWidth 8) := by
      rw [List.getElem?_reverse (by simpa using index), List.length_map, length_nativeBytes,
        List.getElem?_map, nativeBytes, List.getElem?_map, List.getElem?_range (by omega),
        Option.map_some, Option.map_some, mirrored]
      dsimp only
      rw [word]
    have shift : 8 * (place / 8 % 8) + place % 8 = place % 64 := by omega
    rw [byte, decide_eq_true inside, Bool.true_and, Option.getD_some, BitVec.getLsbD_setWidth,
      decide_eq_true (Nat.mod_lt place (by decide)), Bool.true_and, BitVec.getLsbD_ushiftRight,
      shift]
  · have outside : ((nativeBytes numBytes native).map UInt8.toBitVec).reverse[place / 8]? =
        none := by
      rw [List.getElem?_eq_none_iff, List.length_reverse, List.length_map, length_nativeBytes]
      omega
    rw [outside, decide_eq_false inside, Bool.false_and, Option.getD_none, BitVec.getLsbD_zero]

/-- Words whose number fits go through bytes unchanged. -/
theorem bytesNative_nativeBytes {numBytes : Nat} {native : Vli 64}
    (words : native.length = (numBytes + 7) / 8)
    (fits : Limbs.value native < 2 ^ (8 * numBytes)) :
    bytesNative (nativeBytes numBytes native) numBytes = native := by
  have length_eq := length_nativeBytes numBytes native
  obtain ⟨backLength, back⟩ := bytesNative_spec length_eq.ge
  apply Limbs.eq_of_value_eq (backLength.trans words.symm)
  rw [back, List.take_of_length_le length_eq.le, bytesValue_nativeBytes, Nat.mod_eq_of_lt fits]

/-- Bytes go through words unchanged. -/
theorem nativeBytes_bytesNative (bytes : List UInt8) :
    nativeBytes bytes.length (bytesNative bytes bytes.length) = bytes := by
  obtain ⟨readLength, read⟩ := @bytesNative_spec bytes bytes.length le_rfl
  apply eq_of_bytesValue_eq (length_nativeBytes _ _)
  rw [bytesValue_nativeBytes, read, List.take_length, Nat.mod_eq_of_lt (bytesValue_lt bytes)]

/-- The conversions are inverse to each other, between the byte strings of one length and the
numbers below the power of two that has no place in them. -/
theorem vliBytes_inverse {numBytes : Nat} (few : numBytes ≤ 127) :
    (∀ bytes : List UInt8, bytes.length = numBytes →
      ∃ native, vliBytesToNative bytes numBytes = .ok native ∧
        native.length = (numBytes + 7) / 8 ∧ Limbs.value native < 2 ^ (8 * numBytes) ∧
        vliNativeToBytes numBytes native = .ok bytes) ∧
      ∀ native : Vli 64, native.length = (numBytes + 7) / 8 →
        Limbs.value native < 2 ^ (8 * numBytes) →
        ∃ bytes, vliNativeToBytes numBytes native = .ok bytes ∧ bytes.length = numBytes ∧
          vliBytesToNative bytes numBytes = .ok native := by
  constructor
  · rintro bytes rfl
    obtain ⟨readLength, read⟩ := @bytesNative_spec bytes bytes.length le_rfl
    rw [List.take_length] at read
    refine ⟨_, vliBytesToNative_eq few le_rfl, readLength, read ▸ bytesValue_lt bytes, ?_⟩
    rw [vliNativeToBytes_eq few (by omega), nativeBytes_bytesNative bytes]
  · intro native words fits
    have length_eq := length_nativeBytes numBytes native
    refine ⟨_, vliNativeToBytes_eq few (by omega), length_eq, ?_⟩
    rw [vliBytesToNative_eq few length_eq.ge, bytesNative_nativeBytes words fits]

theorem vliBytes_inverse_nine :
    (∃ native, vliBytesToNative [1, 2, 3, 4, 5, 6, 7, 8, 9] 9 = .ok native ∧ native.length = 2 ∧
        vliNativeToBytes 9 native = .ok [1, 2, 3, 4, 5, 6, 7, 8, 9]) ∧
      ∃ bytes, vliNativeToBytes 9 [5#64, 255#64] = .ok bytes ∧
        vliBytesToNative bytes 9 = .ok [5#64, 255#64] := by
  obtain ⟨native, read, length_eq, _, written⟩ :=
    (@vliBytes_inverse 9 (by decide)).1 [1, 2, 3, 4, 5, 6, 7, 8, 9] rfl
  obtain ⟨bytes, stored, _, loaded⟩ :=
    (@vliBytes_inverse 9 (by decide)).2 [5#64, 255#64] rfl (by decide)
  exact ⟨⟨native, read, length_eq, written⟩, bytes, stored, loaded⟩

end Freecoin
