import Freecoin.Blocks
import Mathlib.Data.Nat.Digits.Defs
import Mathlib.Tactic.Linarith

/-!
# Little-endian big numbers

The arithmetic of `bignum.c` on byte arrays, least significant byte first, and the expansion of a
compact target.  A `bignum_t` is the list of its `size` bytes; an index the source computes is
checked wherever it can leave that list.
-/

namespace Freecoin

open Foundation

/-- The number a `bignum_t` stands for. -/
def bigValue (data : List UInt8) : Nat := Nat.ofDigits 256 (data.map UInt8.toNat)

/-- `big_uitobig`. -/
def bigUitobig (src : UInt32) (dst : List UInt8) : Run (List UInt8) := do
  let dst := List.replicate dst.length (0 : UInt8)
  let dst ← assign dst 0 (src &&& 0xff).toUInt8
  let dst ← assign dst 1 ((src >>> 8) &&& 0xff).toUInt8
  let dst ← assign dst 2 ((src >>> 16) &&& 0xff).toUInt8
  assign dst 3 ((src >>> 24) &&& 0xff).toUInt8

/-- The loop of `big_length` from index `i` down: it never looks at index 0. -/
def bigLengthLoop (data : List UInt8) : Nat → UInt32
  | 0 => 0
  | i + 1 => if data.getD (i + 1) 0 ≠ 0 then .ofNat (i + 2) else bigLengthLoop data i

/-- `big_length`: the index is the `int` of `size - 1`, and when that is negative it is returned as
it is. -/
def bigLength (data : List UInt8) : UInt32 :=
  let last : UInt32 := .ofNat data.length - 1
  if last.toInt32.toInt < 0 then last else bigLengthLoop data last.toNat

/-- The inner loop of `big_mult`, summing `count2` products into the accumulator. -/
def bigMultDigit (a b : List UInt8) (i1 i2 : UInt32) :
    (j remaining : Nat) → (t : UInt32) → Run UInt32
  | _, 0, t => .ok t
  | j, remaining + 1, t => do
      let x ← fetch a (i1 + .ofNat j).toNat
      let y ← fetch b (i2 - .ofNat j).toNat
      bigMultDigit a b i1 i2 (j + 1) remaining (t + x.toUInt32 * y.toUInt32)

/-- The outer loop of `big_mult`, one digit of the result for each iteration. -/
def bigMultLoop (a b : List UInt8) (alen blen : UInt32) :
    (i remaining : Nat) → (t : UInt32) → (res : List UInt8) → Run (List UInt8)
  | _, 0, _, res => .ok res
  | i, remaining + 1, t, res => do
      let i2 : UInt32 := if UInt32.ofNat i < blen - 1 then .ofNat i else blen - 1
      let i1 : UInt32 := .ofNat i - i2
      let count2 : UInt32 := if alen - i1 < i2 + 1 then alen - i1 else i2 + 1
      let t ← bigMultDigit a b i1 i2 0 count2.toNat t
      let res ← assign res i (t &&& 0xff).toUInt8
      bigMultLoop a b alen blen (i + 1) remaining (t >>> 8) res

/-- `big_mult`. -/
def bigMult (a b res : List UInt8) : Run (List UInt8) :=
  bigMultLoop a b (bigLength a) (bigLength b) 0 (bigLength a + bigLength b).toNat 0
    (List.replicate res.length 0)

/-- The loop of `big_div` from index `x` down to 0. -/
def bigDivLoop (a : List UInt8) (b : UInt32) :
    (x : Nat) → (temp : UInt16) → (res : List UInt8) → Run (List UInt8)
  | x, temp, res => do
      let digit ← fetch a x
      let temp := (temp <<< 8) ||| digit.toUInt16
      let quotient := (temp.toUInt32 / b).toUInt8
      let res ← assign res x quotient
      let temp := (temp.toUInt32 - quotient.toUInt32 * b).toUInt16
      match x with
      | 0 => .ok res
      | x + 1 => bigDivLoop a b x temp res

/-- `big_div`: the index is an 8-bit counter.  The last statement reads one byte of the result to
shorten a local copy of `a`, which changes nothing. -/
def bigDiv (a : List UInt8) (b : UInt32) (res : List UInt8) : Run (List UInt8) :=
  if b = 0 then .error .divisionByZero
  else do
    let last : UInt32 := .ofNat a.length - 1
    let res ← bigDivLoop a b last.toUInt8.toNat 0 (List.replicate res.length 0)
    let _ ← fetch res last.toNat
    return res

/-- The loop of `big_comp` from index `i` down: it never looks at index 0. -/
def bigCompLoop (a b : List UInt8) : Nat → Int
  | 0 => 0
  | i + 1 =>
      if a.getD (i + 1) 0 < b.getD (i + 1) 0 then -1
      else if a.getD (i + 1) 0 > b.getD (i + 1) 0 then 1
      else bigCompLoop a b i

/-- `big_comp`: the index is the `int` of `size - 1`, and when that is negative nothing is
compared. -/
def bigComp (a b : List UInt8) : Run Int :=
  if a.length ≠ b.length then
    .error (.fatal "Attempted to big_comp() different sized numbers")
  else
    .ok (bigCompLoop a b (UInt32.ofNat a.length - 1).toInt32.toInt.toNat)

/-- The loop of `big_add` over the bytes both numbers have, with the carry in `t`. -/
def bigAddLoop (a : List UInt8) :
    (i remaining : Nat) → (t : UInt32) → (b : List UInt8) → Run (UInt32 × List UInt8)
  | _, 0, t, b => .ok (t, b)
  | i, remaining + 1, t, b => do
      let x ← fetch a i
      let y ← fetch b i
      let t := t + (x.toUInt32 + y.toUInt32)
      let b ← assign b i (t &&& 0xff).toUInt8
      bigAddLoop a (i + 1) remaining (t >>> 8) b

/-- The loop of `big_add` that carries on through the longer number. -/
def bigCarryLoop : (i remaining : Nat) → (t : UInt32) → (b : List UInt8) → Run (List UInt8)
  | _, 0, _, b => .ok b
  | i, remaining + 1, t, b =>
      if t = 0 then .ok b
      else do
        let y ← fetch b i
        let t := t + y.toUInt32
        let b ← assign b i (t &&& 0xff).toUInt8
        bigCarryLoop (i + 1) remaining (t >>> 8) b

/-- `big_add`, with a budget for the calls that swap the operands: what the two numbers hold
afterwards. -/
def bigAdd : (fuel : Nat) → (a b : List UInt8) → Run (List UInt8 × List UInt8)
  | 0, _, _ => .error .outOfFuel
  | fuel + 1, a, b => do
      if (← bigComp a b) > 0 then
        let (b, a) ← bigAdd fuel b a
        let b ← readOut b.length a
        return (a, b)
      else
        let alen := bigLength a
        let blen := bigLength b
        let count := if alen < blen then alen else blen
        let (t, b) ← bigAddLoop a 0 count.toNat 0 b
        let b ← bigCarryLoop count.toNat (blen.toNat - count.toNat) t b
        return (a, b)

/-- `target_to_btarget`: one byte of the destination is assigned and the others are left as they
are. -/
def targetToBtarget (target : Target) (btarget : List UInt8) : Run (List UInt8) :=
  if btarget.length ≠ 32 then
    .error (.fatal "Attempted to store btarget in a bignum of a size other than 32 bytes")
  else
    match target.exponent.toNat with
    | 0 => .error .outOfBounds
    | index + 1 => assign btarget index target.mantissa

/-- The loop of `btarget_to_target` from index `i` down: it stops at a zero byte. -/
def btargetToTargetLoop (btarget : List UInt8) (target : Target) : Nat → Target
  | 0 => target
  | i + 1 =>
      if btarget.getD (i + 1) 0 = 0 then
        { mantissa := btarget.getD (i + 1) 0, exponent := .ofNat (i + 2) }
      else
        btargetToTargetLoop btarget target i

/-- `btarget_to_target`: the destination keeps its content when no zero byte is found. -/
def btargetToTarget (btarget : List UInt8) (target : Target) : Run Target :=
  if btarget.length ≠ 32 then
    .error (.fatal "Attempted to extract target from a bignum of a size other than 32 bytes")
  else
    .ok (btargetToTargetLoop btarget target 31)

/-! ## Values -/

@[simp] theorem bigValue_nil : bigValue [] = 0 := rfl

@[simp] theorem bigValue_cons (byte : UInt8) (data : List UInt8) :
    bigValue (byte :: data) = byte.toNat + 256 * bigValue data := by
  simp [bigValue, Nat.ofDigits_cons]

theorem bigValue_append (low high : List UInt8) :
    bigValue (low ++ high) = bigValue low + 256 ^ low.length * bigValue high := by
  simp [bigValue, Nat.ofDigits_append]

theorem bigValue_lt (data : List UInt8) : bigValue data < 256 ^ data.length := by
  have bounded : ∀ digit ∈ data.map UInt8.toNat, digit < 256 := by
    intro digit member
    obtain ⟨byte, _, rfl⟩ := List.mem_map.mp member
    exact byte.toNat_lt
  simpa [bigValue] using Nat.ofDigits_lt_base_pow_length (by decide) bounded

/-- Dropping the lowest byte divides by 256. -/
theorem bigValue_tail (data : List UInt8) : bigValue data.tail = bigValue data / 256 := by
  cases data with
  | nil => rfl
  | cons byte data =>
      have bounded := byte.toNat_lt
      rw [List.tail_cons, bigValue_cons]
      omega

theorem bigValue_injective {left right : List UInt8} (length_eq : left.length = right.length)
    (value_eq : bigValue left = bigValue right) : left = right := by
  induction left generalizing right with
  | nil => exact (List.length_eq_zero_iff.mp length_eq.symm).symm
  | cons byte left ih =>
      cases right with
      | nil => simp at length_eq
      | cons other right =>
          have bounded := byte.toNat_lt
          have otherBounded := other.toNat_lt
          rw [bigValue_cons, bigValue_cons] at value_eq
          have bytes : byte = other := UInt8.toNat_inj.mp (by omega)
          rw [bytes, ih (by simpa using length_eq) (by omega)]

/-- Assigning a byte replaces its contribution to the value. -/
theorem bigValue_set {data : List UInt8} {index : Nat} (byte : UInt8)
    (inside : index < data.length) :
    bigValue (data.set index byte) + data[index].toNat * 256 ^ index =
      bigValue data + byte.toNat * 256 ^ index := by
  induction data generalizing index with
  | nil => simp at inside
  | cons first data ih =>
      cases index with
      | zero =>
          simp only [List.set_cons_zero, List.getElem_cons_zero, bigValue_cons]
          ring
      | succ index =>
          have rest := ih (Nat.lt_of_succ_lt_succ inside)
          simp only [List.set_cons_succ, List.getElem_cons_succ, bigValue_cons, pow_succ]
          linarith

theorem bigValue_replicate_zero (count : Nat) : bigValue (List.replicate count 0) = 0 := by
  induction count with
  | zero => rfl
  | succ count ih => simp [List.replicate_succ, ih]

/-- The value of a number is at least what any one of its bytes contributes. -/
theorem le_bigValue_set {data : List UInt8} {index : Nat} (byte : UInt8)
    (inside : index < data.length) : byte.toNat * 256 ^ index ≤ bigValue (data.set index byte) := by
  have zeroed := bigValue_set 0 inside
  have replaced := bigValue_set byte inside
  simp only [UInt8.toNat_zero, Nat.zero_mul, Nat.add_zero] at zeroed
  omega

theorem bigValue_take_succ {data : List UInt8} {i : Nat} (inside : i < data.length) :
    bigValue (data.take (i + 1)) = bigValue (data.take i) + data[i].toNat * 256 ^ i := by
  rw [List.take_succ_eq_append_getElem inside, bigValue_append,
    List.length_take_of_le (Nat.le_of_lt inside), bigValue_cons, bigValue_nil]
  ring

theorem bigValue_take_lt (data : List UInt8) (i : Nat) : bigValue (data.take i) < 256 ^ i :=
  lt_of_lt_of_le (bigValue_lt _)
    (Nat.pow_le_pow_right (by decide) (List.length_take_le i data))

/-- A number is split at any of its bytes. -/
theorem bigValue_split {data : List UInt8} {n : Nat} (inside : n ≤ data.length) :
    bigValue data = bigValue (data.take n) + 256 ^ n * bigValue (data.drop n) := by
  conv_lhs => rw [← List.take_append_drop n data]
  rw [bigValue_append, List.length_take_of_le inside]

/-! ## Digits and carries -/

theorem toNat_lowByte (t : UInt32) : (t &&& 0xff).toUInt8.toNat = t.toNat % 256 := by
  rw [UInt32.toNat_toUInt8, UInt32.toNat_and]
  change (t.toNat &&& (2 ^ 8 - 1)) % 2 ^ 8 = _
  rw [Nat.and_two_pow_sub_one_eq_mod, Nat.mod_mod]

theorem toNat_carry (t : UInt32) : (t >>> 8).toNat = t.toNat / 256 := by
  rw [UInt32.toNat_shiftRight]
  change t.toNat >>> 8 = _
  rw [Nat.shiftRight_eq_div_pow]

theorem toNat_ite_lt (left right : UInt32) :
    (if left < right then left else right).toNat = min left.toNat right.toNat := by
  split
  · rename_i less
    rw [UInt32.lt_iff_toNat_lt] at less
    omega
  · rename_i more
    rw [UInt32.lt_iff_toNat_lt] at more
    omega

/-- Storing the low byte of a sum and keeping the rest as the carry loses nothing. -/
theorem bigValue_set_lowByte {data : List UInt8} {index : Nat} (t : UInt32)
    (inside : index < data.length) :
    bigValue (data.set index (t &&& 0xff).toUInt8) + data[index].toNat * 256 ^ index +
        (t >>> 8).toNat * 256 ^ (index + 1) =
      bigValue data + t.toNat * 256 ^ index := by
  have replaced := bigValue_set (t &&& 0xff).toUInt8 inside
  have whole := Nat.mod_add_div t.toNat 256
  rw [toNat_lowByte] at replaced
  rw [replaced, toNat_carry]
  calc bigValue data + t.toNat % 256 * 256 ^ index + t.toNat / 256 * 256 ^ (index + 1)
      = bigValue data + (t.toNat % 256 + 256 * (t.toNat / 256)) * 256 ^ index := by ring
    _ = bigValue data + t.toNat * 256 ^ index := by rw [whole]

/-! ## The last index -/

theorem toInt_toInt32_of_lt {value : UInt32} (small : value.toNat < 2 ^ 31) :
    value.toInt32.toInt = value.toNat := by
  have positive : 2 * value.toBitVec.toNat < 2 ^ 32 := by
    change 2 * value.toNat < 2 ^ 32
    omega
  exact BitVec.toInt_eq_toNat_of_lt positive

theorem toInt_toInt32_of_le {value : UInt32} (large : 2 ^ 31 ≤ value.toNat) :
    value.toInt32.toInt < 0 := by
  have negative : ¬ 2 * value.toBitVec.toNat < 2 ^ 32 := by
    change ¬ 2 * value.toNat < 2 ^ 32
    omega
  have bound := value.toNat_lt
  change value.toBitVec.toInt < 0
  rw [BitVec.toInt_eq_toNat_cond, if_neg negative]
  change (value.toNat : Int) - _ < 0
  omega

theorem toNat_lastIndex {size : Nat} (positive : 1 ≤ size) (sized : size < 2 ^ 32) :
    (UInt32.ofNat size - 1).toNat = size - 1 := by
  have size_eq : (UInt32.ofNat size).toNat = size :=
    toNat_ofNat_of_lt (by omega)
  rw [UInt32.toNat_sub, size_eq, UInt32.toNat_one]
  omega

/-- Up to 2^31 bytes the loops start at the last one. -/
theorem toInt_lastIndex {size : Nat} (positive : 1 ≤ size) (small : size ≤ 2 ^ 31) :
    (UInt32.ofNat size - 1).toInt32.toInt = (size - 1 : Nat) := by
  have last := toNat_lastIndex positive (by omega)
  rw [toInt_toInt32_of_lt (by omega), last]

/-- Beyond that they do not start. -/
theorem toInt_lastIndex_neg {size : Nat} (large : 2 ^ 31 < size) (sized : size < 2 ^ 32) :
    (UInt32.ofNat size - 1).toInt32.toInt < 0 := by
  have last := toNat_lastIndex (by omega) sized
  exact toInt_toInt32_of_le (by omega)

theorem bigLength_eq {data : List UInt8} (nonempty : 1 ≤ data.length)
    (small : data.length ≤ 2 ^ 31) : bigLength data = bigLengthLoop data (data.length - 1) := by
  simp only [bigLength, toInt_lastIndex nonempty small, toNat_lastIndex nonempty
    (show data.length < 2 ^ 32 by omega)]
  rw [if_neg (by omega)]

theorem bigComp_eq {a b : List UInt8} (length_eq : a.length = b.length) (nonempty : 1 ≤ a.length)
    (small : a.length ≤ 2 ^ 31) : bigComp a b = .ok (bigCompLoop a b (a.length - 1)) := by
  rw [bigComp, if_neg (not_not.mpr length_eq), toInt_lastIndex nonempty small, Int.toNat_natCast]

/-! ## The window of a digit -/

/-- The digits that `big_mult` multiplies for digit `i` of the product: none of the unsigned
expressions for them wraps. -/
theorem toNat_multWindow {alen blen : UInt32} {i : Nat} (positive : 1 ≤ blen.toNat)
    (small : alen.toNat + blen.toNat < 2 ^ 31) (before : i < alen.toNat + blen.toNat) :
    let i2 : UInt32 := if UInt32.ofNat i < blen - 1 then .ofNat i else blen - 1
    let i1 : UInt32 := .ofNat i - i2
    let count2 : UInt32 := if alen - i1 < i2 + 1 then alen - i1 else i2 + 1
    i2.toNat = min i (blen.toNat - 1) ∧ i1.toNat = i - min i (blen.toNat - 1) ∧
      count2.toNat = min (alen.toNat - i1.toNat) (i2.toNat + 1) := by
  intro i2 i1 count2
  have index : (UInt32.ofNat i).toNat = i := toNat_ofNat_of_lt (by omega)
  have last : (blen - 1).toNat = blen.toNat - 1 := by
    rw [UInt32.toNat_sub, UInt32.toNat_one]
    omega
  have i2_eq : i2.toNat = min i (blen.toNat - 1) := by
    rw [toNat_ite_lt, index, last]
  have i1_eq : i1.toNat = i - min i (blen.toNat - 1) := by
    simp only [i1]
    rw [UInt32.toNat_sub, index, i2_eq]
    omega
  have rest_eq : (alen - i1).toNat = alen.toNat - i1.toNat := by
    rw [UInt32.toNat_sub]
    omega
  have next_eq : (i2 + 1).toNat = i2.toNat + 1 := by
    rw [UInt32.toNat_add, UInt32.toNat_one]
    omega
  refine ⟨i2_eq, i1_eq, ?_⟩
  rw [toNat_ite_lt, rest_eq, next_eq]

/-! ## Comparison -/

/-- The loop of `big_comp` orders the numbers without their lowest bytes. -/
theorem bigCompLoop_spec {a b : List UInt8} {i : Nat} (insideA : i < a.length)
    (insideB : i < b.length) :
    (bigCompLoop a b i < 0 ↔ bigValue (a.tail.take i) < bigValue (b.tail.take i)) ∧
      (0 < bigCompLoop a b i ↔ bigValue (b.tail.take i) < bigValue (a.tail.take i)) := by
  induction i with
  | zero => simp [bigCompLoop]
  | succ i ih =>
      obtain ⟨below, above⟩ := ih (by omega) (by omega)
      have lowA := bigValue_take_lt a.tail i
      have lowB := bigValue_take_lt b.tail i
      have step : ∀ {data : List UInt8}, i + 1 < data.length → bigValue (data.tail.take (i + 1)) =
          bigValue (data.tail.take i) + 256 ^ i * (data.getD (i + 1) 0).toNat := by
        intro data inside
        have within : i < data.tail.length := by
          rw [List.length_tail]
          omega
        rw [bigValue_take_succ within, List.getElem_tail, Nat.mul_comm]
        simp [inside]
      rw [step insideA, step insideB, bigCompLoop]
      simp only [UInt8.lt_iff_toNat_lt]
      set x := (a.getD (i + 1) 0).toNat
      set y := (b.getD (i + 1) 0).toNat
      rcases Nat.lt_trichotomy x y with less | equal | greater
      · have step : 256 ^ i * (x + 1) ≤ 256 ^ i * y := Nat.mul_le_mul_left _ less
        rw [Nat.mul_add, Nat.mul_one] at step
        simp only [less, if_true]
        constructor <;> constructor <;> intro _ <;> omega
      · simp only [equal, lt_irrefl, if_false]
        constructor
        · rw [below]
          omega
        · rw [above]
          omega
      · have step : 256 ^ i * (y + 1) ≤ 256 ^ i * x := Nat.mul_le_mul_left _ greater
        rw [Nat.mul_add, Nat.mul_one] at step
        simp only [Nat.not_lt.mpr (Nat.le_of_lt greater), greater, if_true, if_false]
        constructor <;> constructor <;> intro _ <;> omega

/-- Up to 2^31 bytes, `big_comp` orders the numbers without their lowest bytes. -/
theorem exists_bigComp {a b : List UInt8} (length_eq : a.length = b.length)
    (nonempty : 1 ≤ a.length) (small : a.length ≤ 2 ^ 31) :
    ∃ order, bigComp a b = .ok order ∧ (order < 0 ↔ bigValue a / 256 < bigValue b / 256) ∧
      (0 < order ↔ bigValue b / 256 < bigValue a / 256) := by
  refine ⟨_, bigComp_eq length_eq nonempty small, ?_⟩
  have spec := bigCompLoop_spec (show a.length - 1 < a.length by omega)
    (show a.length - 1 < b.length by omega)
  have wholeA : a.tail.take (a.length - 1) = a.tail := by
    rw [← List.length_tail, List.take_length]
  have wholeB : b.tail.take (a.length - 1) = b.tail := by
    rw [length_eq, ← List.length_tail, List.take_length]
  rwa [wholeA, wholeB, bigValue_tail, bigValue_tail] at spec

/-- Beyond that it compares nothing. -/
theorem bigComp_of_large {a b : List UInt8} (length_eq : a.length = b.length)
    (large : 2 ^ 31 < a.length) (sized : a.length < 2 ^ 32) : bigComp a b = .ok 0 := by
  have negative := toInt_lastIndex_neg large sized
  rw [bigComp, if_neg (not_not.mpr length_eq), Int.toNat_of_nonpos (Int.le_of_lt negative)]
  rfl

/-! ## Target expansion -/

/-- Expanding a target sets one byte. -/
theorem targetToBtarget_eq {target : Target} {btarget : List UInt8} (size_eq : btarget.length = 32)
    (low : 1 ≤ target.exponent.toNat) (high : target.exponent.toNat ≤ 32) :
    targetToBtarget target btarget =
      .ok (btarget.set (target.exponent.toNat - 1) target.mantissa) := by
  obtain ⟨index, exponent_eq⟩ := Nat.exists_eq_succ_of_ne_zero (Nat.one_le_iff_ne_zero.mp low)
  rw [targetToBtarget, if_neg (by omega), exponent_eq]
  simp only [Nat.succ_eq_add_one, Nat.add_sub_cancel]
  rw [assign_of_lt (by omega)]

end Freecoin
