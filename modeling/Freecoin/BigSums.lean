import Freecoin.Bignum
import Mathlib.Data.Nat.Log
import Mathlib.Order.Bounds.Defs

/-!
# Comparing and adding big numbers

The loops of `big_comp` and `big_length` stop before the lowest byte.  So numbers that differ in
that byte only compare as equal, and a number of one byte has length 0: `big_add` then adds nothing.
Where it does add, it carries no further than the longer of the two numbers.
-/

namespace Freecoin

open Foundation

/-- A `bignum_t`: its bytes, as many as its `uint32_t` size says. -/
structure Bignum where
  data : List UInt8
  sized : data.length < 2 ^ 32

/-- The number it stands for. -/
def Bignum.value (a : Bignum) : Nat := bigValue a.data

/-! ## Comparison -/

/-- `big_comp` returns the order of the two numbers. -/
def ComparesValues (a b : Bignum) : Prop :=
  ∃ order, bigComp a.data b.data = .ok order ∧ (order < 0 ↔ a.value < b.value) ∧
    (order = 0 ↔ a.value = b.value) ∧ (0 < order ↔ b.value < a.value)

/-- `big_comp` returns the order of two numbers of one size exactly if they are equal, or if they
differ above the lowest byte and an `int` can count their bytes. -/
theorem comparesValues_iff (a b : Bignum) (length_eq : a.data.length = b.data.length)
    (nonempty : 1 ≤ a.data.length) :
    ComparesValues a b ↔
      a.value = b.value ∨ (a.data.length ≤ 2 ^ 31 ∧ a.value / 256 ≠ b.value / 256) := by
  rcases Nat.lt_or_ge (2 ^ 31) a.data.length with large | small
  · have compared := bigComp_of_large length_eq large a.sized
    constructor
    · rintro ⟨order, returned, _, equal_iff, _⟩
      rw [compared] at returned
      exact Or.inl (equal_iff.mp (Except.ok.inj returned).symm)
    · rintro (equal | ⟨small, _⟩)
      · refine ⟨0, compared, ?_, ?_, ?_⟩
        · rw [equal]
          simp
        · exact iff_of_true rfl equal
        · rw [equal]
          simp
      · omega
  · obtain ⟨order, compared, less, greater⟩ := exists_bigComp length_eq nonempty small
    constructor
    · rintro ⟨returned, same, _, equal_iff, _⟩
      obtain rfl := Except.ok.inj (compared.symm.trans same)
      by_cases equal : order = 0
      · exact Or.inl (equal_iff.mp equal)
      · refine Or.inr ⟨small, fun tie => equal ?_⟩
        change bigValue a.data / 256 = bigValue b.data / 256 at tie
        omega
    · intro decided
      refine ⟨order, compared, ?_⟩
      simp only [Bignum.value] at decided ⊢
      omega

/-- Numbers that differ above the lowest byte are compared. -/
theorem comparesValues_high :
    ComparesValues ⟨[0, 1], by decide⟩ ⟨[0, 2], by decide⟩ :=
  (comparesValues_iff ⟨[0, 1], by decide⟩ ⟨[0, 2], by decide⟩ rfl (by decide)).mpr
    (Or.inr ⟨by decide, by decide⟩)

/-- The numbers 1 and 2 compare as equal. -/
theorem not_comparesValues_low :
    ¬ ComparesValues ⟨[1, 0], by decide⟩ ⟨[2, 0], by decide⟩ := by
  rintro ⟨order, compared, _, equal_iff, _⟩
  have zero : order = 0 := (Except.ok.inj compared).symm
  exact absurd (equal_iff.mp zero) (by decide)

/-! ## Lengths -/

/-- The bytes that `big_length` counts of a number: none of a single one. -/
def countedBytes (value : Nat) : Nat := if value < 256 then 0 else Nat.log 256 value + 1

theorem bigLengthLoop_eq {data : List UInt8} {i : Nat} (inside : i < data.length)
    (small : i < 2 ^ 31) :
    (bigLengthLoop data i).toNat = countedBytes (bigValue (data.take (i + 1))) := by
  induction i with
  | zero =>
      have low := bigValue_take_lt data 1
      rw [Nat.pow_one] at low
      rw [countedBytes, if_pos low]
      rfl
  | succ i ih =>
      have byte : data.getD (i + 1) 0 = data[i + 1] := by simp [inside]
      rw [bigLengthLoop, bigValue_take_succ inside, byte]
      by_cases zero : data[i + 1] = 0
      · rw [if_neg (not_not.mpr zero), ih (by omega) (by omega), zero]
        simp
      · rw [if_pos zero, toNat_ofNat_of_lt (by omega)]
        have positive : 1 ≤ data[i + 1].toNat := toNat_pos_of_ne_zero zero
        have bound := data[i + 1].toNat_lt
        have rest := bigValue_take_lt data (i + 1)
        have atLeast : 256 ^ (i + 1) ≤
            bigValue (data.take (i + 1)) + data[i + 1].toNat * 256 ^ (i + 1) := by
          nlinarith
        have below : bigValue (data.take (i + 1)) + data[i + 1].toNat * 256 ^ (i + 1) <
            256 ^ (i + 1 + 1) := by
          rw [Nat.pow_succ 256 (i + 1)]
          nlinarith
        have wide : 256 ≤ 256 ^ (i + 1) := Nat.le_self_pow (by omega) 256
        rw [countedBytes, if_neg (by omega), Nat.log_eq_of_pow_le_of_lt_pow atLeast below]

theorem toNat_bigLength {data : List UInt8} (nonempty : 1 ≤ data.length)
    (small : data.length ≤ 2 ^ 31) : (bigLength data).toNat = countedBytes (bigValue data) := by
  rw [bigLength_eq nonempty small, bigLengthLoop_eq (by omega) (by omega),
    Nat.sub_add_cancel nonempty, List.take_length]

/-- Beyond 2^31 bytes all but the last one count. -/
theorem toNat_bigLength_of_large {data : List UInt8} (large : 2 ^ 31 < data.length)
    (sized : data.length < 2 ^ 32) : (bigLength data).toNat = data.length - 1 := by
  have negative := toInt_lastIndex_neg large sized
  simp only [bigLength, if_pos negative]
  exact toNat_lastIndex (by omega) sized

/-! ## Addition -/

/-- The loop adds its bytes of `a`, leaves the bytes behind them alone and ends with the carry. -/
theorem bigAddLoop_spec {a b : List UInt8} {i remaining : Nat} {t : UInt32} (carry : t.toNat ≤ 1)
    (insideA : i + remaining ≤ a.length) (insideB : i + remaining ≤ b.length) :
    ∃ rest sum, bigAddLoop a i remaining t b = .ok (rest, sum) ∧ rest.toNat ≤ 1 ∧
      sum.length = b.length ∧ sum.drop (i + remaining) = b.drop (i + remaining) ∧
      bigValue sum + rest.toNat * 256 ^ (i + remaining) + bigValue (a.take i) =
        bigValue b + t.toNat * 256 ^ i + bigValue (a.take (i + remaining)) := by
  induction remaining generalizing i t b with
  | zero => exact ⟨t, b, rfl, carry, rfl, rfl, rfl⟩
  | succ remaining ih =>
      have withinA : i < a.length := by omega
      have withinB : i < b.length := by omega
      have boundA := a[i].toNat_lt
      have boundB := b[i].toNat_lt
      set s : UInt32 := t + (a[i].toUInt32 + b[i].toUInt32)
      have s_eq : s.toNat = t.toNat + (a[i].toNat + b[i].toNat) := by
        simp only [s, UInt32.toNat_add, UInt8.toNat_toUInt32]
        omega
      have digit := bigValue_set_lowByte s withinB
      obtain ⟨rest, sum, added, small, length_eq, behind, value⟩ :=
        ih (i := i + 1) (t := s >>> 8) (b := b.set i (s &&& 0xff).toUInt8)
          (by rw [toNat_carry]; omega) (by omega) (by rw [List.length_set]; omega)
      have front := bigValue_take_succ withinA
      rw [List.length_set] at length_eq
      rw [show i + 1 + remaining = i + (remaining + 1) by omega] at behind value
      rw [List.drop_set_of_lt (by omega)] at behind
      refine ⟨rest, sum, ?_, small, length_eq, behind, ?_⟩
      · rw [bigAddLoop, fetch_of_lt withinA, Run.ok_bind, fetch_of_lt withinB, Run.ok_bind]
        simp only [assign_of_lt withinB, Run.ok_bind]
        exact added
      · rw [s_eq, Nat.add_mul, Nat.add_mul] at digit
        omega

/-- The carry runs on through `remaining` bytes, and may be left over behind them. -/
theorem bigCarryLoop_spec {b : List UInt8} {i remaining : Nat} {t : UInt32} (carry : t.toNat ≤ 1)
    (inside : i + remaining ≤ b.length) :
    ∃ sum lost, bigCarryLoop i remaining t b = .ok sum ∧ sum.length = b.length ∧
      sum.drop (i + remaining) = b.drop (i + remaining) ∧
      bigValue sum + lost * 256 ^ (i + remaining) = bigValue b + t.toNat * 256 ^ i := by
  induction remaining generalizing i t b with
  | zero => exact ⟨b, t.toNat, rfl, rfl, rfl, rfl⟩
  | succ remaining ih =>
      by_cases none : t = 0
      · refine ⟨b, 0, ?_, rfl, rfl, by simp [none]⟩
        rw [bigCarryLoop, if_pos none]
      · have within : i < b.length := by omega
        have bound := b[i].toNat_lt
        set s : UInt32 := t + b[i].toUInt32
        have s_eq : s.toNat = t.toNat + b[i].toNat := by
          simp only [s, UInt32.toNat_add, UInt8.toNat_toUInt32]
          omega
        have digit := bigValue_set_lowByte s within
        obtain ⟨sum, lost, added, length_eq, behind, value⟩ :=
          ih (i := i + 1) (t := s >>> 8) (b := b.set i (s &&& 0xff).toUInt8)
            (by rw [toNat_carry]; omega) (by rw [List.length_set]; omega)
        rw [List.length_set] at length_eq
        rw [show i + 1 + remaining = i + (remaining + 1) by omega] at behind value
        rw [List.drop_set_of_lt (by omega)] at behind
        refine ⟨sum, lost, ?_, length_eq, behind, ?_⟩
        · rw [bigCarryLoop, if_neg none, fetch_of_lt within, Run.ok_bind]
          simp only [assign_of_lt within, Run.ok_bind]
          exact added
        · rw [s_eq, Nat.add_mul] at digit
          omega

/-- The two loops together: the sum is exact if `count` bytes are all there is of `a` and the sum
does not carry out of `blen` bytes. -/
theorem exists_bigSum {a b : List UInt8} {count blen : Nat} (shorter : count ≤ blen)
    (insideA : blen ≤ a.length) (insideB : blen ≤ b.length) :
    ∃ rest low sum, bigAddLoop a 0 count 0 b = .ok (rest, low) ∧
      bigCarryLoop count (blen - count) rest low = .ok sum ∧ sum.length = b.length ∧
      (bigValue sum = bigValue a + bigValue b ↔
        bigValue (a.take count) = bigValue a ∧
          bigValue (b.take blen) + bigValue a < 256 ^ blen) := by
  obtain ⟨rest, low, added, carry, lowLength, lowBehind, lowValue⟩ :=
    bigAddLoop_spec (a := a) (b := b) (i := 0) (t := 0) (by decide)
      (show 0 + count ≤ a.length by omega) (by omega)
  obtain ⟨sum, lost, carried, sumLength, sumBehind, sumValue⟩ :=
    bigCarryLoop_spec (b := low) (i := count) carry
      (show count + (blen - count) ≤ low.length by omega)
  refine ⟨rest, low, sum, added, carried, sumLength.trans lowLength, ?_⟩
  simp only [Nat.add_sub_cancel' shorter, Nat.zero_add, List.take_zero, bigValue_nil,
    UInt32.toNat_zero, Nat.zero_mul, Nat.add_zero] at lowBehind lowValue sumBehind sumValue
  have behind : sum.drop blen = b.drop blen := by
    have dropped := congrArg (List.drop (blen - count)) lowBehind
    rw [List.drop_drop, List.drop_drop, Nat.add_sub_cancel' shorter] at dropped
    exact sumBehind.trans dropped
  have sumSplit : bigValue sum = bigValue (sum.take blen) + 256 ^ blen * bigValue (sum.drop blen) :=
    bigValue_split (by omega)
  have oldSplit := bigValue_split insideB
  have frontSplit : bigValue a = bigValue (a.take count) + 256 ^ count * bigValue (a.drop count) :=
    bigValue_split (by omega)
  have bounded := bigValue_take_lt sum blen
  rw [behind] at sumSplit
  rcases Nat.eq_zero_or_pos lost with none | some
  · rw [none, Nat.zero_mul, Nat.add_zero] at sumValue
    constructor
    · intro exact
      constructor
      · omega
      · omega
    · intro ⟨whole, _⟩
      omega
  · have more : 256 ^ blen ≤ lost * 256 ^ blen := Nat.le_mul_of_pos_left _ some
    have positive : 0 < 256 ^ blen := Nat.pow_pos (by decide)
    refine iff_of_false (fun exact => ?_) (fun ⟨whole, fits⟩ => ?_)
    · omega
    · omega

/-- A number below a power of 256 has nothing in the bytes from there on. -/
theorem bigValue_take_of_lt {data : List UInt8} {n : Nat} (small : bigValue data < 256 ^ n) :
    bigValue (data.take n) = bigValue data := by
  rcases Nat.le_total n data.length with inside | beyond
  · have split := bigValue_split inside
    rcases Nat.eq_zero_or_pos (bigValue (data.drop n)) with none | some
    · rw [none, Nat.mul_zero, Nat.add_zero] at split
      exact split.symm
    · have more : 256 ^ n ≤ 256 ^ n * bigValue (data.drop n) := Nat.le_mul_of_pos_right _ some
      omega
  · rw [List.take_of_length_le beyond]

theorem lt_pow_countedBytes {value : Nat} (wide : 256 ≤ value) :
    value < 256 ^ countedBytes value := by
  rw [countedBytes, if_neg (Nat.not_lt.mpr wide)]
  exact Nat.lt_pow_succ_log_self (by decide) value

theorem countedBytes_le {value n : Nat} (small : value < 256 ^ n) : countedBytes value ≤ n := by
  rw [countedBytes]
  split
  · exact Nat.zero_le n
  · exact Nat.log_lt_of_lt_pow (by omega) small

/-- Numbers that are ordered without their lowest bytes are ordered by their lengths. -/
theorem log_max_of_div_le {left right : Nat} (wide : 256 ≤ left)
    (ordered : left / 256 ≤ right / 256) :
    Nat.log 256 (max left right) = Nat.log 256 right := by
  rcases Nat.le_total left right with less | greater
  · rw [Nat.max_eq_right less]
  · have tie : left / 256 = right / 256 :=
      Nat.le_antisymm ordered (Nat.div_le_div_right greater)
    rw [Nat.max_eq_left greater, Nat.log_of_one_lt_of_le (by decide) wide, tie,
      Nat.log_of_one_lt_of_le (by decide) (show 256 ≤ right by omega)]

/-- What the loops need, in terms of the two numbers. -/
theorem sum_exact_iff {a b : List UInt8} (ordered : bigValue a / 256 ≤ bigValue b / 256) :
    (bigValue (a.take (min (countedBytes (bigValue a)) (countedBytes (bigValue b)))) = bigValue a ∧
        bigValue (b.take (countedBytes (bigValue b))) + bigValue a <
          256 ^ countedBytes (bigValue b)) ↔
      bigValue a = 0 ∨ (256 ≤ bigValue a ∧
        bigValue a + bigValue b < 256 ^ (Nat.log 256 (bigValue b) + 1)) := by
  rcases Nat.lt_or_ge (bigValue a) 256 with single | wide
  · have none : countedBytes (bigValue a) = 0 := if_pos single
    rw [none, Nat.zero_min, List.take_zero, bigValue_nil]
    constructor
    · rintro ⟨zero, _⟩
      exact Or.inl zero.symm
    · rintro (zero | ⟨wide, _⟩)
      · rw [zero, Nat.add_zero]
        exact ⟨rfl, bigValue_take_lt b _⟩
      · omega
  · have wideB : 256 ≤ bigValue b := by omega
    have lengthA : countedBytes (bigValue a) = Nat.log 256 (bigValue a) + 1 := if_neg (by omega)
    have lengthB : countedBytes (bigValue b) = Nat.log 256 (bigValue b) + 1 := if_neg (by omega)
    have monotone : Nat.log 256 (bigValue a / 256) ≤ Nat.log 256 (bigValue b / 256) :=
      Nat.log_mono_right ordered
    have shorter : countedBytes (bigValue a) ≤ countedBytes (bigValue b) := by
      rw [lengthA, lengthB, Nat.log_of_one_lt_of_le (by decide) wide,
        Nat.log_of_one_lt_of_le (by decide) wideB]
      omega
    rw [Nat.min_eq_left shorter, bigValue_take_of_lt (lt_pow_countedBytes wide),
      bigValue_take_of_lt (lt_pow_countedBytes wideB), lengthB]
    constructor
    · rintro ⟨_, fits⟩
      exact Or.inr ⟨wide, by omega⟩
    · rintro (zero | ⟨_, fits⟩)
      · omega
      · exact ⟨rfl, by omega⟩

/-- Without a swap the first number is kept and the second one holds the sum. -/
theorem exists_bigAdd_of_le {a b : List UInt8} {order : Int} (compared : bigComp a b = .ok order)
    (ordered : order ≤ 0) (insideA : (bigLength b).toNat ≤ a.length)
    (insideB : (bigLength b).toNat ≤ b.length) :
    ∃ sum, (∀ fuel, 1 ≤ fuel → bigAdd fuel a b = .ok (a, sum)) ∧ sum.length = b.length ∧
      (bigValue sum = bigValue a + bigValue b ↔
        bigValue (a.take (min (bigLength a).toNat (bigLength b).toNat)) = bigValue a ∧
          bigValue (b.take (bigLength b).toNat) + bigValue a < 256 ^ (bigLength b).toNat) := by
  obtain ⟨rest, low, sum, added, carried, length_eq, exact_iff⟩ :=
    exists_bigSum (Nat.min_le_right (bigLength a).toNat (bigLength b).toNat) insideA insideB
  refine ⟨sum, fun fuel enough => ?_, length_eq, exact_iff⟩
  obtain ⟨fuel, rfl⟩ := Nat.exists_eq_add_of_le' enough
  rw [bigAdd, compared, Run.ok_bind, if_neg (by omega)]
  simp only [toNat_ite_lt, added, carried, Run.ok_bind, Run.pure_eq_ok]

/-- After a swap both numbers hold the sum. -/
theorem exists_bigAdd_of_gt {a b : List UInt8} {order reverse : Int}
    (compared : bigComp a b = .ok order) (swapped : bigComp b a = .ok reverse)
    (greater : 0 < order) (ordered : reverse ≤ 0) (length_eq : a.length = b.length)
    (insideA : (bigLength a).toNat ≤ a.length) :
    ∃ sum, (∀ fuel, 2 ≤ fuel → bigAdd fuel a b = .ok (sum, sum)) ∧
      (bigValue sum = bigValue b + bigValue a ↔
        bigValue (b.take (min (bigLength b).toNat (bigLength a).toNat)) = bigValue b ∧
          bigValue (a.take (bigLength a).toNat) + bigValue b < 256 ^ (bigLength a).toNat) := by
  obtain ⟨sum, added, sumLength, exact_iff⟩ :=
    exists_bigAdd_of_le swapped ordered (by omega) insideA
  refine ⟨sum, fun fuel enough => ?_, exact_iff⟩
  obtain ⟨fuel, rfl⟩ := Nat.exists_eq_add_of_le' (show 1 ≤ fuel by omega)
  have copied : readOut b.length sum = .ok sum := by
    rw [readOut_of_le (by omega), List.take_of_length_le (by omega)]
  rw [bigAdd, compared, Run.ok_bind, if_pos greater, added fuel (by omega), Run.ok_bind]
  simp only [copied, Run.ok_bind, Run.pure_eq_ok]

/-- `big_add` returns, and its second number then holds the sum of both. -/
def AddsExactly (a b : Bignum) : Prop :=
  ∃ after, (∀ fuel, 2 ≤ fuel → bigAdd fuel a.data b.data = .ok after) ∧
    bigValue after.2 = a.value + b.value

theorem addsExactly_of_returns {a b : Bignum} {after : List UInt8 × List UInt8}
    (returns : ∀ fuel, 2 ≤ fuel → bigAdd fuel a.data b.data = .ok after) :
    AddsExactly a b ↔ bigValue after.2 = a.value + b.value := by
  constructor
  · rintro ⟨other, otherReturns, value⟩
    obtain rfl := Except.ok.inj ((returns 2 le_rfl).symm.trans (otherReturns 2 le_rfl))
    exact value
  · exact fun value => ⟨after, returns, value⟩

section Sizes

variable {a b : Bignum} (length_eq : a.data.length = b.data.length)

include length_eq

/-- Numbers of up to 2^31 bytes. -/
theorem addsExactly_of_small (nonempty : 1 ≤ a.data.length) (small : a.data.length ≤ 2 ^ 31) :
    (∃ after, ∀ fuel, 2 ≤ fuel → bigAdd fuel a.data b.data = .ok after) ∧
      (AddsExactly a b ↔ a.value = 0 ∨ (b.value = 0 ∧ 256 ≤ a.value) ∨
        (256 ≤ a.value ∧ 256 ≤ b.value ∧
          a.value + b.value < 256 ^ (Nat.log 256 (max a.value b.value) + 1))) := by
  have sizedA := toNat_bigLength nonempty small
  have sizedB := toNat_bigLength (length_eq ▸ nonempty) (length_eq ▸ small)
  have insideA := countedBytes_le (bigValue_lt a.data)
  have insideB := countedBytes_le (bigValue_lt b.data)
  obtain ⟨order, compared, _, greater_iff⟩ := exists_bigComp length_eq nonempty small
  obtain ⟨reverse, swapped, _, less_iff⟩ :=
    exists_bigComp length_eq.symm (length_eq ▸ nonempty) (length_eq ▸ small)
  simp only [Bignum.value]
  by_cases greater : 0 < order
  · have ordered := greater_iff.mp greater
    obtain ⟨sum, returns, exact_iff⟩ :=
      exists_bigAdd_of_gt compared swapped greater (by omega) length_eq (by omega)
    refine ⟨⟨_, returns⟩, (addsExactly_of_returns returns).trans ?_⟩
    rw [sizedA, sizedB, sum_exact_iff (Nat.le_of_lt ordered)] at exact_iff
    rw [Bignum.value, Bignum.value, Nat.add_comm, exact_iff]
    by_cases wide : 256 ≤ bigValue b.data
    · rw [Nat.max_comm, log_max_of_div_le wide (Nat.le_of_lt ordered), Nat.add_comm]
      omega
    · omega
  · have ordered : bigValue a.data / 256 ≤ bigValue b.data / 256 := by omega
    obtain ⟨sum, returns, _, exact_iff⟩ :=
      exists_bigAdd_of_le compared (by omega) (by omega) (by omega)
    have done : ∀ fuel, 2 ≤ fuel → bigAdd fuel a.data b.data = .ok (a.data, sum) :=
      fun fuel enough => returns fuel (by omega)
    refine ⟨⟨_, done⟩, (addsExactly_of_returns done).trans ?_⟩
    rw [sizedA, sizedB, sum_exact_iff ordered] at exact_iff
    rw [Bignum.value, Bignum.value, exact_iff]
    by_cases wide : 256 ≤ bigValue a.data
    · rw [log_max_of_div_le wide ordered]
      omega
    · omega

/-- Larger ones are never swapped, and their last byte is left out. -/
theorem addsExactly_of_large (large : 2 ^ 31 < a.data.length) :
    (∃ after, ∀ fuel, 2 ≤ fuel → bigAdd fuel a.data b.data = .ok after) ∧
      (AddsExactly a b ↔ a.value + b.value % 256 ^ (a.data.length - 1) <
        256 ^ (a.data.length - 1)) := by
  have sizedA := toNat_bigLength_of_large large a.sized
  have sizedB := toNat_bigLength_of_large (length_eq ▸ large) b.sized
  obtain ⟨sum, returns, _, exact_iff⟩ := exists_bigAdd_of_le
    (bigComp_of_large length_eq large a.sized) le_rfl (by omega) (by omega)
  have done : ∀ fuel, 2 ≤ fuel → bigAdd fuel a.data b.data = .ok (a.data, sum) :=
    fun fuel enough => returns fuel (by omega)
  refine ⟨⟨_, done⟩, (addsExactly_of_returns done).trans (exact_iff.trans ?_)⟩
  have split : bigValue b.data = _ :=
    bigValue_split (show a.data.length - 1 ≤ b.data.length by omega)
  have front := bigValue_take_lt b.data (a.data.length - 1)
  have remainder : bigValue (b.data.take (a.data.length - 1)) =
      b.value % 256 ^ (a.data.length - 1) := by
    rw [Bignum.value, split, Nat.add_mul_mod_self_left, Nat.mod_eq_of_lt front]
  rw [sizedA, sizedB, ← length_eq, Nat.min_self, remainder, Nat.add_comm]
  constructor
  · exact fun ⟨_, fits⟩ => fits
  · intro fits
    exact ⟨bigValue_take_of_lt (Nat.lt_of_le_of_lt (Nat.le_add_right _ _) fits), fits⟩

end Sizes

/-- `big_add` of two numbers of one size always returns.  Up to 2^31 bytes the second one then holds
the sum exactly if the first is zero, or the second is zero and the first has more than one byte, or
both have more than one and the sum has no more than the larger; beyond that, if the sum does not
carry into the last byte. -/
theorem addsExactly_iff (a b : Bignum) (length_eq : a.data.length = b.data.length)
    (nonempty : 1 ≤ a.data.length) :
    (∃ after, ∀ fuel, 2 ≤ fuel → bigAdd fuel a.data b.data = .ok after) ∧
    (a.data.length ≤ 2 ^ 31 →
      (AddsExactly a b ↔ a.value = 0 ∨ (b.value = 0 ∧ 256 ≤ a.value) ∨
        (256 ≤ a.value ∧ 256 ≤ b.value ∧
          a.value + b.value < 256 ^ (Nat.log 256 (max a.value b.value) + 1)))) ∧
    (2 ^ 31 < a.data.length →
      (AddsExactly a b ↔
        a.value + b.value % 256 ^ (a.data.length - 1) < 256 ^ (a.data.length - 1))) := by
  refine ⟨?_, ?_, ?_⟩
  · rcases Nat.lt_or_ge (2 ^ 31) a.data.length with large | small
    · exact (addsExactly_of_large length_eq large).1
    · exact (addsExactly_of_small length_eq nonempty small).1
  · exact fun small => (addsExactly_of_small length_eq nonempty small).2
  · exact fun large => (addsExactly_of_large length_eq large).2

/-- Two numbers of two bytes. -/
theorem addsExactly_wide :
    AddsExactly ⟨[0, 1], by decide⟩ ⟨[0, 2], by decide⟩ := by
  refine ((addsExactly_iff ⟨[0, 1], by decide⟩ ⟨[0, 2], by decide⟩ rfl (by decide)).2.1
    (by decide)).mpr (Or.inr (Or.inr ⟨by decide, by decide, ?_⟩))
  have bytes : 2 ≤ Nat.log 256 512 + 1 := Nat.succ_le_succ (Nat.log_pos (by decide) (by decide))
  exact Nat.lt_of_lt_of_le (by decide) (Nat.pow_le_pow_right (by decide) bytes)

/-- The sum of 1 and 1 is 1, and the carry out of 0xffff and 0x0100 is lost. -/
theorem not_addsExactly_single :
    ¬ AddsExactly ⟨[1, 0], by decide⟩ ⟨[1, 0], by decide⟩ ∧
      ¬ AddsExactly ⟨[0, 1, 0], by decide⟩ ⟨[0xff, 0xff, 0], by decide⟩ := by
  have single : ∀ fuel, 2 ≤ fuel → bigAdd fuel [1, 0] [1, 0] = .ok ([1, 0], [1, 0]) := by
    intro fuel enough
    obtain ⟨fuel, rfl⟩ := Nat.exists_eq_add_of_le' enough
    rfl
  have carried : ∀ fuel, 2 ≤ fuel →
      bigAdd fuel [0, 1, 0] [0xff, 0xff, 0] = .ok ([0, 1, 0], [0xff, 0, 0]) := by
    intro fuel enough
    obtain ⟨fuel, rfl⟩ := Nat.exists_eq_add_of_le' enough
    rfl
  refine ⟨fun adds => ?_, fun adds => ?_⟩
  · exact absurd ((addsExactly_of_returns single).mp adds) (by decide)
  · exact absurd ((addsExactly_of_returns carried).mp adds) (by decide)

/-! ## Significant bytes -/

/-- `big_length` returns the number of significant bytes: the fewest that can hold the number, so
that only zeros lie above them and the highest of them is not zero. -/
structure CountsSignificant (a : Bignum) : Prop where
  least : IsLeast {length | a.value < 256 ^ length} (bigLength a.data).toNat
  above : ∀ index, (bigLength a.data).toNat ≤ index → a.data.getD index 0 = 0
  top : 0 < (bigLength a.data).toNat → a.data.getD ((bigLength a.data).toNat - 1) 0 ≠ 0

/-- A byte that is not zero is a digit of the number. -/
theorem pow_le_bigValue {data : List UInt8} {index : Nat} (nonzero : data.getD index 0 ≠ 0) :
    256 ^ index ≤ bigValue data := by
  have inside : index < data.length := by
    by_contra beyond
    exact nonzero (by simp [Nat.not_lt.mp beyond])
  have byte : data.getD index 0 = data[index] := by simp [inside]
  have positive : 1 ≤ data[index].toNat := toNat_pos_of_ne_zero (byte ▸ nonzero)
  have front := bigValue_take_succ inside
  have split := bigValue_split (show index + 1 ≤ data.length from inside)
  have digit := Nat.le_mul_of_pos_left (256 ^ index) positive
  omega

/-- The byte below the least length is the highest one. -/
theorem top_ne_zero_of_isLeast {data : List UInt8} {length : Nat}
    (least : IsLeast {length | bigValue data < 256 ^ length} length) (positive : 0 < length) :
    data.getD (length - 1) 0 ≠ 0 := by
  intro zero
  have shorter : bigValue data < 256 ^ (length - 1) := by
    have fits : bigValue data < 256 ^ (length - 1 + 1) := by
      rw [Nat.sub_add_cancel positive]
      exact least.1
    rw [← bigValue_take_of_lt fits]
    rcases Nat.lt_or_ge (length - 1) data.length with inside | beyond
    · have byte : data[length - 1] = 0 := by simpa [inside] using zero
      rw [bigValue_take_succ inside, byte, UInt8.toNat_zero, Nat.zero_mul, Nat.add_zero]
      exact bigValue_take_lt data (length - 1)
    · rw [List.take_of_length_le (by omega), ← List.take_of_length_le beyond]
      exact bigValue_take_lt data (length - 1)
  have fewer := least.2 shorter
  omega

theorem countsSignificant_iff_isLeast (a : Bignum) :
    CountsSignificant a ↔ IsLeast {length | a.value < 256 ^ length} (bigLength a.data).toNat := by
  constructor
  · exact fun counts => counts.least
  · intro least
    refine ⟨least, fun index behind => ?_, top_ne_zero_of_isLeast least⟩
    by_contra nonzero
    have tall := pow_le_bigValue nonzero
    have wide : 256 ^ (bigLength a.data).toNat ≤ 256 ^ index :=
      Nat.pow_le_pow_right (by decide) behind
    exact absurd least.1 (Nat.not_lt.mpr (wide.trans tall))

/-- Only for numbers of a single byte the count is wrong. -/
theorem isLeast_countedBytes_iff (value : Nat) :
    IsLeast {length | value < 256 ^ length} (countedBytes value) ↔ value = 0 ∨ 256 ≤ value := by
  constructor
  · intro least
    by_contra single
    have none : countedBytes value = 0 := if_pos (by omega)
    have fits : value < 256 ^ countedBytes value := least.1
    rw [none, Nat.pow_zero] at fits
    omega
  · rintro (rfl | wide)
    · exact ⟨Nat.one_pos, fun length _ => Nat.zero_le length⟩
    · exact ⟨lt_pow_countedBytes wide, fun length fits => countedBytes_le fits⟩

theorem isLeast_pred_iff {value size : Nat} (long : 2 ≤ size) :
    IsLeast {length | value < 256 ^ length} (size - 1) ↔
      256 ^ (size - 2) ≤ value ∧ value < 256 ^ (size - 1) := by
  constructor
  · intro least
    refine ⟨?_, least.1⟩
    by_contra shorter
    have fewer := least.2 (Nat.not_le.mp shorter)
    omega
  · rintro ⟨tall, fits⟩
    refine ⟨fits, fun length below => ?_⟩
    have more := (Nat.pow_lt_pow_iff_right (by decide)).mp (Nat.lt_of_le_of_lt tall below)
    omega

/-- `big_length` returns the number of significant bytes exactly for zero and for numbers of at
least two bytes, as long as an `int` can count the bytes; beyond that, exactly if all bytes but the
last are significant. -/
theorem countsSignificant_iff (a : Bignum) (nonempty : 1 ≤ a.data.length) :
    CountsSignificant a ↔
      (a.data.length ≤ 2 ^ 31 ∧ (a.value = 0 ∨ 256 ≤ a.value)) ∨
        (2 ^ 31 < a.data.length ∧ 256 ^ (a.data.length - 2) ≤ a.value ∧
          a.value < 256 ^ (a.data.length - 1)) := by
  rw [countsSignificant_iff_isLeast]
  rcases Nat.lt_or_ge (2 ^ 31) a.data.length with large | small
  · rw [toNat_bigLength_of_large large a.sized, isLeast_pred_iff (by omega)]
    constructor
    · exact fun counted => Or.inr ⟨large, counted⟩
    · rintro (⟨small, _⟩ | ⟨_, counted⟩)
      · omega
      · exact counted
  · rw [toNat_bigLength nonempty small, ← Bignum.value, isLeast_countedBytes_iff]
    constructor
    · exact fun counted => Or.inl ⟨small, counted⟩
    · rintro (⟨_, counted⟩ | ⟨large, _⟩)
      · exact counted
      · omega

/-- The two bytes of 0x0100 are counted. -/
theorem countsSignificant_wide : CountsSignificant ⟨[0, 1, 0], by decide⟩ :=
  (countsSignificant_iff ⟨[0, 1, 0], by decide⟩ (by decide)).mpr
    (Or.inl ⟨by decide, Or.inr (by decide)⟩)

/-- The number 1 has no significant byte for `big_length`. -/
theorem not_countsSignificant_single : ¬ CountsSignificant ⟨[1, 0], by decide⟩ := by
  intro counts
  have fits : bigValue [1, 0] < 256 ^ (bigLength [1, 0]).toNat := counts.least.1
  exact absurd fits (by decide)

end Freecoin
