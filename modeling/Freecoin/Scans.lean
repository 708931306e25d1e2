import Mathlib.Logic.Relation
import Freecoin.StoredBlocks
import Freecoin.Validation

/-!
# The scans for double spends

The inner loop of both scans runs over the inputs of transaction `t` but is bounded by the input
count of transaction `i`, the one whose number is the input's position.  So every transaction of a
block is looked at up to the same position: the first one that is not below the input count of the
transaction with that number.  Where there is none, and where a transaction is shorter, the scan
leaves an array; and it counts the transactions with an `int`.
-/

namespace Freecoin

open Foundation

/-! ## The position the inner loop stops at -/

/-- The first position from `i` on that is not below the input count of its transaction. -/
def scanBoundFrom : List Tx → Nat → Nat
  | [], i => i
  | bound :: bounds, i =>
      if i < bound.header.inCount.toNat then scanBoundFrom bounds (i + 1) else i

/-- The position up to which the transactions of a block are looked at. -/
def Block.scanBound (block : Block) : Nat := scanBoundFrom block.txs 0

theorem le_scanBoundFrom (bounds : List Tx) (i : Nat) : i ≤ scanBoundFrom bounds i := by
  induction bounds generalizing i with
  | nil => exact le_rfl
  | cons bound bounds ih =>
      rw [scanBoundFrom]
      split
      · exact (Nat.le_succ i).trans (ih (i + 1))
      · exact le_rfl

/-- The position is the first that is not below its count. -/
theorem scanBoundFrom_eq {bounds : List Tx} {i k : Nat} (inside : k < bounds.length)
    (before : ∀ j (_ : j < k), i + j < bounds[j].header.inCount.toNat)
    (stop : bounds[k].header.inCount.toNat ≤ i + k) : scanBoundFrom bounds i = i + k := by
  induction bounds generalizing i k with
  | nil => cases inside
  | cons bound bounds ih =>
      rw [scanBoundFrom]
      cases k with
      | zero => exact if_neg (Nat.not_lt.mpr stop)
      | succ k =>
          have next : i + 1 + k = i + (k + 1) := by omega
          have first : i < bound.header.inCount.toNat := before 0 (Nat.succ_pos k)
          rw [if_pos first,
            ih (Nat.lt_of_succ_lt_succ inside) (fun j earlier => ?_) (next ▸ stop), next]
          have later := before (j + 1) (Nat.succ_lt_succ earlier)
          rw [List.getElem_cons_succ] at later
          omega

theorem inCount_le_of_scanBoundFrom {bounds : List Tx} {i k : Nat} (inside : k < bounds.length)
    (stopped : scanBoundFrom bounds i = i + k) : bounds[k].header.inCount.toNat ≤ i + k := by
  induction bounds generalizing i k with
  | nil => cases inside
  | cons bound bounds ih =>
      rw [scanBoundFrom] at stopped
      split at stopped
      · have ahead := le_scanBoundFrom bounds (i + 1)
        cases k with
        | zero => omega
        | succ k =>
            have next : i + 1 + k = i + (k + 1) := by omega
            exact next ▸ ih (Nat.lt_of_succ_lt_succ inside) (stopped.trans next.symm)
      · rename_i behind
        obtain rfl : k = 0 := by omega
        exact Nat.not_lt.mp behind

/-- How many of some inputs consume the output an input consumes. -/
def spendsAmong (input : TxInput) (inputs : List TxInput) : Nat :=
  inputs.countP fun other => other.SameReference input

@[simp] theorem spendsAmong_nil (input : TxInput) : spendsAmong input [] = 0 := rfl

theorem spendsAmong_append (input : TxInput) (front back : List TxInput) :
    spendsAmong input (front ++ back) = spendsAmong input front + spendsAmong input back :=
  List.countP_append

theorem spendsAmong_cons_of_same {input other : TxInput} (same : other.SameReference input)
    (inputs : List TxInput) : spendsAmong input (other :: inputs) = spendsAmong input inputs + 1 :=
  List.countP_cons_of_pos (by simpa using same)

theorem spendsAmong_cons_of_not_same {input other : TxInput}
    (different : ¬ other.SameReference input) (inputs : List TxInput) :
    spendsAmong input (other :: inputs) = spendsAmong input inputs :=
  List.countP_cons_of_neg (by simpa using different)

/-! ## One transaction -/

/-- Adding to the counter stays exact below 256. -/
theorem toNat_add_spends {spends : UInt8} {count : Nat} (small : spends.toNat + count < 256) :
    (spends + .ofNat count).toNat = spends.toNat + count := by
  rw [UInt8.toNat_add, UInt8.toNat_ofNat_of_lt' (by rw [UInt8.size]; omega)]
  exact Nat.mod_eq_of_lt small

/-- What becomes of a count when some more spends are found: too many, their sum, or a read outside
of an array. -/
def scanOutcome (limit spends : UInt8) (count : Nat) (reads : Prop) [Decidable reads] :
    Run (Option UInt8) :=
  if limit.toNat < spends.toNat + count then .ok none
  else if reads then .ok (some (spends + .ofNat count))
  else .error .outOfBounds

section Outcome

variable {limit spends : UInt8} {reads : Prop} [Decidable reads]

theorem scanOutcome_zero (within : spends.toNat ≤ limit.toNat) :
    scanOutcome limit spends 0 reads =
      if reads then .ok (some spends) else .error .outOfBounds := by
  have zero : spends + UInt8.ofNat 0 = spends := UInt8.add_zero spends
  rw [scanOutcome, Nat.add_zero, if_neg (Nat.not_lt.mpr within), zero]

/-- One spend counted beforehand is one of those to come. -/
theorem scanOutcome_add_one (exact_sum : (spends + 1).toNat = spends.toNat + 1) (count : Nat) :
    scanOutcome limit (spends + 1) count reads = scanOutcome limit spends (count + 1) reads := by
  have sum : spends + 1 + UInt8.ofNat count = spends + UInt8.ofNat (count + 1) := by
    rw [UInt8.ofNat_add, UInt8.add_assoc, UInt8.add_comm 1]
    rfl
  rw [scanOutcome, scanOutcome, exact_sum, sum, Nat.add_assoc, Nat.add_comm 1]

end Outcome

section Inner

variable {limit spends : UInt8} {txs bounds : List Tx} {input : TxInput} {t i : Nat} {bound tx : Tx}

theorem scanInputs_stop (stop : ¬ i < bound.header.inCount.toNat) :
    scanInputs limit txs input t (bound :: bounds) i spends = .ok (some spends) := by
  rw [scanInputs, if_neg stop]
  rfl

variable (found : txs[t]? = some tx) (before : i < bound.header.inCount.toNat)

include found before

theorem scanInputs_fault (ended : tx.ins.length ≤ i) :
    scanInputs limit txs input t (bound :: bounds) i spends = .error .outOfBounds := by
  have missing : fetch tx.ins i = .error .outOfBounds := by
    rw [fetch, List.getElem?_eq_none ended]
  rw [scanInputs, if_pos before, fetch_eq_ok.mpr found, Run.ok_bind, missing, Run.error_bind]

theorem scanInputs_step (present : i < tx.ins.length) :
    scanInputs limit txs input t (bound :: bounds) i spends =
      if tx.ins[i].SameReference input then
        if spends + 1 > limit then .ok none
        else scanInputs limit txs input t bounds (i + 1) (spends + 1)
      else scanInputs limit txs input t bounds (i + 1) spends := by
  rw [scanInputs, if_pos before, fetch_eq_ok.mpr found, Run.ok_bind, fetch_of_lt present,
    Run.ok_bind]
  rfl

end Inner

/-- What the inner loop does with one transaction: it counts the spends up to the bound, unless
there are too many, or an array ends before. -/
theorem scanInputs_eq {limit : UInt8} {txs : List Tx} {input : TxInput} {t : Nat} {tx : Tx}
    (found : txs[t]? = some tx) (small : limit.toNat < 255) (bounds : List Tx) (i : Nat)
    (spends : UInt8) (within : spends.toNat ≤ limit.toNat) (inside : i ≤ tx.ins.length) :
    scanInputs limit txs input t bounds i spends =
      scanOutcome limit spends
        (spendsAmong input ((tx.ins.drop i).take (scanBoundFrom bounds i - i)))
        (scanBoundFrom bounds i ≤ tx.ins.length ∧ scanBoundFrom bounds i < i + bounds.length) := by
  induction bounds generalizing i spends with
  | nil =>
      rw [scanBoundFrom, Nat.sub_self, List.take_zero, spendsAmong_nil, scanOutcome_zero within,
        if_neg (fun both => Nat.lt_irrefl _ both.2)]
      rfl
  | cons bound bounds ih =>
      have total : i + (bound :: bounds).length = i + 1 + bounds.length := by
        rw [List.length_cons]
        omega
      rw [scanBoundFrom]
      by_cases before : i < bound.header.inCount.toNat
      · have ahead := le_scanBoundFrom bounds (i + 1)
        rw [if_pos before, total]
        by_cases present : i < tx.ins.length
        · have taken : scanBoundFrom bounds (i + 1) - i =
              scanBoundFrom bounds (i + 1) - (i + 1) + 1 := by omega
          have next : (spends + 1).toNat = spends.toNat + 1 :=
            toNat_add_spends (Nat.lt_of_le_of_lt (Nat.succ_le_succ within) (by omega))
          have exceeds : spends + 1 > limit ↔ limit.toNat < spends.toNat + 1 := by
            rw [gt_iff_lt, UInt8.lt_iff_toNat_lt, next]
          rw [scanInputs_step found before present, List.drop_eq_getElem_cons present, taken,
            List.take_succ_cons]
          by_cases same : tx.ins[i].SameReference input
          · rw [if_pos same, spendsAmong_cons_of_same same]
            by_cases excess : limit.toNat < spends.toNat + 1
            · rw [if_pos (exceeds.mpr excess), scanOutcome, if_pos (by omega)]
            · rw [if_neg (mt exceeds.mp excess), ih (i + 1) (spends + 1) (by omega) present,
                scanOutcome_add_one next]
          · rw [if_neg same, spendsAmong_cons_of_not_same same, ih (i + 1) spends within present]
        · have ended : tx.ins.length ≤ i := Nat.not_lt.mp present
          rw [scanInputs_fault found before ended, List.drop_eq_nil_of_le ended, List.take_nil,
            spendsAmong_nil, scanOutcome_zero within, if_neg (fun both => by omega)]
      · have behind : i < i + (bound :: bounds).length := by simp
        rw [scanInputs_stop before, if_neg before, Nat.sub_self, List.take_zero, spendsAmong_nil,
          scanOutcome_zero within, if_pos ⟨inside, behind⟩]

/-! ## One block -/

namespace Block

/-- The loop has a bound, and a transaction has inputs up to it. -/
def Reads (block : Block) (tx : Tx) : Prop :=
  block.scanBound ≤ tx.ins.length ∧ block.scanBound < block.txs.length

/-- The course of a scan over the transactions of a block, from a position and a number of spends to
its outcome: it stops at the transaction with which there are more spends than allowed, or gets
through. -/
inductive Scan (block : Block) (limit : Nat) (input : TxInput) :
    (t spends : Nat) → List Tx → Option Nat → Prop
  | done (t spends : Nat) : Scan block limit input t spends [] (some spends)
  | spent {t spends : Nat} {tx : Tx} {txs : List Tx} :
      limit < spends + spendsAmong input (tx.ins.take block.scanBound) →
      Scan block limit input t spends (tx :: txs) none
  | passed {t spends : Nat} {tx : Tx} {txs : List Tx} {outcome : Option Nat} :
      spends + spendsAmong input (tx.ins.take block.scanBound) ≤ limit → block.Reads tx →
      t + 1 < 2 ^ 31 →
      Scan block limit input (t + 1) (spends + spendsAmong input (tx.ins.take block.scanBound)) txs
        outcome →
      Scan block limit input t spends (tx :: txs) outcome

section Cases

variable {block : Block} {limit t spends : Nat} {input : TxInput} {outcome : Option Nat}

theorem scan_nil_iff : block.Scan limit input t spends [] outcome ↔ outcome = some spends := by
  constructor
  · intro scan
    cases scan
    rfl
  · rintro rfl
    exact .done t spends

theorem scan_cons_iff {tx : Tx} {txs : List Tx} :
    block.Scan limit input t spends (tx :: txs) outcome ↔
      (limit < spends + spendsAmong input (tx.ins.take block.scanBound) ∧ outcome = none) ∨
        (spends + spendsAmong input (tx.ins.take block.scanBound) ≤ limit ∧ block.Reads tx ∧
          t + 1 < 2 ^ 31 ∧
          block.Scan limit input (t + 1)
            (spends + spendsAmong input (tx.ins.take block.scanBound)) txs outcome) := by
  constructor
  · intro scan
    cases scan with
    | spent exceeded => exact .inl ⟨exceeded, rfl⟩
    | passed allowed reads next rest => exact .inr ⟨allowed, reads, next, rest⟩
  · rintro (⟨exceeded, rfl⟩ | ⟨allowed, reads, next, rest⟩)
    · exact .spent exceeded
    · exact .passed allowed reads next rest

end Cases

/-- The outer loop returns exactly what its course leads to. -/
theorem scanTxs_eq_ok_iff (block : Block) {limit : UInt8} (small : limit.toNat < 255)
    (input : TxInput) {t remaining : Nat} (inside : t + remaining = block.txs.length)
    {spends : UInt8} (within : spends.toNat ≤ limit.toNat) {outcome : Option UInt8} :
    scanTxs limit block.txs input t remaining spends = .ok outcome ↔
      block.Scan limit.toNat input t spends.toNat (block.txs.drop t)
        (outcome.map UInt8.toNat) := by
  induction remaining generalizing t spends with
  | zero =>
      rw [List.drop_eq_nil_of_le (by omega), scanTxs, Except.ok.injEq, scan_nil_iff,
        ← Option.map_some, eq_comm]
      exact (Option.map_injective fun _ _ => UInt8.toNat_inj.mp).eq_iff.symm
  | succ remaining ih =>
      have present : t < block.txs.length := by omega
      have bound_eq : scanBoundFrom block.txs 0 = block.scanBound := rfl
      rw [scanTxs, scanInputs_eq (List.getElem?_eq_getElem present) small block.txs 0 spends within
        (Nat.zero_le _), List.drop_zero, Nat.sub_zero, Nat.zero_add, bound_eq,
        List.drop_eq_getElem_cons present, scan_cons_iff, scanOutcome, Reads]
      set count := spendsAmong input (block.txs[t].ins.take block.scanBound)
      by_cases excess : limit.toNat < spends.toNat + count
      · rw [if_pos excess, Run.ok_bind, Run.pure_eq_ok, Except.ok.injEq, Option.map_eq_none_iff]
        simp only [excess, true_and, Nat.not_le.mpr excess, false_and, or_false, eq_comm]
      · have allowed := Nat.not_lt.mp excess
        rw [if_neg excess]
        simp only [excess, false_and, false_or, allowed, true_and]
        by_cases reads : block.scanBound ≤ block.txs[t].ins.length ∧
            block.scanBound < block.txs.length
        · have next := toNat_add_spends (Nat.lt_of_le_of_lt allowed (by omega))
          rw [if_pos reads, Run.ok_bind, ← next, and_iff_right reads]
          by_cases fits : t + 1 < 2 ^ 31
          · simp only [intAdd_of_lt fits, Run.ok_bind, fits, true_and]
            exact ih (by omega) (next ▸ allowed)
          · simp only [intAdd, fits, if_false, Run.error_bind, reduceCtorEq, false_and]
        · rw [if_neg reads, Run.error_bind]
          exact iff_of_false (fun returned => by cases returned) fun both => reads both.1

/-- The inputs a scan looks at. -/
def visible (block : Block) : List TxInput :=
  block.txs.flatMap fun tx => tx.ins.take block.scanBound

/-- An `int` can count the transactions, and each has inputs up to the bound. -/
structure Readable (block : Block) : Prop where
  short : block.txs.length < 2 ^ 31
  reads : ∀ tx ∈ block.txs, block.Reads tx

/-- The scan of a block stops every transaction at position `bound`: the transaction of that number
has as many inputs, and no transaction has fewer. -/
def StopsAt (block : Block) (bound : Nat) : Prop :=
  block.layout[bound]? = some bound ∧ ∀ count ∈ block.layout, bound ≤ count

section Bound

variable {block : Block} (counted : block.Counted)

include counted

theorem scanBound_eq_of_stopsAt {bound : Nat} (stops : block.StopsAt bound) :
    block.scanBound = bound := by
  obtain ⟨inside, here⟩ := List.getElem?_eq_some_iff.mp stops.1
  have present : bound < block.txs.length := by rwa [layout, List.length_map] at inside
  simp only [layout, List.getElem_map] at here
  have stopped := scanBoundFrom_eq (i := 0) present (fun j earlier => ?_) ?_
  · rwa [Nat.zero_add] at stopped
  · have member := List.getElem_mem (Nat.lt_trans earlier present)
    rw [(counted.tx _ member).ins, Nat.zero_add]
    exact Nat.lt_of_lt_of_le earlier (stops.2 _ (List.mem_map_of_mem member))
  · rw [(counted.tx _ (List.getElem_mem present)).ins, here, Nat.zero_add]

theorem readable_of_stopsAt {bound : Nat} (stops : block.StopsAt bound)
    (short : block.txs.length < 2 ^ 31) : block.Readable := by
  refine ⟨short, fun tx member => ?_⟩
  obtain ⟨inside, _⟩ := List.getElem?_eq_some_iff.mp stops.1
  rw [Reads, scanBound_eq_of_stopsAt counted stops]
  exact ⟨stops.2 _ (List.mem_map_of_mem member), by rwa [layout, List.length_map] at inside⟩

theorem stopsAt_of_readable (readable : block.Readable) (nonempty : block.txs ≠ []) :
    block.StopsAt block.scanBound := by
  obtain ⟨first, member⟩ := List.exists_mem_of_ne_nil _ nonempty
  have inside := (readable.reads first member).2
  have reached := List.getElem_mem inside
  have stopped : scanBoundFrom block.txs 0 = 0 + block.scanBound := (Nat.zero_add _).symm
  have fewer := inCount_le_of_scanBoundFrom inside stopped
  rw [(counted.tx _ reached).ins, Nat.zero_add] at fewer
  refine ⟨List.getElem?_eq_some_iff.mpr ⟨by rwa [layout, List.length_map], ?_⟩, ?_⟩
  · simp only [layout, List.getElem_map]
    exact Nat.le_antisymm fewer (readable.reads _ reached).1
  · intro count counts
    obtain ⟨tx, txMember, rfl⟩ := List.mem_map.mp counts
    exact (readable.reads tx txMember).1

end Bound

section Course

variable {block : Block} {limit t spends : Nat} {input : TxInput} {txs : List Tx}

/-- A scan that gets through has read every transaction and found what there is below the bound. -/
theorem Scan.of_some {final : Nat} (scan : block.Scan limit input t spends txs (some final))
    (start : t < 2 ^ 31) (within : spends ≤ limit) :
    t + txs.length < 2 ^ 31 ∧ (∀ tx ∈ txs, block.Reads tx) ∧ final ≤ limit ∧
      final = spends +
        spendsAmong input (txs.flatMap fun tx => tx.ins.take block.scanBound) := by
  induction txs generalizing t spends with
  | nil =>
      cases scan
      exact ⟨start, by simp, within, rfl⟩
  | cons tx txs ih =>
      cases scan with
      | passed allowed reads next rest =>
          obtain ⟨short, others, bounded, total⟩ := ih rest next allowed
          refine ⟨by rw [List.length_cons]; omega, List.forall_mem_cons.mpr ⟨reads, others⟩,
            bounded, ?_⟩
          rw [total, List.flatMap_cons, spendsAmong_append, Nat.add_assoc]

/-- A scan that stops has found too many spends below the bound. -/
theorem Scan.of_none (scan : block.Scan limit input t spends txs none) :
    limit < spends +
      spendsAmong input (txs.flatMap fun tx => tx.ins.take block.scanBound) := by
  induction txs generalizing t spends with
  | nil => cases scan
  | cons tx txs ih =>
      rw [List.flatMap_cons, spendsAmong_append]
      cases scan with
      | spent exceeded => omega
      | passed _ _ _ rest =>
          have later := ih rest
          omega

/-- When every transaction can be read and there are few enough spends, the scan gets through. -/
theorem exists_scan_some (short : t + txs.length < 2 ^ 31)
    (readable : ∀ tx ∈ txs, block.Reads tx)
    (bounded : spends +
      spendsAmong input (txs.flatMap fun tx => tx.ins.take block.scanBound) ≤ limit) :
    ∃ final, block.Scan limit input t spends txs (some final) := by
  induction txs generalizing t spends with
  | nil => exact ⟨spends, .done t spends⟩
  | cons tx txs ih =>
      rw [List.length_cons] at short
      rw [List.flatMap_cons, spendsAmong_append, ← Nat.add_assoc] at bounded
      obtain ⟨reads, others⟩ := List.forall_mem_cons.mp readable
      obtain ⟨final, scan⟩ := ih (t := t + 1) (by omega) others bounded
      exact ⟨final, .passed (by omega) reads (by omega) scan⟩

/-- When every transaction can be read and there are too many spends, the scan stops. -/
theorem scan_none (short : t + txs.length < 2 ^ 31) (readable : ∀ tx ∈ txs, block.Reads tx)
    (within : spends ≤ limit)
    (exceeded : limit < spends +
      spendsAmong input (txs.flatMap fun tx => tx.ins.take block.scanBound)) :
    block.Scan limit input t spends txs none := by
  induction txs generalizing t spends with
  | nil =>
      rw [List.flatMap_nil, spendsAmong_nil, Nat.add_zero] at exceeded
      exact absurd within (Nat.not_le.mpr exceeded)
  | cons tx txs ih =>
      rw [List.length_cons] at short
      rw [List.flatMap_cons, spendsAmong_append, ← Nat.add_assoc] at exceeded
      obtain ⟨reads, others⟩ := List.forall_mem_cons.mp readable
      by_cases here : limit < spends + spendsAmong input (tx.ins.take block.scanBound)
      · exact .spent here
      · have allowed := Nat.not_lt.mp here
        exact .passed allowed reads (by omega) (ih (by omega) others allowed exceeded)

end Course

/-- A block is readable and shows no more spends than the limit. -/
def Clears (block : Block) (limit : Nat) (input : TxInput) : Prop :=
  block.Readable ∧ spendsAmong input block.visible ≤ limit

/-- A scan gets through a whole block exactly when the block clears the input. -/
theorem exists_scan_some_iff (block : Block) (limit : Nat) (input : TxInput) :
    (∃ final, block.Scan limit input 0 0 block.txs (some final)) ↔ block.Clears limit input := by
  constructor
  · rintro ⟨final, scan⟩
    obtain ⟨short, reads, bounded, total⟩ := scan.of_some (by decide) (Nat.zero_le limit)
    rw [Nat.zero_add] at short total
    exact ⟨⟨short, reads⟩, by rw [visible, ← total]; exact bounded⟩
  · rintro ⟨readable, bounded⟩
    exact exists_scan_some (by rw [Nat.zero_add]; exact readable.short) readable.reads
      (by rwa [Nat.zero_add])

theorem scan_zero_iff (block : Block) (input : TxInput) :
    block.Scan 0 input 0 0 block.txs (some 0) ↔ block.Clears 0 input := by
  rw [← exists_scan_some_iff]
  constructor
  · exact fun scan => ⟨0, scan⟩
  · rintro ⟨final, scan⟩
    obtain ⟨_, _, bounded, _⟩ := scan.of_some (by decide) le_rfl
    exact Nat.le_zero.mp bounded ▸ scan

theorem lt_spendsAmong_of_scan_none {block : Block} {limit : Nat} {input : TxInput}
    (scan : block.Scan limit input 0 0 block.txs none) :
    limit < spendsAmong input block.visible := by
  have exceeded := scan.of_none
  rwa [Nat.zero_add] at exceeded

theorem scan_none_of_readable {block : Block} {limit : Nat} {input : TxInput}
    (readable : block.Readable) (exceeded : limit < spendsAmong input block.visible) :
    block.Scan limit input 0 0 block.txs none :=
  scan_none (by rw [Nat.zero_add]; exact readable.short) readable.reads (Nat.zero_le limit)
    (by rwa [Nat.zero_add])

/-- Up to some transaction there are more spends than the limit in front of the bound, and the
transactions before it can be read and counted. -/
def Reveals (block : Block) (limit : Nat) (input : TxInput) : Prop :=
  ∃ front tx back, block.txs = front ++ tx :: back ∧ front.length < 2 ^ 31 ∧
    (∀ other ∈ front, block.Reads other) ∧
    limit < spendsAmong input ((front ++ [tx]).flatMap fun other => other.ins.take block.scanBound)

/-- A scan stops exactly at such a transaction. -/
theorem scan_none_iff_exists {block : Block} {limit : Nat} {input : TxInput} {txs : List Tx}
    {t spends : Nat} (start : t < 2 ^ 31) :
    block.Scan limit input t spends txs none ↔
      ∃ front tx back, txs = front ++ tx :: back ∧ t + front.length < 2 ^ 31 ∧
        (∀ other ∈ front, block.Reads other) ∧
        limit < spends + spendsAmong input
          ((front ++ [tx]).flatMap fun other => other.ins.take block.scanBound) := by
  induction txs generalizing t spends with
  | nil =>
      refine iff_of_false (fun scan => by cases scan) ?_
      rintro ⟨front, tx, back, nothing, _⟩
      simp at nothing
  | cons first txs ih =>
      constructor
      · intro scan
        cases scan with
        | spent exceeded =>
            exact ⟨[], first, txs, rfl, start, by simp, by simpa using exceeded⟩
        | passed _ reads next rest =>
            obtain ⟨front, tx, back, rfl, short, readable, exceeded⟩ := (ih next).mp rest
            refine ⟨first :: front, tx, back, rfl, by rw [List.length_cons]; omega,
              List.forall_mem_cons.mpr ⟨reads, readable⟩, ?_⟩
            rw [List.cons_append, List.flatMap_cons, spendsAmong_append, ← Nat.add_assoc]
            exact exceeded
      · rintro ⟨front, tx, back, split, short, readable, exceeded⟩
        by_cases here : limit < spends + spendsAmong input (first.ins.take block.scanBound)
        · exact .spent here
        · cases front with
          | nil =>
              obtain ⟨rfl, _⟩ := List.cons.inj split
              rw [List.nil_append, List.flatMap_singleton] at exceeded
              exact absurd exceeded here
          | cons head front =>
              obtain ⟨rfl, rest⟩ := List.cons.inj split
              obtain ⟨reads, others⟩ := List.forall_mem_cons.mp readable
              rw [List.length_cons] at short
              rw [List.cons_append, List.flatMap_cons, spendsAmong_append, ← Nat.add_assoc]
                at exceeded
              have next : t + 1 < 2 ^ 31 := by omega
              exact .passed (Nat.not_lt.mp here) reads next
                ((ih next).mpr ⟨front, tx, back, rest, by omega, others, exceeded⟩)

theorem scan_none_iff {block : Block} {limit : Nat} {input : TxInput} :
    block.Scan limit input 0 0 block.txs none ↔ block.Reveals limit input := by
  rw [scan_none_iff_exists (by decide), Reveals]
  simp only [Nat.zero_add]

end Block

/-! ## The walk over the ancestors -/

/-- Every block the store delivers counts what it has. -/
def Store.Counted (store : Store) : Prop :=
  ∀ hash block, store.loadBlock hash = .ok (some block) → block.Counted

theorem txs_of_blockDeserializeTxs {src : List UInt8} {cursor : UInt64} {i remaining : Nat}
    {txs : List Tx} (loaded : blockDeserializeTxs src cursor i remaining = .ok txs) :
    remaining = txs.length ∧ ∀ tx ∈ txs, tx.Counted := by
  induction remaining generalizing i txs with
  | zero =>
      obtain rfl := Except.ok.inj loaded
      exact ⟨rfl, by simp⟩
  | succ remaining ih =>
      simp only [blockDeserializeTxs, Run.bind_eq_ok, Run.pure_eq_ok, Except.ok.injEq] at loaded
      obtain ⟨tx, txRead, _, _, others, othersRead, rfl⟩ := loaded
      obtain ⟨length_eq, counted⟩ := ih othersRead
      exact ⟨congrArg (· + 1) length_eq,
        List.forall_mem_cons.mpr ⟨(bytes_of_mTxDeserialize txRead).1, counted⟩⟩

/-- Whatever `m_io_load_block` delivers counts what it has. -/
theorem counted_of_mIoLoadBlock {disk : Disk} {hash : Digest} {block : Block}
    (loaded : mIoLoadBlock disk hash = .ok (some block)) : block.Counted := by
  obtain ⟨content, _, _, read⟩ := mIoLoadBlock_eq_some.mp loaded
  simp only [mBlockDeserialize, Run.bind_eq_ok, Run.pure_eq_ok, Except.ok.injEq] at read
  obtain ⟨header, _, txs, txsRead, rfl⟩ := read
  obtain ⟨length_eq, counted⟩ := txs_of_blockDeserializeTxs txsRead
  exact ⟨length_eq, counted⟩

theorem Disk.store_counted (disk : Disk) (loadNthTxOutput : Digest → UInt16 → Option TxOutput)
    (blockAtHeight : UInt64 → Digest) : (disk.store loadNthTxOutput blockAtHeight).Counted :=
  fun _ _ loaded => counted_of_mIoLoadBlock loaded

theorem errTxDoublespend_ne_zero : errTxDoublespend ≠ 0 := by decide

/-- How the walk over the ancestors returns: at height 0, at the first block that spends the output,
or, past a block that does not, from the one before it. -/
inductive WalkReturns (store : Store) (input : TxInput) : UInt32 → Digest → UInt8 → Prop
  | done (hash : Digest) : WalkReturns store input 0 hash 0
  | spent {height : UInt32} {hash : Digest} {block : Block} : height ≠ 0 →
      store.loadBlock hash = .ok (some block) → block.Scan 0 input 0 0 block.txs none →
      WalkReturns store input height hash errTxDoublespend
  | passed {height : UInt32} {hash : Digest} {block : Block} {code : UInt8} : height ≠ 0 →
      store.loadBlock hash = .ok (some block) → block.Scan 0 input 0 0 block.txs (some 0) →
      WalkReturns store input (block.header.height - 1) block.header.prevHash code →
      WalkReturns store input height hash code

theorem walkReturns_zero_height_iff {store : Store} {input : TxInput} {hash : Digest}
    {code : UInt8} : WalkReturns store input 0 hash code ↔ code = 0 := by
  constructor
  · intro returns
    generalize bottom : (0 : UInt32) = height at returns
    cases returns with
    | done => rfl
    | spent above _ _ => exact absurd bottom.symm above
    | passed above _ _ _ => exact absurd bottom.symm above
  · rintro rfl
    exact .done hash

/-- How the walk returns from a block it has loaded. -/
theorem walkReturns_iff_of_loaded {store : Store} {input : TxInput} {height : UInt32}
    {hash : Digest} {block : Block} {code : UInt8} (above : height ≠ 0)
    (loaded : store.loadBlock hash = .ok (some block)) :
    WalkReturns store input height hash code ↔
      (code = errTxDoublespend ∧ block.Scan 0 input 0 0 block.txs none) ∨
        (block.Clears 0 input ∧
          WalkReturns store input (block.header.height - 1) block.header.prevHash code) := by
  constructor
  · intro returns
    cases returns with
    | done => exact absurd rfl above
    | spent _ other scan =>
        obtain rfl := Option.some.inj (Except.ok.inj (other.symm.trans loaded))
        exact .inl ⟨rfl, scan⟩
    | passed _ other scan rest =>
        obtain rfl := Option.some.inj (Except.ok.inj (other.symm.trans loaded))
        exact .inr ⟨(Block.scan_zero_iff _ _).mp scan, rest⟩
  · rintro (⟨rfl, scan⟩ | ⟨clears, rest⟩)
    · exact .spent above loaded scan
    · exact .passed above loaded ((Block.scan_zero_iff _ _).mpr clears) rest

/-- The walk passes a block: it is not at height 0, and the block is stored and shows no spend. -/
def WalkStep (store : Store) (input : TxInput) (before after : UInt32 × Digest) : Prop :=
  before.1 ≠ 0 ∧ ∃ block, store.loadBlock before.2 = .ok (some block) ∧ block.Clears 0 input ∧
    after = (block.header.height - 1, block.header.prevHash)

/-- The walk stops with a code: at height 0, or at a stored block that reveals a spend. -/
def WalkStops (store : Store) (input : TxInput) (state : UInt32 × Digest) (code : UInt8) : Prop :=
  (state.1 = 0 ∧ code = 0) ∨ (state.1 ≠ 0 ∧ code = errTxDoublespend ∧
    ∃ block, store.loadBlock state.2 = .ok (some block) ∧ block.Reveals 0 input)

theorem exists_stop_of_walkReturns {store : Store} {input : TxInput} {height : UInt32}
    {hash : Digest} {code : UInt8} (returns : WalkReturns store input height hash code) :
    ∃ last, Relation.ReflTransGen (WalkStep store input) (height, hash) last ∧
      WalkStops store input last code := by
  induction returns with
  | done hash => exact ⟨_, .refl, .inl ⟨rfl, rfl⟩⟩
  | spent above loaded scan =>
      exact ⟨_, .refl, .inr ⟨above, rfl, _, loaded, Block.scan_none_iff.mp scan⟩⟩
  | passed above loaded scan _ ih =>
      obtain ⟨last, walk, stops⟩ := ih
      have clears := (Block.scan_zero_iff _ _).mp scan
      exact ⟨last, .head ⟨above, _, loaded, clears, rfl⟩ walk, stops⟩

theorem walkReturns_of_stop {store : Store} {input : TxInput} {state last : UInt32 × Digest}
    {code : UInt8} (walk : Relation.ReflTransGen (WalkStep store input) state last)
    (stops : WalkStops store input last code) :
    WalkReturns store input state.1 state.2 code := by
  induction walk using Relation.ReflTransGen.head_induction_on with
  | refl =>
      obtain ⟨height, hash⟩ := last
      rcases stops with ⟨bottom, rfl⟩ | ⟨above, rfl, block, loaded, reveals⟩
      · obtain rfl : height = 0 := bottom
        exact .done hash
      · exact .spent above loaded (Block.scan_none_iff.mpr reveals)
  | head step _ ih =>
      obtain ⟨above, block, loaded, clears, rfl⟩ := step
      exact .passed above loaded ((Block.scan_zero_iff _ _).mpr clears) ih

/-- The walk returns a code exactly when it gets to where it stops with it. -/
theorem walkReturns_iff_exists {store : Store} {input : TxInput} {height : UInt32} {hash : Digest}
    {code : UInt8} :
    WalkReturns store input height hash code ↔
      ∃ last, Relation.ReflTransGen (WalkStep store input) (height, hash) last ∧
        WalkStops store input last code :=
  ⟨exists_stop_of_walkReturns, fun ⟨_, walk, stops⟩ => walkReturns_of_stop walk stops⟩

section Walk

variable {store : Store} (counted : store.Counted) {input : TxInput}

include counted

/-- The scan of a stored block, as the walk runs it. -/
theorem scanTxs_loaded_iff {hash : Digest} {block : Block}
    (loaded : store.loadBlock hash = .ok (some block)) (outcome : Option UInt8) :
    scanTxs 0 block.txs input 0 block.header.txCount.toNat 0 = .ok outcome ↔
      block.Scan 0 input 0 0 block.txs (outcome.map UInt8.toNat) := by
  rw [(counted hash block loaded).txs]
  exact block.scanTxs_eq_ok_iff (by decide) input (Nat.zero_add _) le_rfl

theorem walkReturns_of_ancestorWalk {fuel : Nat} {height : UInt32} {hash : Digest} {code : UInt8}
    (returned : ancestorWalk store input fuel height hash = .ok code) :
    WalkReturns store input height hash code := by
  induction fuel generalizing height hash with
  | zero =>
      rw [ancestorWalk] at returned
      split at returned
      · rename_i bottom
        obtain rfl := Except.ok.inj returned
        exact bottom ▸ .done hash
      · cases returned
  | succ fuel ih =>
      rw [ancestorWalk] at returned
      split at returned
      · rename_i bottom
        obtain rfl := Except.ok.inj returned
        exact bottom ▸ .done hash
      · rename_i above
        obtain ⟨result, loaded, rest⟩ := Run.bind_eq_ok.mp returned
        cases result with
        | none => cases rest
        | some block =>
            obtain ⟨outcome, scanned, rest⟩ := Run.bind_eq_ok.mp rest
            have scan := (scanTxs_loaded_iff counted loaded outcome).mp scanned
            cases outcome with
            | none =>
                obtain rfl := Except.ok.inj rest
                exact .spent above loaded scan
            | some spends =>
                obtain ⟨_, _, bounded, _⟩ := scan.of_some (by decide) le_rfl
                rw [Option.map_some, Nat.le_zero.mp bounded] at scan
                exact .passed above loaded scan (ih rest)

theorem ancestorWalk_spent {height : UInt32} {hash : Digest} {block : Block} (above : height ≠ 0)
    (loaded : store.loadBlock hash = .ok (some block))
    (scan : block.Scan 0 input 0 0 block.txs none) (fuel : Nat) :
    ancestorWalk store input (fuel + 1) height hash = .ok errTxDoublespend := by
  have scanned := (scanTxs_loaded_iff counted loaded none).mpr scan
  rw [ancestorWalk, if_neg above]
  simp only [loaded, Run.ok_bind, scanned, Run.pure_eq_ok]

theorem ancestorWalk_passed {height : UInt32} {hash : Digest} {block : Block} (above : height ≠ 0)
    (loaded : store.loadBlock hash = .ok (some block))
    (scan : block.Scan 0 input 0 0 block.txs (some 0)) (fuel : Nat) :
    ancestorWalk store input (fuel + 1) height hash =
      ancestorWalk store input fuel (block.header.height - 1) block.header.prevHash := by
  have scanned := (scanTxs_loaded_iff counted loaded (some 0)).mpr scan
  rw [ancestorWalk, if_neg above]
  simp only [loaded, Run.ok_bind, scanned]

/-- The walk returns with every budget that is large enough. -/
theorem exists_ancestorWalk {height : UInt32} {hash : Digest} {code : UInt8}
    (returns : WalkReturns store input height hash code) :
    ∃ enough, ∀ fuel, enough ≤ fuel → ancestorWalk store input fuel height hash = .ok code := by
  induction returns with
  | done hash =>
      refine ⟨0, fun fuel _ => ?_⟩
      cases fuel with
      | zero => rfl
      | succ fuel => rfl
  | spent above loaded scan =>
      refine ⟨1, fun fuel budget => ?_⟩
      obtain ⟨fuel, rfl⟩ := Nat.exists_eq_add_of_le' budget
      exact ancestorWalk_spent counted above loaded scan fuel
  | passed above loaded scan _ ih =>
      obtain ⟨enough, returned⟩ := ih
      refine ⟨enough + 1, fun fuel budget => ?_⟩
      obtain ⟨fuel, rfl⟩ := Nat.exists_eq_add_of_le' (Nat.le_of_add_left_le budget)
      exact (ancestorWalk_passed counted above loaded scan fuel).trans
        (returned fuel (Nat.le_of_succ_le_succ budget))

/-- A walk that returns has no other result than the code, whatever the budget. -/
theorem ancestorWalk_of_walkReturns {height : UInt32} {hash : Digest} {code : UInt8}
    (returns : WalkReturns store input height hash code) (fuel : Nat) :
    ancestorWalk store input fuel height hash = .ok code ∨
      ancestorWalk store input fuel height hash = .error .outOfFuel := by
  induction returns generalizing fuel with
  | done hash =>
      cases fuel with
      | zero => exact .inl rfl
      | succ fuel => exact .inl rfl
  | spent above loaded scan =>
      cases fuel with
      | zero => exact .inr (if_neg above)
      | succ fuel => exact .inl (ancestorWalk_spent counted above loaded scan fuel)
  | passed above loaded scan _ ih =>
      cases fuel with
      | zero => exact .inr (if_neg above)
      | succ fuel =>
          rw [ancestorWalk_passed counted above loaded scan]
          exact ih fuel

end Walk

/-! ## The whole check of an input -/

/-- How `validate_tx_input_chain` returns: from the scan of the block itself, or from the walk. -/
inductive InputCheckReturns (store : Store) (input : TxInput) (parent : Block) : UInt8 → Prop
  | spent : parent.Scan 1 input 0 0 parent.txs none →
      InputCheckReturns store input parent errTxDoublespend
  | passed {spends : Nat} {code : UInt8} : parent.Scan 1 input 0 0 parent.txs (some spends) →
      WalkReturns store input (parent.header.height - 1) parent.header.prevHash code →
      InputCheckReturns store input parent code

theorem inputCheckReturns_iff {store : Store} {input : TxInput} {parent : Block} {code : UInt8} :
    InputCheckReturns store input parent code ↔
      (code = errTxDoublespend ∧ parent.Scan 1 input 0 0 parent.txs none) ∨
        (parent.Clears 1 input ∧
          WalkReturns store input (parent.header.height - 1) parent.header.prevHash code) := by
  rw [← Block.exists_scan_some_iff]
  constructor
  · intro returns
    cases returns with
    | spent scan => exact .inl ⟨rfl, scan⟩
    | passed scan rest => exact .inr ⟨⟨_, scan⟩, rest⟩
  · rintro (⟨rfl, scan⟩ | ⟨⟨_, scan⟩, rest⟩)
    · exact .spent scan
    · exact .passed scan rest

/-- The walk from a block to where it has nothing more to load. -/
def Block.Walks (parent : Block) (store : Store) (input : TxInput) (last : UInt32 × Digest) :
    Prop :=
  Relation.ReflTransGen (WalkStep store input) (parent.header.height - 1, parent.header.prevHash)
    last

/-- The block clears the input, and so does every block of the walk down to height 0. -/
def Block.Passes (parent : Block) (store : Store) (input : TxInput) : Prop :=
  parent.Clears 1 input ∧ ∃ last, parent.Walks store input last ∧ last.1 = 0

/-- The block reveals a second spend, or clears the input and the walk gets to a block, not at
height 0, that reveals one. -/
def Block.Catches (parent : Block) (store : Store) (input : TxInput) : Prop :=
  parent.Reveals 1 input ∨ parent.Clears 1 input ∧
    ∃ last, parent.Walks store input last ∧ last.1 ≠ 0 ∧
      ∃ block, store.loadBlock last.2 = .ok (some block) ∧ block.Reveals 0 input

section Verdicts

variable {store : Store} {input : TxInput} {parent : Block}

theorem inputCheckReturns_zero_iff :
    InputCheckReturns store input parent 0 ↔ parent.Passes store input := by
  rw [inputCheckReturns_iff, walkReturns_iff_exists]
  constructor
  · rintro (⟨code, _⟩ | ⟨clears, last, walk, ⟨bottom, _⟩ | ⟨_, code, _⟩⟩)
    · exact absurd code.symm errTxDoublespend_ne_zero
    · exact ⟨clears, last, walk, bottom⟩
    · exact absurd code.symm errTxDoublespend_ne_zero
  · rintro ⟨clears, last, walk, bottom⟩
    exact .inr ⟨clears, last, walk, .inl ⟨bottom, rfl⟩⟩

theorem inputCheckReturns_doublespend_iff :
    InputCheckReturns store input parent errTxDoublespend ↔ parent.Catches store input := by
  rw [inputCheckReturns_iff, walkReturns_iff_exists, Block.scan_none_iff]
  constructor
  · rintro (⟨_, reveals⟩ | ⟨clears, last, walk, ⟨_, code⟩ | ⟨above, _, block, spent⟩⟩)
    · exact .inl reveals
    · exact absurd code errTxDoublespend_ne_zero
    · exact .inr ⟨clears, last, walk, above, block, spent⟩
  · rintro (reveals | ⟨clears, last, walk, above, block, spent⟩)
    · exact .inl ⟨rfl, reveals⟩
    · exact .inr ⟨clears, last, walk, .inr ⟨above, rfl, block, spent⟩⟩

end Verdicts

section Check

variable {store : Store} {input : TxInput} {parent : Block}
  (count : parent.header.txCount.toNat = parent.txs.length)

include count

/-- The scan of the block itself, as the function runs it. -/
theorem scanTxs_parent_iff (outcome : Option UInt8) :
    scanTxs 1 parent.txs input 0 parent.header.txCount.toNat 0 = .ok outcome ↔
      parent.Scan 1 input 0 0 parent.txs (outcome.map UInt8.toNat) := by
  rw [count]
  exact parent.scanTxs_eq_ok_iff (by decide) input (Nat.zero_add _) (by decide)

theorem validateTxInputChain_of_scan_none (scan : parent.Scan 1 input 0 0 parent.txs none)
    (fuel : Nat) : validateTxInputChain store fuel input parent = .ok errTxDoublespend := by
  rw [validateTxInputChain, (scanTxs_parent_iff count none).mpr scan, Run.ok_bind]
  rfl

theorem validateTxInputChain_of_scan_some {spends : Nat}
    (scan : parent.Scan 1 input 0 0 parent.txs (some spends)) (fuel : Nat) :
    validateTxInputChain store fuel input parent =
      ancestorWalk store input fuel (parent.header.height - 1) parent.header.prevHash := by
  obtain ⟨_, _, bounded, _⟩ := scan.of_some (by decide) (Nat.zero_le 1)
  have outcome : (some (UInt8.ofNat spends)).map UInt8.toNat = some spends := by
    rw [Option.map_some, UInt8.toNat_ofNat_of_lt' (by rw [UInt8.size]; omega)]
  rw [validateTxInputChain, (scanTxs_parent_iff count _).mpr (outcome.symm ▸ scan), Run.ok_bind]

/-- A check that returns has no other result than the code, whatever the budget. -/
theorem validateTxInputChain_of_returns (counted : store.Counted) {code : UInt8}
    (returns : InputCheckReturns store input parent code) (fuel : Nat) :
    validateTxInputChain store fuel input parent = .ok code ∨
      validateTxInputChain store fuel input parent = .error .outOfFuel := by
  cases returns with
  | spent scan => exact .inl (validateTxInputChain_of_scan_none count scan fuel)
  | passed scan walk =>
      rw [validateTxInputChain_of_scan_some count scan]
      exact ancestorWalk_of_walkReturns counted walk fuel

/-- It returns the code with every budget that is large enough. -/
theorem exists_validateTxInputChain (counted : store.Counted) {code : UInt8}
    (returns : InputCheckReturns store input parent code) :
    ∃ enough, ∀ fuel, enough ≤ fuel → validateTxInputChain store fuel input parent = .ok code := by
  cases returns with
  | spent scan => exact ⟨0, fun fuel _ => validateTxInputChain_of_scan_none count scan fuel⟩
  | passed scan walk =>
      obtain ⟨enough, walked⟩ := exists_ancestorWalk counted walk
      exact ⟨enough, fun fuel budget =>
        (validateTxInputChain_of_scan_some count scan fuel).trans (walked fuel budget)⟩

/-- `validate_tx_input_chain` returns a code, with enough budget, exactly in the listed ways. -/
theorem exists_validateTxInputChain_iff (counted : store.Counted) {code : UInt8} :
    (∃ fuel, validateTxInputChain store fuel input parent = .ok code) ↔
      InputCheckReturns store input parent code := by
  constructor
  · rintro ⟨fuel, returned⟩
    obtain ⟨outcome, scanned, rest⟩ := Run.bind_eq_ok.mp returned
    have scan := (scanTxs_parent_iff count outcome).mp scanned
    cases outcome with
    | none =>
        obtain rfl := Except.ok.inj rest
        exact .spent scan
    | some spends => exact .passed scan (walkReturns_of_ancestorWalk counted rest)
  · intro returns
    obtain ⟨enough, returned⟩ := exists_validateTxInputChain count counted returns
    exact ⟨enough, returned enough le_rfl⟩

end Check

end Freecoin
