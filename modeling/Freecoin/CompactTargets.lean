import Freecoin.ProofOfWork

/-!
# Compact targets

A compact target is the leading byte of a number with its position.  `btarget_to_target` looks for
that byte from the top, but its test is the wrong way round: it stops at the first zero byte, and
when there is none it returns without having assigned anything.
-/

namespace Freecoin

open Foundation

/-- A compact target names the highest nonzero byte of a number, counted from one, and so brackets
the number. -/
structure Target.Leads (target : Target) (btarget : List UInt8) : Prop where
  position : IsGreatest { e | 1 ≤ e ∧ e ≤ 32 ∧ btarget.getD (e - 1) 0 ≠ 0 } target.exponent.toNat
  byte : target.mantissa = btarget.getD (target.exponent.toNat - 1) 0
  below : target.mantissa.toNat * 256 ^ (target.exponent.toNat - 1) ≤ bigValue btarget
  above : bigValue btarget < (target.mantissa.toNat + 1) * 256 ^ (target.exponent.toNat - 1)

/-- `btarget_to_target` yields the leading byte of a number and its position. -/
def ExtractsLeading (btarget : Bytes 32) (prior : Target) : Prop :=
  ∃ target, btargetToTarget btarget.toList prior = .ok target ∧ target.Leads btarget.toList

/-- Expanding a target into a zeroed number and extracting it again gives it back. -/
def TargetRoundTrips (target prior : Target) : Prop :=
  ∃ btarget, targetToBtarget target (List.replicate 32 0) = .ok btarget ∧
    btargetToTarget btarget prior = .ok target

/-- The compact values of two numbers are in order. -/
def CompactOrdered (left right : Bytes 32) (leftPrior rightPrior : Target) : Prop :=
  ∃ leftTarget rightTarget, btargetToTarget left.toList leftPrior = .ok leftTarget ∧
    btargetToTarget right.toList rightPrior = .ok rightTarget ∧
    leftTarget.value ≤ rightTarget.value

/-- None of the bytes the loop looks at is zero. -/
def FullAbove (btarget : List UInt8) : Prop :=
  ∀ i, 1 ≤ i → i ≤ 31 → btarget.getD i 0 ≠ 0

/-! ## The loop -/

theorem btargetToTargetLoop_of_nonzero {btarget : List UInt8} {i : Nat}
    (nonzero : ∀ k, 1 ≤ k → k ≤ i → btarget.getD k 0 ≠ 0) (prior : Target) :
    btargetToTargetLoop btarget prior i = prior := by
  induction i with
  | zero => rfl
  | succ i ih =>
      rw [btargetToTargetLoop, if_neg (nonzero (i + 1) (by omega) le_rfl)]
      exact ih fun k low high => nonzero k low (by omega)

theorem mantissa_btargetToTargetLoop {btarget : List UInt8} {i k : Nat} (low : 1 ≤ k) (high : k ≤ i)
    (zero : btarget.getD k 0 = 0) (prior : Target) :
    (btargetToTargetLoop btarget prior i).mantissa = 0 := by
  induction i with
  | zero => omega
  | succ i ih =>
      rw [btargetToTargetLoop]
      by_cases here : btarget.getD (i + 1) 0 = 0
      · rw [if_pos here]
        exact here
      · rw [if_neg here]
        apply ih
        by_contra beyond
        rw [show k = i + 1 by omega] at zero
        exact here zero

theorem btargetToTarget_of_full {btarget : List UInt8} (size_eq : btarget.length = 32)
    (full : FullAbove btarget) (prior : Target) : btargetToTarget btarget prior = .ok prior := by
  rw [btargetToTarget, if_neg (by omega), btargetToTargetLoop_of_nonzero full]

theorem exists_btargetToTarget_of_zero {btarget : List UInt8} (size_eq : btarget.length = 32)
    {k : Nat} (low : 1 ≤ k) (high : k ≤ 31) (zero : btarget.getD k 0 = 0) (prior : Target) :
    ∃ target, btargetToTarget btarget prior = .ok target ∧ target.mantissa = 0 := by
  refine ⟨btargetToTargetLoop btarget prior 31, ?_, mantissa_btargetToTargetLoop low high zero _⟩
  rw [btargetToTarget, if_neg (by omega)]

/-- The loop leaves the destination alone, or stores a mantissa of zero. -/
theorem btargetToTarget_cases {btarget : List UInt8} (size_eq : btarget.length = 32)
    (prior : Target) :
    (FullAbove btarget ∧ btargetToTarget btarget prior = .ok prior) ∨
      ¬ FullAbove btarget ∧
        ∃ target, btargetToTarget btarget prior = .ok target ∧ target.mantissa = 0 := by
  by_cases full : FullAbove btarget
  · exact Or.inl ⟨full, btargetToTarget_of_full size_eq full prior⟩
  · refine Or.inr ⟨full, ?_⟩
    simp only [FullAbove, not_forall, not_not] at full
    obtain ⟨k, low, high, zero⟩ := full
    exact exists_btargetToTarget_of_zero size_eq low high zero prior

/-! ## Extraction -/

theorem Target.Leads.mantissa_ne_zero {target : Target} {btarget : List UInt8}
    (leads : target.Leads btarget) : target.mantissa ≠ 0 := by
  rw [leads.byte]
  exact leads.position.1.2.2

/-- With its top byte nonzero a number is led by that byte. -/
theorem leads_top {btarget : List UInt8} (size_eq : btarget.length = 32)
    (top : btarget.getD 31 0 ≠ 0) :
    (⟨btarget.getD 31 0, 32⟩ : Target).Leads btarget := by
  have inside : 31 < btarget.length := by omega
  have byte : btarget.getD 31 0 = btarget[31] := by simp [inside]
  have value : bigValue btarget =
      bigValue (btarget.take 31) + (btarget.getD 31 0).toNat * 256 ^ 31 := by
    conv_lhs => rw [← List.take_append_drop 31 btarget]
    rw [bigValue_append, List.drop_eq_getElem_cons inside, bigValue_cons,
      List.drop_eq_nil_of_le (by omega), List.length_take_of_le (by omega), byte, bigValue_nil,
      Nat.mul_zero, Nat.add_zero, Nat.mul_comm]
  have low := bigValue_lt (btarget.take 31)
  rw [List.length_take_of_le (by omega)] at low
  have exponent : 1 ≤ (32 : UInt8).toNat ∧ (32 : UInt8).toNat ≤ 32 := by decide
  refine ⟨⟨⟨exponent.1, exponent.2, top⟩, ?_⟩, rfl, ?_, ?_⟩
  · intro e position
    exact position.2.1
  · rw [value]
    exact Nat.le_add_left _ _
  · rw [value]
    change _ < ((btarget.getD 31 0).toNat + 1) * 256 ^ 31
    rw [Nat.add_mul, Nat.one_mul, Nat.add_comm]
    exact Nat.add_lt_add_left low _

theorem eq_of_leads_of_full {target : Target} {btarget : List UInt8}
    (leads : target.Leads btarget) (full : FullAbove btarget) :
    target = ⟨btarget.getD 31 0, 32⟩ := by
  have exponent : target.exponent.toNat = 32 :=
    Nat.le_antisymm leads.position.1.2.1
      (leads.position.2 ⟨by decide, le_rfl, full 31 (by omega) le_rfl⟩)
  have byte := leads.byte
  rw [exponent] at byte
  have exponent_eq : target.exponent = 32 := UInt8.toNat_inj.mp exponent
  cases target with
  | mk mantissa exponent =>
      rw [Target.mk.injEq]
      exact ⟨byte, exponent_eq⟩

theorem extractsLeading_iff_full (btarget : Bytes 32) (prior : Target) :
    ExtractsLeading btarget prior ↔
      FullAbove btarget.toList ∧ prior = ⟨btarget.toList.getD 31 0, 32⟩ := by
  have size_eq : btarget.toList.length = 32 := btarget.toList_length
  constructor
  · rintro ⟨target, returned, leads⟩
    rcases btargetToTarget_cases size_eq prior with ⟨full, kept⟩ | ⟨_, result, stored, zero⟩
    · obtain rfl := Except.ok.inj (kept.symm.trans returned)
      exact ⟨full, eq_of_leads_of_full leads full⟩
    · obtain rfl := Except.ok.inj (stored.symm.trans returned)
      exact absurd zero leads.mantissa_ne_zero
  · rintro ⟨full, rfl⟩
    exact ⟨_, btargetToTarget_of_full size_eq full _, leads_top size_eq (full 31 (by omega) le_rfl)⟩

/-! ## Round trips -/

/-- An expanded target has at most one nonzero byte, so the loop stops at another one. -/
theorem not_targetRoundTrips {target : Target} (mantissa : 1 ≤ target.mantissa.toNat)
    (low : 1 ≤ target.exponent.toNat) (high : target.exponent.toNat ≤ 32) (prior : Target) :
    ¬ TargetRoundTrips target prior := by
  rintro ⟨btarget, expanded, returned⟩
  rw [targetToBtarget_eq (by simp) low high] at expanded
  obtain rfl := Except.ok.inj expanded
  have zero : ∀ k, k ≠ target.exponent.toNat - 1 →
      ((List.replicate 32 (0 : UInt8)).set (target.exponent.toNat - 1) target.mantissa).getD k 0 =
        0 := by
    intro k other
    rw [List.getD_eq_getElem?_getD, List.getElem?_set_ne other.symm, List.getElem?_replicate]
    split <;> rfl
  obtain ⟨k, lowK, highK, other⟩ : ∃ k, 1 ≤ k ∧ k ≤ 31 ∧ k ≠ target.exponent.toNat - 1 := by
    by_cases first : target.exponent.toNat - 1 = 1
    · exact ⟨2, by omega, by omega, by omega⟩
    · exact ⟨1, by omega, by omega, Ne.symm first⟩
  obtain ⟨result, stored, mantissa_eq⟩ :=
    exists_btargetToTarget_of_zero (by simp) lowK highK (zero k other) prior
  obtain rfl := Except.ok.inj (stored.symm.trans returned)
  rw [mantissa_eq] at mantissa
  exact absurd mantissa (by decide)

/-! ## Order -/

theorem value_of_mantissa {target : Target} (zero : target.mantissa = 0) : target.value = 0 := by
  rw [Target.value, zero]
  exact Nat.zero_mul _

theorem compactOrdered_iff (left right : Bytes 32) (leftPrior rightPrior : Target) :
    CompactOrdered left right leftPrior rightPrior ↔
      ¬ FullAbove left.toList ∨ leftPrior.value = 0 ∨
        FullAbove right.toList ∧ leftPrior.value ≤ rightPrior.value := by
  have yields : ∀ (btarget : Bytes 32) (prior : Target), ∃ target,
      btargetToTarget btarget.toList prior = .ok target ∧
        (FullAbove btarget.toList → target = prior) ∧
        (¬ FullAbove btarget.toList → target.value = 0) := by
    intro btarget prior
    rcases btargetToTarget_cases btarget.toList_length prior with
      ⟨full, kept⟩ | ⟨hollow, target, stored, zero⟩
    · exact ⟨prior, kept, fun _ => rfl, fun hollow => absurd full hollow⟩
    · exact ⟨target, stored, fun full => absurd full hollow, fun _ => value_of_mantissa zero⟩
  obtain ⟨leftTarget, leftReturned, leftFull, leftHollow⟩ := yields left leftPrior
  obtain ⟨rightTarget, rightReturned, rightFull, rightHollow⟩ := yields right rightPrior
  have ordered : CompactOrdered left right leftPrior rightPrior ↔
      leftTarget.value ≤ rightTarget.value := by
    simp [CompactOrdered, leftReturned, rightReturned]
  rw [ordered]
  by_cases full : FullAbove left.toList
  · rw [leftFull full]
    by_cases rightIs : FullAbove right.toList
    · rw [rightFull rightIs]
      simp only [full, rightIs, not_true_eq_false, true_and, false_or]
      omega
    · rw [rightHollow rightIs]
      simp [full, rightIs]
  · simp [leftHollow full, full]

/-! ## The compact value -/

/-- The leading byte is extracted only from the numbers with no zero byte above the lowest, and then
only if the destination held it already; no expanded target is extracted again; and two compact
values are in order when the smaller number has a zero byte above its lowest, so that its value is
zero, or else when what the destinations held allows it. -/
theorem compactTarget_iff (btarget larger : Bytes 32) (target prior largerPrior : Target) :
    (0 < bigValue btarget.toList →
      (ExtractsLeading btarget prior ↔
        FullAbove btarget.toList ∧ prior = ⟨btarget.toList.getD 31 0, 32⟩)) ∧
    (1 ≤ target.mantissa.toNat → 1 ≤ target.exponent.toNat → target.exponent.toNat ≤ 32 →
      ¬ TargetRoundTrips target prior) ∧
    (bigValue btarget.toList ≤ bigValue larger.toList →
      (CompactOrdered btarget larger prior largerPrior ↔
        ¬ FullAbove btarget.toList ∨ prior.value = 0 ∨
          FullAbove larger.toList ∧ prior.value ≤ largerPrior.value)) :=
  ⟨fun _ => extractsLeading_iff_full btarget prior,
    fun mantissa low high => not_targetRoundTrips mantissa low high prior,
    fun _ => compactOrdered_iff btarget larger prior largerPrior⟩

/-- The number 1. -/
def oneTarget : Bytes 32 := ⟨1 :: List.replicate 31 0, rfl⟩

/-- A number without a zero byte. -/
def onesTarget : Bytes 32 := List.Vector.replicate 32 0xff

/-- The number without a zero byte is extracted into a destination that holds it already. -/
theorem compactTarget_onesTarget :
    0 < bigValue onesTarget.toList ∧ ExtractsLeading onesTarget ⟨0xff, 32⟩ := by
  have positive : 0 < bigValue onesTarget.toList := by decide
  have full : FullAbove onesTarget.toList := by
    intro i low high
    interval_cases i <;> decide
  exact ⟨positive, ((compactTarget_iff onesTarget onesTarget ⟨0xff, 32⟩ ⟨0xff, 32⟩
    ⟨0xff, 32⟩).1 positive).mpr ⟨full, rfl⟩⟩

/-- From the number 1 a mantissa of zero and an exponent of 32 are extracted, and the target (1, 1)
that it is the expansion of does not survive the round trip. -/
theorem compactTarget_oneTarget_fails :
    0 < bigValue oneTarget.toList ∧
      (∀ prior, btargetToTarget oneTarget.toList prior = .ok ⟨0, 32⟩) ∧
      (∀ prior, ¬ ExtractsLeading oneTarget prior) ∧
      ∀ prior, ¬ TargetRoundTrips ⟨1, 1⟩ prior := by
  refine ⟨by decide, fun _ => rfl, ?_, ?_⟩
  · intro prior extracts
    have full := ((extractsLeading_iff_full oneTarget prior).mp extracts).1
    exact full 31 (by omega) le_rfl rfl
  · exact fun prior => not_targetRoundTrips (by decide) (by decide) (by decide) prior

end Freecoin
