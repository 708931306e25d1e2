import Freecoin.Retarget

/-!
# Expanding a target

`target_to_btarget` assigns the mantissa to its byte and leaves the other 31 bytes of the
destination as they are.  `validate_block_pseudo` hands it a local array that was never written, and
`chain_compute_next_target` the buffer with the hash of the earlier block, so the number depends on
what was there before.
-/

namespace Freecoin

open Foundation

/-- Whatever the destination held, it holds the number of the target afterwards. -/
def ExpandsExactly (target : Target) (prior : Digest) : Prop :=
  ∃ btarget, targetToBtarget target prior.toList = .ok btarget ∧ bigValue btarget = target.value

/-- `validate_block_pseudo` and `chain_compute_next_target` expand their targets to one number. -/
def ExpansionsAgree (leftovers : PseudoLeftovers) (block : Block) (call : RetargetCall) : Prop :=
  ∃ left right, targetToBtarget block.header.target leftovers.hashBuffer1.toList = .ok left ∧
    targetToBtarget call.headerB.target call.earlier.toList = .ok right ∧
    bigValue left = bigValue right

/-- Two digests agree in every byte but one. -/
def AgreeOutside (index : Nat) (left right : Digest) : Prop :=
  ∀ i < 32, i ≠ index → left.toList.getD i 0 = right.toList.getD i 0

/-- The digest of zeros. -/
def zeroBytes : Digest := List.Vector.replicate 32 0

theorem Target.length_expand (target : Target) (buffer : Digest) :
    (target.expand buffer).length = 32 := by
  rw [Target.expand, List.length_set, buffer.toList_length]

/-- Two expansions are one number exactly if the buffers agree in the bytes that are not
assigned. -/
theorem bigValue_expand_eq_iff (target : Target) (left right : Digest) :
    bigValue (target.expand left) = bigValue (target.expand right) ↔
      AgreeOutside (target.exponent.toNat - 1) left right := by
  have leftLength : left.toList.length = 32 := left.toList_length
  have rightLength : right.toList.length = 32 := right.toList_length
  have length_eq : (target.expand left).length = (target.expand right).length := by
    rw [Target.length_expand, Target.length_expand]
  constructor
  · intro value_eq i inside elsewhere
    have byte := congrArg (·.getD i 0) (bigValue_injective length_eq value_eq)
    simpa [Target.expand, List.getElem?_set_ne (Ne.symm elsewhere)] using byte
  · intro agree
    refine congrArg bigValue (List.ext_getElem length_eq fun i insideLeft _ => ?_)
    rw [Target.length_expand] at insideLeft
    by_cases assigned : target.exponent.toNat - 1 = i
    · simp [Target.expand, assigned]
    · have byte := agree i insideLeft (Ne.symm assigned)
      simpa [Target.expand, List.getElem_set_ne assigned, leftLength, rightLength, insideLeft]
        using byte

section Expansion

variable {target : Target} (low : 1 ≤ target.exponent.toNat) (high : target.exponent.toNat ≤ 32)

include low high

theorem targetToBtarget_eq_expand (buffer : Digest) :
    targetToBtarget target buffer.toList = .ok (target.expand buffer) :=
  targetToBtarget_eq buffer.toList_length low high

theorem expandsExactly_iff_zero (prior : Digest) :
    ExpandsExactly target prior ↔ AgreeOutside (target.exponent.toNat - 1) prior zeroBytes := by
  rw [← bigValue_expand_eq_iff target, zeroBytes, Target.bigValue_expand_zero low high]
  constructor
  · rintro ⟨btarget, expanded, value_eq⟩
    rw [targetToBtarget_eq_expand low high] at expanded
    rwa [Except.ok.inj expanded]
  · intro value_eq
    exact ⟨_, targetToBtarget_eq_expand low high prior, value_eq⟩

end Expansion

theorem expansionsAgree_iff_agree {leftovers : PseudoLeftovers} {block : Block}
    {call : RetargetCall} (low : 1 ≤ block.header.target.exponent.toNat)
    (high : block.header.target.exponent.toNat ≤ 32)
    (same : call.headerB.target = block.header.target) :
    ExpansionsAgree leftovers block call ↔
      AgreeOutside (block.header.target.exponent.toNat - 1) leftovers.hashBuffer1 call.earlier := by
  rw [← bigValue_expand_eq_iff, ExpansionsAgree, same]
  simp only [targetToBtarget_eq_expand low high, Except.ok.injEq, exists_and_left, exists_eq_left']

/-- With an exponent that names one of the 32 bytes, the destination holds the number of the target
afterwards exactly if its other bytes were zero, and `validate_block_pseudo` and
`chain_compute_next_target` expand one target to one number exactly if the other bytes of their
buffers are the same. -/
theorem targetExpansion_iff (leftovers : PseudoLeftovers) (block : Block) (call : RetargetCall)
    (prior : Digest) (low : 1 ≤ block.header.target.exponent.toNat)
    (high : block.header.target.exponent.toNat ≤ 32)
    (same : call.headerB.target = block.header.target) :
    (ExpandsExactly block.header.target prior ↔
      AgreeOutside (block.header.target.exponent.toNat - 1) prior zeroBytes) ∧
    (ExpansionsAgree leftovers block call ↔
      AgreeOutside (block.header.target.exponent.toNat - 1) leftovers.hashBuffer1 call.earlier) :=
  ⟨expandsExactly_iff_zero low high prior, expansionsAgree_iff_agree low high same⟩

/-- A retarget of the easiest target, with the given hash of the earlier block. -/
def easyRetarget (earlier : Digest) : RetargetCall where
  store := { steadyStore with blockAtHeight := fun _ => earlier }
  headerA := easyBlock.header
  headerB := { easyBlock.header with height := 144 }
  loaded := some easyBlock.header
  beyond := by decide
  multiple := by decide
  load := rfl

/-- In zeroed buffers the expansion is exact. -/
theorem targetExpansion_zeroBytes :
    ExpandsExactly easyBlock.header.target zeroBytes ∧
      ExpansionsAgree zeroLeftovers easyBlock (easyRetarget zeroBytes) := by
  obtain ⟨exact_iff, agree_iff⟩ := targetExpansion_iff zeroLeftovers easyBlock
    (easyRetarget zeroBytes) zeroBytes (by decide) (by decide) rfl
  exact ⟨exact_iff.mpr fun _ _ _ => rfl, agree_iff.mpr fun _ _ _ => rfl⟩

/-- A hash without a zero byte is left in the number. -/
theorem targetExpansion_fails :
    ¬ ExpandsExactly easyBlock.header.target (List.Vector.replicate 32 0xff) ∧
      ¬ ExpansionsAgree zeroLeftovers easyBlock (easyRetarget (List.Vector.replicate 32 0xff)) := by
  refine ⟨?_, ?_⟩
  · rw [expandsExactly_iff_zero (by decide) (by decide)]
    intro zeros
    exact absurd (zeros 0 (by decide) (by decide)) (by decide)
  · rw [expansionsAgree_iff_agree (by decide) (by decide) rfl]
    intro agree
    exact absurd (agree 0 (by decide) (by decide)) (by decide)

end Freecoin
