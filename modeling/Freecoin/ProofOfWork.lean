import Freecoin.Sha256
import Freecoin.Validation

/-!
# The proof-of-work test

`validate_block_pseudo` sets one byte of a buffer nobody cleared, compares the result with the
block hash without the lowest bytes, and rejects when the target is the greater of the two.
-/

namespace Freecoin

open Foundation

/-- The number a compact target stands for. -/
def Target.value (target : Target) : Nat :=
  target.mantissa.toNat * 256 ^ (target.exponent.toNat - 1)

/-- The target byte set in a buffer. -/
def Target.expand (target : Target) (buffer : Digest) : List UInt8 :=
  buffer.toList.set (target.exponent.toNat - 1) target.mantissa

/-- The block hash, as the number `big_comp` takes it for. -/
def Block.hashValue (sha256 : List UInt8 → Digest) (block : Block) : Nat :=
  bigValue (blockComputeHash sha256 block).toList

section Codes

variable {primitives : Primitives}

theorem validateTxInputPseudo_code {signable : Nat → UInt8} {input : TxInput} {parent : Tx}
    {code : UInt8} (returned : validateTxInputPseudo primitives signable input parent = .ok code) :
    code = 0 ∨ code = errTxBadSig := by
  simp only [validateTxInputPseudo, Run.bind_eq_ok] at returned
  obtain ⟨message, _, verdict⟩ := returned
  split at verdict
  · exact Or.inr (Except.ok.inj verdict).symm
  · exact Or.inl (Except.ok.inj verdict).symm

theorem validateTxPseudo_code {signable : Nat → Nat → UInt8} {tx : Tx} {code : UInt8}
    (returned : validateTxPseudo primitives signable tx = .ok code) :
    code = 0 ∨ code = errTxBadSurplus ∨ code = errTxBadSig := by
  rw [validateTxPseudo] at returned
  split at returned
  · exact Or.inr (Or.inl (Except.ok.inj returned).symm)
  · by_cases passed : code = 0
    · exact Or.inl passed
    · obtain ⟨index, checked⟩ := checkRange_code returned passed
      simp only [Run.bind_eq_ok] at checked
      obtain ⟨input, _, verdict⟩ := checked
      exact Or.inr (Or.inr ((validateTxInputPseudo_code verdict).resolve_left passed))

end Codes

/-- What `validate_block_pseudo` does after the hash test. -/
def validateBlockBody (primitives : Primitives) (leftovers : PseudoLeftovers) (block : Block) :
    Run UInt8 := do
  if block.header.version ≠ currentVersion then return errBlockBadVersion
  let root ← computeMerkleRoot primitives.sha256 block.txs block.header.txCount leftovers.txBuffer
  if root ≠ block.header.merkleRoot then return errBlockBadRoot
  if block.header.txCount > 0 then
    checkRange
      (fun i => do
        let tx ← fetch block.txs i
        validateTxPseudo primitives (leftovers.signable i) tx)
      0 block.header.txCount.toNat
  else
    return 0

section Verdict

variable (primitives : Primitives) (leftovers : PseudoLeftovers)

theorem validateBlockBody_ne_badHash (block : Block) :
    validateBlockBody primitives leftovers block ≠ .ok errBlockBadHash := by
  intro returned
  rw [validateBlockBody] at returned
  split at returned
  · exact absurd (Except.ok.inj returned) (by decide)
  · simp only [Run.bind_eq_ok] at returned
    obtain ⟨root, _, verdict⟩ := returned
    split at verdict
    · exact absurd (Except.ok.inj verdict) (by decide)
    · split at verdict
      · obtain ⟨index, checked⟩ := checkRange_code verdict (by decide)
        simp only [Run.bind_eq_ok] at checked
        obtain ⟨tx, _, code⟩ := checked
        rcases validateTxPseudo_code code with code_eq | code_eq | code_eq <;>
          exact absurd code_eq (by decide)
      · exact absurd (Except.ok.inj verdict) (by decide)

variable {block : Block}

/-- The hash test rejects when the expanded target is the greater number, lowest bytes aside. -/
theorem validateBlockPseudo_eq (low : 1 ≤ block.header.target.exponent.toNat)
    (high : block.header.target.exponent.toNat ≤ 32) :
    validateBlockPseudo primitives leftovers block =
      if block.hashValue primitives.sha256 / 256 <
          bigValue (block.header.target.expand leftovers.hashBuffer1) / 256 then
        .ok errBlockBadHash
      else
        validateBlockBody primitives leftovers block := by
  have size_eq : leftovers.hashBuffer1.toList.length = 32 := leftovers.hashBuffer1.toList_length
  have expanded : targetToBtarget block.header.target leftovers.hashBuffer1.toList =
      .ok (block.header.target.expand leftovers.hashBuffer1) := targetToBtarget_eq size_eq low high
  have width : (block.header.target.expand leftovers.hashBuffer1).length = 32 := by
    rw [Target.expand, List.length_set, size_eq]
  have hashWidth : (blockComputeHash primitives.sha256 block).toList.length = 32 :=
    List.Vector.toList_length _
  obtain ⟨order, compared, _, order_iff⟩ :=
    exists_bigComp (width.trans hashWidth.symm) (by omega) (by omega)
  rw [validateBlockPseudo, expanded, Run.ok_bind]
  simp only [compared, Run.ok_bind, gt_iff_lt, order_iff]
  rfl

theorem validateBlockPseudo_eq_badHash (low : 1 ≤ block.header.target.exponent.toNat)
    (high : block.header.target.exponent.toNat ≤ 32) :
    validateBlockPseudo primitives leftovers block = .ok errBlockBadHash ↔
      block.hashValue primitives.sha256 / 256 <
        bigValue (block.header.target.expand leftovers.hashBuffer1) / 256 := by
  rw [validateBlockPseudo_eq primitives leftovers low high]
  split
  · rename_i greater
    exact iff_of_true rfl greater
  · rename_i notGreater
    exact iff_of_false (validateBlockBody_ne_badHash primitives leftovers block) notGreater

end Verdict

/-! ## Soundness and completeness -/

/-- The verdict on the hash is the documented one. -/
def HashJudged (primitives : Primitives) (leftovers : PseudoLeftovers) (block : Block) : Prop :=
  validateBlockPseudo primitives leftovers block = .ok errBlockBadHash ↔
    block.header.target.value < block.hashValue primitives.sha256

theorem Target.value_le_expand {target : Target} (buffer : Digest)
    (low : 1 ≤ target.exponent.toNat) (high : target.exponent.toNat ≤ 32) :
    target.value ≤ bigValue (target.expand buffer) := by
  have inside : target.exponent.toNat - 1 < buffer.toList.length := by
    rw [List.Vector.toList_length]
    omega
  exact le_bigValue_set target.mantissa inside

/-- The test is right in two cases: a hash above the target that is still below the expanded one,
and a hash within the target that agrees with the expanded one. -/
theorem hashJudged_iff (primitives : Primitives) (leftovers : PseudoLeftovers) {block : Block}
    (low : 1 ≤ block.header.target.exponent.toNat)
    (high : block.header.target.exponent.toNat ≤ 32) :
    HashJudged primitives leftovers block ↔
      (block.header.target.value < block.hashValue primitives.sha256 ∧
        block.hashValue primitives.sha256 / 256 <
          bigValue (block.header.target.expand leftovers.hashBuffer1) / 256) ∨
      (block.hashValue primitives.sha256 ≤ block.header.target.value ∧
        block.hashValue primitives.sha256 / 256 =
          bigValue (block.header.target.expand leftovers.hashBuffer1) / 256) := by
  rw [HashJudged, validateBlockPseudo_eq_badHash primitives leftovers low high]
  have le_expand := block.header.target.value_le_expand leftovers.hashBuffer1 low high
  have le_div := Nat.div_le_div_right (c := 256) le_expand
  by_cases above : block.header.target.value < block.hashValue primitives.sha256
  · have notWithin := Nat.not_le.mpr above
    simp [above, notWithin]
  · have within := Nat.le_of_not_lt above
    have within_div := Nat.div_le_div_right (c := 256) within
    simp only [above, within, iff_false, false_and, true_and, false_or, Nat.not_lt]
    omega

theorem Target.bigValue_expand_zero {target : Target} (low : 1 ≤ target.exponent.toNat)
    (high : target.exponent.toNat ≤ 32) :
    bigValue (target.expand (List.Vector.replicate 32 0)) = target.value := by
  have inside : target.exponent.toNat - 1 < (List.replicate 32 (0 : UInt8)).length := by
    rw [List.length_replicate]
    omega
  have assigned := bigValue_set target.mantissa inside
  rw [bigValue_replicate_zero, List.getElem_replicate, UInt8.toNat_zero] at assigned
  rw [expand, value]
  change bigValue ((List.replicate 32 0).set _ _) = _
  omega

/-- Above the lowest byte, two expansions of a target differ wherever the buffers do, except in
one place. -/
theorem Target.tail_expand_ne (target : Target) :
    (target.expand (List.Vector.replicate 32 0)).tail ≠
      (target.expand (List.Vector.replicate 32 0xff)).tail := by
  intro same
  have buffers : ∀ byte : UInt8, (List.Vector.replicate 32 byte).toList = List.replicate 32 byte :=
    fun _ => rfl
  have byte : ∀ index : Nat, index + 1 < 32 → index + 1 ≠ target.exponent.toNat - 1 → False := by
    intro index inside apart
    have bytes := congrArg (·[index]?) same
    simp only [expand, List.getElem?_tail, List.getElem?_set_ne (Ne.symm apart),
      buffers, List.getElem?_replicate, inside, if_true, Option.some.injEq] at bytes
    exact absurd bytes (by decide)
  by_cases last : target.exponent.toNat - 1 = 31
  · exact byte 29 (by decide) (by omega)
  · exact byte 30 (by decide) (by omega)

/-- No block is judged rightly for every content of the buffer. -/
theorem exists_not_hashJudged (primitives : Primitives) (leftovers : PseudoLeftovers)
    {block : Block} (low : 1 ≤ block.header.target.exponent.toNat)
    (high : block.header.target.exponent.toNat ≤ 32) :
    ∃ hashBuffer1, ¬ HashJudged primitives { leftovers with hashBuffer1 } block := by
  by_contra judged
  push Not at judged
  have zeros := (hashJudged_iff primitives _ low high).mp (judged (List.Vector.replicate 32 0))
  have ones := (hashJudged_iff primitives _ low high).mp (judged (List.Vector.replicate 32 0xff))
  simp only [Target.bigValue_expand_zero low high] at zeros ones
  have within : block.hashValue primitives.sha256 ≤ block.header.target.value := by omega
  have values : bigValue (block.header.target.expand (List.Vector.replicate 32 0)) / 256 =
      bigValue (block.header.target.expand (List.Vector.replicate 32 0xff)) / 256 := by
    rw [Target.bigValue_expand_zero low high]
    omega
  rw [← bigValue_tail, ← bigValue_tail] at values
  refine block.header.target.tail_expand_ne (bigValue_injective ?_ values)
  simp [Target.expand]

/-- The proof-of-work test gives the documented verdict exactly when the hash lies between the
target and the expanded target, or lies within the target and agrees with the expanded one above
the lowest byte; no block has that for every content of the buffer. -/
theorem validateBlockPseudo_hashJudged_iff (primitives : Primitives) (leftovers : PseudoLeftovers)
    (block : Block) (low : 1 ≤ block.header.target.exponent.toNat)
    (high : block.header.target.exponent.toNat ≤ 32) :
    (HashJudged primitives leftovers block ↔
      (block.header.target.value < block.hashValue primitives.sha256 ∧
        block.hashValue primitives.sha256 / 256 <
          bigValue (block.header.target.expand leftovers.hashBuffer1) / 256) ∨
      (block.hashValue primitives.sha256 ≤ block.header.target.value ∧
        block.hashValue primitives.sha256 / 256 =
          bigValue (block.header.target.expand leftovers.hashBuffer1) / 256)) ∧
    ∃ hashBuffer1, ¬ HashJudged primitives { leftovers with hashBuffer1 } block :=
  ⟨hashJudged_iff primitives leftovers low high,
    exists_not_hashJudged primitives leftovers low high⟩

/-! ## A block within its target that is rejected -/

/-- The digest of the source, signatures always accepted, no surplus. -/
def permissive : Primitives where
  sha256 := sha256
  ecdsaVerify _ _ _ := true
  txComputeSurplus _ := 0
  txComputeRequiredSurplus _ := 0

def zeroLeftovers : PseudoLeftovers where
  hashBuffer1 := List.Vector.replicate 32 0
  txBuffer _ := 0
  signable _ _ _ := 0

/-- A block with the easiest target there is. -/
def easyBlock : Block where
  header :=
    { version := 2, time := 0, height := 0, prevHash := List.Vector.replicate 32 0
      merkleRoot := List.Vector.replicate 32 0, target := { mantissa := 0xff, exponent := 32 }
      nonce := 0, txCount := 0 }
  txs := []

set_option maxRecDepth 100000 in
/-- The hash of that block is within its target. -/
theorem easyBlock_hashValue_lt :
    easyBlock.hashValue permissive.sha256 / 256 < easyBlock.header.target.value / 256 := by
  decide +kernel

theorem validateBlockPseudo_easyBlock_fails :
    1 ≤ easyBlock.header.target.exponent.toNat ∧ easyBlock.header.target.exponent.toNat ≤ 32 ∧
      ¬ HashJudged permissive zeroLeftovers easyBlock := by
  have low : 1 ≤ easyBlock.header.target.exponent.toNat := by decide
  have high : easyBlock.header.target.exponent.toNat ≤ 32 := by decide
  refine ⟨low, high, fun judged => ?_⟩
  have below := easyBlock_hashValue_lt
  have rejected : validateBlockPseudo permissive zeroLeftovers easyBlock = .ok errBlockBadHash := by
    rw [validateBlockPseudo_eq_badHash permissive zeroLeftovers low high, zeroLeftovers,
      Target.bigValue_expand_zero low high]
    exact below
  exact absurd (Nat.div_le_div_right (Nat.le_of_lt (judged.mp rejected))) (Nat.not_le.mpr below)

theorem validateBlockPseudo_easyBlock_misjudged :
    ∃ hashBuffer1, ¬ HashJudged permissive { zeroLeftovers with hashBuffer1 } easyBlock :=
  (validateBlockPseudo_hashJudged_iff permissive zeroLeftovers easyBlock (by decide) (by decide)).2

end Freecoin
