import Freecoin.BigProducts
import Freecoin.ProofOfWork

/-!
# Retargeting

`chain_compute_next_target` multiplies the expanded target by the time a period took and compacts
half the product.  The expansion leaves the hash of the earlier block in the buffer, the product
has as many bytes as its factors together, and the compaction stops at a byte that is zero.
-/

namespace Freecoin

open Foundation

/-! ## Lengths -/

theorem bigLengthLoop_le_iff (data : List UInt8) {i n : Nat} (positive : 1 ≤ n)
    (small : i < 2 ^ 31) :
    (bigLengthLoop data i).toNat ≤ n ↔ ∀ k, n ≤ k → k ≤ i → data.getD k 0 = 0 := by
  induction i with
  | zero =>
      refine iff_of_true (Nat.zero_le n) fun k lower upper => ?_
      omega
  | succ i ih =>
      rw [bigLengthLoop]
      split
      · rename_i nonzero
        have length_eq : (UInt32.ofNat (i + 2)).toNat = i + 2 :=
          toNat_ofNat_of_lt (by omega)
        rw [length_eq]
        constructor
        · intro short k lower upper
          omega
        · intro zeros
          by_contra long
          exact nonzero (zeros (i + 1) (by omega) le_rfl)
      · rename_i zero
        rw [not_not] at zero
        rw [ih (by omega)]
        constructor
        · intro zeros k lower upper
          rcases Nat.eq_or_lt_of_le upper with rfl | below
          · exact zero
          · exact zeros k lower (by omega)
        · intro zeros k lower upper
          exact zeros k lower (by omega)

/-- A number of 32 bytes has at most `n` significant ones when those from `n` on are zero. -/
theorem bigLength_le_iff {data : List UInt8} {n : Nat} (size_eq : data.length = 32)
    (positive : 1 ≤ n) :
    (bigLength data).toNat ≤ n ↔ ∀ k, n ≤ k → k < 32 → data.getD k 0 = 0 := by
  have start : bigLength data = bigLengthLoop data (data.length - 1) :=
    bigLength_eq (by omega) (by omega)
  rw [size_eq] at start
  rw [start, bigLengthLoop_le_iff data positive (by omega)]
  simp only [Nat.lt_succ_iff]

theorem bigLength_le {data : List UInt8} (size_eq : data.length = 32) :
    (bigLength data).toNat ≤ 32 :=
  (bigLength_le_iff size_eq (by omega)).mpr fun k lower upper => by omega

/-! ## Multiplication -/

section Operands

variable {a b res : List UInt8} (sizeA : a.length = 32) (sizeB : b.length = 32)
  (sizeRes : res.length = 32) (positive : 1 ≤ (bigLength b).toNat)

include sizeA sizeB

theorem toNat_bigLength_add :
    (bigLength a + bigLength b).toNat = (bigLength a).toNat + (bigLength b).toNat := by
  have shortA := bigLength_le sizeA
  have shortB := bigLength_le sizeB
  rw [UInt32.toNat_add]
  omega

include sizeRes positive

theorem exists_bigMult (room : (bigLength a).toNat + (bigLength b).toNat ≤ 32) :
    ∃ product, bigMult a b res = .ok product ∧ product.length = 32 := by
  have count := toNat_bigLength_add sizeA sizeB
  obtain ⟨_, product, _, multiplied, length_eq, _⟩ := bigMultLoop_spec
    (sizeA.symm ▸ bigLength_le sizeA) (sizeB.symm ▸ bigLength_le sizeB) positive (by omega)
    (by omega) (i := 0) (t := 0) ((Nat.zero_add _).trans count)
    (show _ ≤ (List.replicate res.length (0 : UInt8)).length by
      rw [List.length_replicate]; omega)
    (Nat.zero_le _) fun k _ => digit_replicate_zero res.length k
  rw [List.length_replicate, sizeRes] at length_eq
  exact ⟨product, multiplied, length_eq⟩

theorem bigMult_overflow (full : 32 < (bigLength a).toNat + (bigLength b).toNat) :
    bigMult a b res = .error .outOfBounds := by
  have count := toNat_bigLength_add sizeA sizeB
  exact bigMultLoop_overflow (sizeA.symm ▸ bigLength_le sizeA) (sizeB.symm ▸ bigLength_le sizeB)
    positive (by omega) (by omega) ((Nat.zero_add _).trans count) (Nat.zero_le _)
    (by rw [List.length_replicate]; omega) (Nat.zero_le _)

end Operands

/-! ## The time difference -/

/-- The number of bytes of the bounded time difference. -/
def diffLength (diff : UInt32) : Nat := if (clampDiff diff).toNat < 2 ^ 16 then 2 else 3

theorem clampDiff_bounds (diff : UInt32) :
    5040 ≤ (clampDiff diff).toNat ∧ (clampDiff diff).toNat ≤ 80640 := by
  rw [clampDiff]
  split
  · decide
  · rename_i upper
    rw [gt_iff_lt, UInt32.lt_iff_toNat_lt] at upper
    split
    · decide
    · rename_i lower
      rw [UInt32.lt_iff_toNat_lt] at lower
      exact ⟨Nat.not_lt.mp lower, Nat.not_lt.mp upper⟩

/-- The bytes `big_uitobig` writes. -/
def uintBytes (src : UInt32) : List UInt8 :=
  [(src &&& 0xff).toUInt8, ((src >>> 8) &&& 0xff).toUInt8, ((src >>> 16) &&& 0xff).toUInt8,
    ((src >>> 24) &&& 0xff).toUInt8] ++ List.replicate 28 0

theorem bigUitobig_eq (src : UInt32) :
    bigUitobig src (List.replicate 32 0) = .ok (uintBytes src) := rfl

theorem length_uintBytes (src : UInt32) : (uintBytes src).length = 32 := rfl

/-- Byte `k` of a number. -/
theorem toNat_uintBytes (src : UInt32) {k : Nat} (inside : k < 32) :
    ((uintBytes src).getD k 0).toNat = src.toNat / 256 ^ k % 256 := by
  have bounded := src.toNat_lt
  have shifted : ∀ shift : UInt32, shift.toNat < 32 →
      (((src >>> shift) &&& 0xff).toUInt8).toNat = src.toNat / 2 ^ shift.toNat % 256 := by
    intro shift small
    rw [toNat_lowByte, UInt32.toNat_shiftRight, Nat.mod_eq_of_lt small, Nat.shiftRight_eq_div_pow]
  rcases k with _ | _ | _ | _ | k
  · exact (toNat_lowByte src).trans (by rw [pow_zero, Nat.div_one])
  · exact shifted 8 (by decide)
  · exact shifted 16 (by decide)
  · exact shifted 24 (by decide)
  · have high : (uintBytes src).getD (k + 4) 0 = 0 := by
      change (List.replicate 28 (0 : UInt8)).getD k 0 = 0
      rw [List.getD_eq_getElem?_getD, List.getElem?_replicate, if_pos (by omega)]
      rfl
    have large : 256 ^ 4 ≤ 256 ^ (k + 4) := Nat.pow_le_pow_right (by omega) (by omega)
    have quotient : src.toNat / 256 ^ (k + 4) = 0 := Nat.div_eq_of_lt (bounded.trans_le large)
    rw [high, quotient]
    rfl

theorem uintBytes_getD_eq_zero_iff (src : UInt32) {k : Nat} (inside : k < 32) :
    (uintBytes src).getD k 0 = 0 ↔ src.toNat / 256 ^ k % 256 = 0 := by
  rw [← toNat_uintBytes src inside, ← UInt8.toNat_inj, UInt8.toNat_zero]

/-- The bounded time difference takes up two or three bytes. -/
theorem toNat_bigLength_diff (diff : UInt32) :
    (bigLength (uintBytes (clampDiff diff))).toNat = diffLength diff := by
  obtain ⟨lower, upper⟩ := clampDiff_bounds diff
  rw [diffLength]
  set value := clampDiff diff
  have zeros_from : ∀ n, value.toNat < 256 ^ n →
      ∀ k, n ≤ k → k < 32 → (uintBytes value).getD k 0 = 0 := by
    intro n bound k after inside
    have larger : 256 ^ n ≤ 256 ^ k := Nat.pow_le_pow_right (by omega) after
    rw [uintBytes_getD_eq_zero_iff value inside, Nat.div_eq_of_lt (by omega)]
  have length_le := fun n (positive : 1 ≤ n) => bigLength_le_iff (length_uintBytes value) positive
  split
  · rename_i small
    have atMost := (length_le 2 (by omega)).mpr (zeros_from 2 (by omega))
    have more : ¬ (bigLength (uintBytes value)).toNat ≤ 1 := by
      rw [length_le 1 le_rfl]
      intro zeros
      have digit := (uintBytes_getD_eq_zero_iff value (by omega)).mp (zeros 1 le_rfl (by omega))
      omega
    omega
  · rename_i large
    have atMost := (length_le 3 (by omega)).mpr (zeros_from 3 (by omega))
    have more : ¬ (bigLength (uintBytes value)).toNat ≤ 2 := by
      rw [length_le 2 (by omega)]
      intro zeros
      have digit := (uintBytes_getD_eq_zero_iff value (by omega)).mp (zeros 2 le_rfl (by omega))
      omega
    omega

/-! ## Indices -/

/-- `CHAIN_INITIAL_TARGET`. -/
def chainInitialTarget : Target where
  mantissa := 0xff
  exponent := 0x00

/-- A target that stands for no byte of the array is written outside of it. -/
theorem targetToBtarget_outOfBounds {target : Target} {btarget : List UInt8}
    (size_eq : btarget.length = 32)
    (outside : ¬ (1 ≤ target.exponent.toNat ∧ target.exponent.toNat ≤ 32)) :
    targetToBtarget target btarget = .error .outOfBounds := by
  rw [targetToBtarget, if_neg (by omega)]
  cases exponent_eq : target.exponent.toNat with
  | zero => rfl
  | succ index =>
      rw [exponent_eq] at outside
      exact if_neg (by omega)

theorem exists_targetToBtarget_iff {target : Target} {btarget : List UInt8}
    (size_eq : btarget.length = 32) :
    (∃ expanded, targetToBtarget target btarget = .ok expanded) ↔
      1 ≤ target.exponent.toNat ∧ target.exponent.toNat ≤ 32 := by
  constructor
  · rintro ⟨expanded, written⟩
    by_contra outside
    rw [targetToBtarget_outOfBounds size_eq outside] at written
    cases written
  · rintro ⟨low, high⟩
    exact ⟨_, targetToBtarget_eq size_eq low high⟩

/-- The proof-of-work test expands the target before it tests anything. -/
theorem validateBlockPseudo_outOfBounds (primitives : Primitives) (leftovers : PseudoLeftovers)
    {block : Block} (outside : ¬ (1 ≤ block.header.target.exponent.toNat ∧
      block.header.target.exponent.toNat ≤ 32)) :
    validateBlockPseudo primitives leftovers block = .error .outOfBounds := by
  rw [validateBlockPseudo,
    targetToBtarget_outOfBounds leftovers.hashBuffer1.toList_length outside]
  rfl

/-- A call of `chain_compute_next_target` that takes the retarget branch and returns from loading
the earlier header. -/
structure RetargetCall where
  store : Store
  /-- What the earlier header's record holds before it is loaded. -/
  headerA : BlockHeader
  headerB : BlockHeader
  loaded : Option BlockHeader
  beyond : ¬ headerB.height < chainRecalcInterval
  multiple : headerB.height % chainRecalcInterval = 0
  load : store.loadBlockHeader
    (store.blockAtHeight (headerB.height - chainRecalcInterval).toUInt64) = .ok loaded

namespace RetargetCall

variable (call : RetargetCall)

/-- The hash that is left in the buffer the target is expanded in. -/
def earlier : Digest :=
  call.store.blockAtHeight (call.headerB.height - chainRecalcInterval).toUInt64

/-- The time between the two headers, before it is bounded. -/
def diff : UInt32 := call.headerB.time - (call.loaded.getD call.headerA).time

/-- The arithmetic of the branch. -/
theorem chainComputeNextTarget_eq (nextTarget : Target) :
    chainComputeNextTarget call.store call.headerA call.headerB nextTarget = (do
      let bignum1 ← targetToBtarget call.headerB.target call.earlier.toList
      let bignum3 ← bigMult bignum1 (uintBytes (clampDiff call.diff)) (List.replicate 32 0)
      let bignum1 ← bigDiv bignum3 2 bignum1
      btargetToTarget bignum1 nextTarget) := by
  rw [chainComputeNextTarget, if_neg call.beyond, if_pos call.multiple]
  simp only [call.load, Run.ok_bind, bigUitobig_eq]
  rfl

/-- Every index used for the header is inside its array of 32 bytes: the one `target_to_btarget`
assigns, in `validate_block_pseudo` and in the retarget branch, and those `big_mult` writes. -/
structure IndicesInRange : Prop where
  target_index : 0 ≤ (call.headerB.target.exponent.toNat : Int) - 1 ∧
    (call.headerB.target.exponent.toNat : Int) - 1 ≤ 31
  mult_index : ∀ bignum1 bignum2,
    targetToBtarget call.headerB.target call.earlier.toList = .ok bignum1 →
    bigUitobig (clampDiff call.diff) (List.replicate 32 0) = .ok bignum2 →
    ∀ i < (bigLength bignum1 + bigLength bignum2).toNat, i < 32

/-- The exponent names one of 32 bytes, and the expanded target leaves the top two or three bytes
free, as many as the bounded time difference has. -/
structure Fits : Prop where
  low : 1 ≤ call.headerB.target.exponent.toNat
  high : call.headerB.target.exponent.toNat ≤ 32
  free : ∀ k, 32 - diffLength call.diff ≤ k → k < 32 →
    (call.headerB.target.expand call.earlier).getD k 0 = 0

theorem length_expand : (call.headerB.target.expand call.earlier).length = 32 := by
  rw [Target.expand, List.length_set, List.Vector.toList_length]

theorem targetToBtarget_expand (low : 1 ≤ call.headerB.target.exponent.toNat)
    (high : call.headerB.target.exponent.toNat ≤ 32) :
    targetToBtarget call.headerB.target call.earlier.toList =
      .ok (call.headerB.target.expand call.earlier) :=
  targetToBtarget_eq call.earlier.toList_length low high

theorem diffLength_pos (diff : UInt32) : 1 ≤ diffLength diff ∧ diffLength diff ≤ 3 := by
  rw [diffLength]
  split <;> omega

/-- The top bytes are free exactly when the product has room. -/
theorem free_iff_room :
    (∀ k, 32 - diffLength call.diff ≤ k → k < 32 →
      (call.headerB.target.expand call.earlier).getD k 0 = 0) ↔
    (bigLength (call.headerB.target.expand call.earlier)).toNat +
      (bigLength (uintBytes (clampDiff call.diff))).toNat ≤ 32 := by
  have bounds := diffLength_pos call.diff
  rw [toNat_bigLength_diff, ← bigLength_le_iff call.length_expand (by omega)]
  omega

theorem indicesInRange_iff_fits : call.IndicesInRange ↔ call.Fits := by
  have lengths := toNat_bigLength_add call.length_expand (length_uintBytes (clampDiff call.diff))
  constructor
  · rintro ⟨⟨low, high⟩, mult_index⟩
    have low' : 1 ≤ call.headerB.target.exponent.toNat := by omega
    have high' : call.headerB.target.exponent.toNat ≤ 32 := by omega
    refine ⟨low', high', call.free_iff_room.mpr ?_⟩
    by_contra full
    have written := mult_index _ _ (call.targetToBtarget_expand low' high') (bigUitobig_eq _) 32
      (by rw [lengths]; omega)
    omega
  · rintro ⟨low, high, free⟩
    refine ⟨by omega, ?_⟩
    intro bignum1 bignum2 expanded converted i before
    obtain rfl := Except.ok.inj ((call.targetToBtarget_expand low high).symm.trans expanded)
    obtain rfl := Except.ok.inj ((bigUitobig_eq _).symm.trans converted)
    have room := call.free_iff_room.mp free
    rw [lengths] at before
    omega

/-- The branch returns when the product fits. -/
theorem exists_next_of_fits (fits : call.Fits) :
    ∃ bignum, bignum.length = 32 ∧ ∀ nextTarget,
      chainComputeNextTarget call.store call.headerA call.headerB nextTarget =
        .ok (btargetToTargetLoop bignum nextTarget 31) := by
  obtain ⟨low, high, free⟩ := fits
  have positive : 1 ≤ (bigLength (uintBytes (clampDiff call.diff))).toNat := by
    rw [toNat_bigLength_diff]
    exact (diffLength_pos call.diff).1
  obtain ⟨product, multiplied, product_length⟩ := exists_bigMult call.length_expand
    (length_uintBytes _) List.length_replicate positive (call.free_iff_room.mp free)
  obtain ⟨⟨half, divided, half_length, _⟩, _⟩ := bigDiv_spec (by omega) (by omega)
    (call.length_expand.trans product_length.symm) (show 1 ≤ (2 : UInt32).toNat by decide)
    (by decide)
  rw [call.length_expand] at half_length
  refine ⟨half, half_length, fun nextTarget => ?_⟩
  rw [call.chainComputeNextTarget_eq, call.targetToBtarget_expand low high, Run.ok_bind,
    multiplied, Run.ok_bind, divided, Run.ok_bind, btargetToTarget, if_neg (by omega)]

/-- It writes outside an array when it does not. -/
theorem outOfBounds_of_not_fits (unfit : ¬ call.Fits) (nextTarget : Target) :
    chainComputeNextTarget call.store call.headerA call.headerB nextTarget =
      .error .outOfBounds := by
  rw [call.chainComputeNextTarget_eq]
  by_cases range : 1 ≤ call.headerB.target.exponent.toNat ∧
      call.headerB.target.exponent.toNat ≤ 32
  · have full : ¬ _ := fun room => unfit ⟨range.1, range.2, call.free_iff_room.mpr room⟩
    have positive : 1 ≤ (bigLength (uintBytes (clampDiff call.diff))).toNat := by
      rw [toNat_bigLength_diff]
      exact (diffLength_pos call.diff).1
    rw [call.targetToBtarget_expand range.1 range.2, Run.ok_bind,
      bigMult_overflow call.length_expand (length_uintBytes _) List.length_replicate positive
        (Nat.not_le.mp full)]
    rfl
  · rw [targetToBtarget_outOfBounds call.earlier.toList_length range]
    rfl

theorem exists_next_iff (nextTarget : Target) :
    (∃ next, chainComputeNextTarget call.store call.headerA call.headerB nextTarget = .ok next) ↔
      call.Fits := by
  constructor
  · rintro ⟨next, returned⟩
    by_contra unfit
    rw [call.outOfBounds_of_not_fits unfit] at returned
    cases returned
  · intro fits
    obtain ⟨bignum, _, returned⟩ := call.exists_next_of_fits fits
    exact ⟨_, returned nextTarget⟩

end RetargetCall

/-- In the retarget branch every index is inside its array exactly when the expanded target fits,
and only then the branch returns; in `validate_block_pseudo` the index is inside the array exactly
when the exponent names one of the 32 bytes, and otherwise the byte is written outside. -/
theorem indicesInRange_iff (call : RetargetCall) (primitives : Primitives)
    (leftovers : PseudoLeftovers) (block : Block) :
    (call.IndicesInRange ↔ call.Fits) ∧
    (∀ nextTarget, (∃ next, chainComputeNextTarget call.store call.headerA call.headerB nextTarget =
      .ok next) ↔ call.IndicesInRange) ∧
    ((∃ btarget, targetToBtarget block.header.target leftovers.hashBuffer1.toList = .ok btarget) ↔
      1 ≤ block.header.target.exponent.toNat ∧ block.header.target.exponent.toNat ≤ 32) ∧
    (¬ (1 ≤ block.header.target.exponent.toNat ∧ block.header.target.exponent.toNat ≤ 32) →
      validateBlockPseudo primitives leftovers block = .error .outOfBounds) := by
  refine ⟨call.indicesInRange_iff_fits, fun nextTarget => ?_,
    exists_targetToBtarget_iff leftovers.hashBuffer1.toList_length, fun outside => ?_⟩
  · rw [call.indicesInRange_iff_fits]
    exact call.exists_next_iff nextTarget
  · exact validateBlockPseudo_outOfBounds primitives leftovers outside

/-- A store that has the same block under every hash. -/
def steadyStore : Store where
  loadBlock _ := .ok (some easyBlock)
  loadBlockHeader _ := .ok (some easyBlock.header)
  loadNthTxOutput _ _ := none
  blockAtHeight _ := oneTrueRoot

/-- The first retarget of a chain that kept its initial target. -/
def initialRetarget : RetargetCall where
  store := steadyStore
  headerA := easyBlock.header
  headerB := { easyBlock.header with height := 144, target := chainInitialTarget }
  loaded := some easyBlock.header
  beyond := by decide
  multiple := by decide
  load := rfl

theorem initialRetarget_not_indicesInRange : ¬ initialRetarget.IndicesInRange := by
  intro range
  exact absurd range.target_index.1 (by decide)

/-! ## The next target -/

/-- A compact target is what remains of a number when only its leading byte is kept. -/
structure Target.Truncates (target : Target) (number : Nat) : Prop where
  leading : target.mantissa ≠ 0
  below : target.value ≤ number
  above : number < target.value + 256 ^ (target.exponent.toNat - 1)

/-- What is asked of the next target: that it is assigned whatever `next_target` held, that it stays
the same off the multiples of the interval, and that it is within a factor of four of the old one
on them. -/
def NextTargetSpec (store : Store) (headerA headerB : BlockHeader) : Prop :=
  ∃ result, (∀ nextTarget, chainComputeNextTarget store headerA headerB nextTarget = .ok result) ∧
    (¬ (headerB.height ≠ 0 ∧ headerB.height % chainRecalcInterval = 0) →
      result = headerB.target) ∧
    (headerB.height ≠ 0 ∧ headerB.height % chainRecalcInterval = 0 →
      ∃ number, headerB.target.value ≤ 4 * number ∧ number ≤ 4 * headerB.target.value ∧
        result.Truncates number)

/-- The compaction keeps what the destination held, or stores a mantissa of zero. -/
theorem btargetToTargetLoop_cases (bignum : List UInt8) (i : Nat) :
    (∀ target, btargetToTargetLoop bignum target i = target) ∨
      ∃ result, result.mantissa = 0 ∧ ∀ target, btargetToTargetLoop bignum target i = result := by
  induction i with
  | zero => exact .inl fun _ => rfl
  | succ i ih =>
      by_cases zero : bignum.getD (i + 1) 0 = 0
      · refine .inr ⟨⟨bignum.getD (i + 1) 0, .ofNat (i + 2)⟩, zero, fun target => ?_⟩
        rw [btargetToTargetLoop, if_pos zero]
      · have step : ∀ target, btargetToTargetLoop bignum target (i + 1) =
            btargetToTargetLoop bignum target i := by
          intro target
          rw [btargetToTargetLoop, if_neg zero]
        simpa only [step] using ih

/-- A retarget that returns has come back from loading the earlier header. -/
theorem exists_load_of_retarget {store : Store} {headerA headerB : BlockHeader}
    (beyond : ¬ headerB.height < chainRecalcInterval)
    (multiple : headerB.height % chainRecalcInterval = 0) {prior next : Target}
    (returned : chainComputeNextTarget store headerA headerB prior = .ok next) :
    ∃ loaded, store.loadBlockHeader
      (store.blockAtHeight (headerB.height - chainRecalcInterval).toUInt64) = .ok loaded := by
  rw [chainComputeNextTarget, if_neg beyond, if_pos multiple] at returned
  obtain ⟨loaded, load, _⟩ := Run.bind_eq_ok.mp returned
  exact ⟨loaded, load⟩

/-- A retarget that returns leaves the destination alone or stores a mantissa of zero. -/
theorem chainComputeNextTarget_retarget {store : Store} {headerA headerB : BlockHeader}
    (beyond : ¬ headerB.height < chainRecalcInterval)
    (multiple : headerB.height % chainRecalcInterval = 0) {prior next : Target}
    (returned : chainComputeNextTarget store headerA headerB prior = .ok next) :
    (∀ nextTarget, chainComputeNextTarget store headerA headerB nextTarget = .ok nextTarget) ∨
      ∃ result, result.mantissa = 0 ∧
        ∀ nextTarget, chainComputeNextTarget store headerA headerB nextTarget = .ok result := by
  obtain ⟨loaded, load⟩ := exists_load_of_retarget beyond multiple returned
  let call : RetargetCall := ⟨store, headerA, headerB, loaded, beyond, multiple, load⟩
  by_cases fits : call.Fits
  · obtain ⟨bignum, _, results⟩ := call.exists_next_of_fits fits
    rcases btargetToTargetLoop_cases bignum 31 with kept | ⟨result, zero, stored⟩
    · exact .inl fun nextTarget => (results nextTarget).trans (by rw [kept])
    · exact .inr ⟨result, zero, fun nextTarget => (results nextTarget).trans (by rw [stored])⟩
  · have fault := call.outOfBounds_of_not_fits fits prior
    cases fault.symm.trans returned

/-- A result that is the same whatever the destination held was assigned. -/
theorem not_forall_eq_prior {store : Store} {headerA headerB : BlockHeader} {result : Target}
    (assigned : ∀ nextTarget,
      chainComputeNextTarget store headerA headerB nextTarget = .ok result)
    (kept : ∀ nextTarget,
      chainComputeNextTarget store headerA headerB nextTarget = .ok nextTarget) : False := by
  have zero := Except.ok.inj ((assigned ⟨0, 0⟩).symm.trans (kept ⟨0, 0⟩))
  have one := Except.ok.inj ((assigned ⟨1, 0⟩).symm.trans (kept ⟨1, 0⟩))
  rw [zero] at one
  exact absurd (congrArg Target.mantissa one) (by decide)

/-- The next target is as it should be exactly before the first retarget: from height 144 on it is
left unassigned off the multiples of the interval, and on them it is left unassigned, gets a
mantissa of zero, or is not reached. -/
theorem nextTargetSpec_iff (store : Store) (headerA headerB : BlockHeader) :
    NextTargetSpec store headerA headerB ↔ headerB.height < chainRecalcInterval := by
  constructor
  · rintro ⟨result, assigned, _, retargeted⟩
    by_contra beyond
    by_cases multiple : headerB.height % chainRecalcInterval = 0
    · have nonzero : headerB.height ≠ 0 := by
        intro zero
        rw [zero] at beyond
        exact beyond (by decide)
      obtain ⟨number, _, _, truncates⟩ := retargeted ⟨nonzero, multiple⟩
      rcases chainComputeNextTarget_retarget beyond multiple (assigned headerB.target) with
        kept | ⟨stored, zero, storedAlways⟩
      · exact not_forall_eq_prior assigned kept
      · have same := Except.ok.inj ((assigned ⟨0, 0⟩).symm.trans (storedAlways ⟨0, 0⟩))
        rw [same] at truncates
        exact truncates.leading zero
    · refine not_forall_eq_prior assigned fun nextTarget => ?_
      rw [chainComputeNextTarget, if_neg beyond, if_neg multiple]
  · intro early
    refine ⟨headerB.target, fun nextTarget => ?_, fun _ => rfl, ?_⟩
    · rw [chainComputeNextTarget, if_pos early]
    · rintro ⟨nonzero, multiple⟩
      refine absurd ?_ nonzero
      rw [UInt32.lt_iff_toNat_lt] at early
      have remainder := congrArg UInt32.toNat multiple
      rw [UInt32.toNat_mod, Nat.mod_eq_of_lt early] at remainder
      exact UInt32.toNat_inj.mp remainder

/-- At height 145 the next target is whatever the destination held. -/
theorem nextTarget_at_145_not_assigned (nextTarget : Target) :
    chainComputeNextTarget steadyStore easyBlock.header { easyBlock.header with height := 145 }
      nextTarget = .ok nextTarget := rfl

/-- A header of height 145 whose target is left unassigned. -/
theorem nextTargetSpec_at_145_fails :
    (∀ height, steadyStore.loadBlockHeader (steadyStore.blockAtHeight height) =
        .ok (some easyBlock.header)) ∧
      easyBlock.header.target = { mantissa := 0xff, exponent := 32 } ∧
      ¬ NextTargetSpec steadyStore easyBlock.header { easyBlock.header with height := 145 } := by
  refine ⟨fun _ => rfl, rfl, ?_⟩
  rintro ⟨result, assigned, _⟩
  exact not_forall_eq_prior assigned nextTarget_at_145_not_assigned

end Freecoin
