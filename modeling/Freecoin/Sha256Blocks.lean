import Freecoin.Foundation.IteratedHash
import Freecoin.Sha256
import Mathlib.Data.List.Induction
import Mathlib.Tactic.Ring

/-!
# SHA-256 on blocks

The streaming digest is the iterated hash of the padded message: the context never holds more than
what is left behind the last full block.  Two messages with one digest make `sha256_transform`
collide in the two computations.
-/

namespace Freecoin

open Foundation IteratedHash

/-! ## The number of bits -/

/-- A number of bits in two words, the lower one first. -/
def bitWords (bits : Nat) : UInt32 × UInt32 := (.ofNat bits, .ofNat (bits / 2 ^ 32))

theorem dblIntAdd_bitWords {bits c : Nat} (small : c < 2 ^ 32) :
    dblIntAdd (bitWords bits) (.ofNat c) = bitWords (bits + c) := by
  have c_eq : (UInt32.ofNat c).toNat = c := UInt32.toNat_ofNat_of_lt small
  have room : ((0xffffffff : UInt32) - .ofNat c).toNat = 2 ^ 32 - 1 - c := by
    have top : (0xffffffff : UInt32).toNat = 2 ^ 32 - 1 := rfl
    rw [UInt32.toNat_sub_of_le, c_eq, top]
    rw [UInt32.le_iff_toNat_le, c_eq, top]
    omega
  have carries : UInt32.ofNat bits > 0xffffffff - .ofNat c ↔ 2 ^ 32 ≤ bits % 2 ^ 32 + c := by
    rw [gt_iff_lt, UInt32.lt_iff_toNat_lt, room, UInt32.toNat_ofNat']
    omega
  simp only [dblIntAdd, bitWords, carries, Prod.mk.injEq]
  refine ⟨(UInt32.ofNat_add bits c).symm, ?_⟩
  split
  · rename_i carried
    have next : (bits + c) / 2 ^ 32 = bits / 2 ^ 32 + 1 := by omega
    rw [next, UInt32.ofNat_add]
    rfl
  · rename_i fits
    have same : (bits + c) / 2 ^ 32 = bits / 2 ^ 32 := by omega
    rw [same]

/-- The last eight bytes of a padded message of so many bits. -/
def lengthBytes (bits : Nat) : List UInt8 := uitob (bitWords bits).2 ++ uitob (bitWords bits).1

/-! ## Padding -/

/-- The zeros between the mark and the length. -/
def paddingZeros (length : Nat) : Nat :=
  if length % 64 < 56 then 55 - length % 64 else 119 - length % 64

/-- What is appended to a message of some length. -/
def padding (length : Nat) : List UInt8 :=
  0x80 :: List.replicate (paddingZeros length) 0 ++ lengthBytes (8 * length)

/-- The padded message. -/
def padded (message : List UInt8) : List UInt8 := message ++ padding message.length

/-- The number of blocks of the padded message. -/
def blockCount (length : Nat) : Nat := length / 64 + if length % 64 < 56 then 1 else 2

theorem length_padding (length : Nat) :
    (padding length).length = paddingZeros length + 9 := by
  rw [padding, List.length_append, List.length_cons, List.length_replicate, lengthBytes,
    List.length_append, length_uitob, length_uitob]

theorem length_padded (message : List UInt8) :
    (padded message).length = 64 * blockCount message.length := by
  rw [padded, List.length_append, length_padding, paddingZeros, blockCount]
  split <;> omega

/-! ## The context -/

/-- The state after the first blocks of a string. -/
def blocksState (count : Nat) (bytes : List UInt8) : Sha256State :=
  (chunks 64 count bytes).foldl sha256Transform sha256Init.state

theorem blocksState_succ (count : Nat) (bytes : List UInt8) :
    blocksState (count + 1) bytes =
      sha256Transform (blocksState count bytes) ((bytes.drop (64 * count)).take 64) := by
  rw [blocksState, chunks_succ, List.foldl_append]
  rfl

theorem blocksState_append {count : Nat} {front : List UInt8} (inside : 64 * count ≤ front.length)
    (back : List UInt8) : blocksState count (front ++ back) = blocksState count front := by
  rw [blocksState, chunks_append inside, blocksState]

/-- The context after a message: the state of its full blocks, the bits in them, what is left. -/
theorem sha256Update_eq (message : List UInt8) :
    sha256Update sha256Init message =
      { data := message.drop (64 * (message.length / 64))
        bitlen := bitWords (512 * (message.length / 64))
        state := blocksState (message.length / 64) message } := by
  induction message using List.reverseRecOn with
  | nil => rfl
  | append_singleton message byte ih =>
      have inside : 64 * (message.length / 64) ≤ message.length := Nat.mul_div_le _ _
      have front := List.take_append_drop (64 * (message.length / 64)) message
      have rest : (message.drop (64 * (message.length / 64))).length = message.length % 64 := by
        rw [List.length_drop]
        omega
      have step : sha256Update (sha256Update sha256Init message) [byte] =
          sha256UpdateByte (sha256Update sha256Init message) byte := rfl
      rw [sha256Update_append, step, ih, sha256UpdateByte]
      dsimp only
      rw [List.length_append, rest, List.length_singleton, List.length_append,
        List.length_singleton]
      by_cases full : message.length % 64 + 1 = 64
      · have next : (message.length + 1) / 64 = message.length / 64 + 1 := by omega
        have block : ((message ++ [byte]).drop (64 * (message.length / 64))).take 64 =
            message.drop (64 * (message.length / 64)) ++ [byte] := by
          rw [List.drop_append_of_le_length inside, List.take_of_length_le]
          rw [List.length_append, rest, List.length_singleton]
          omega
        have empty : (message ++ [byte]).drop (64 * (message.length / 64 + 1)) = [] := by
          rw [List.drop_eq_nil_iff, List.length_append, List.length_singleton]
          omega
        have bits : dblIntAdd (bitWords (512 * (message.length / 64))) 512 =
            bitWords (512 * (message.length / 64 + 1)) :=
          dblIntAdd_bitWords (show 512 < 2 ^ 32 by decide)
        rw [if_pos full, next, blocksState_succ, block, blocksState_append inside, empty, bits]
      · have same : (message.length + 1) / 64 = message.length / 64 := by omega
        rw [if_neg full, same, List.drop_append_of_le_length inside, blocksState_append inside]

/-! ## The digest -/

/-- The bytes of a state. -/
def Sha256State.digest (state : Sha256State) : Digest :=
  ⟨uitob state.a ++ uitob state.b ++ uitob state.c ++ uitob state.d ++
    uitob state.e ++ uitob state.f ++ uitob state.g ++ uitob state.h, rfl⟩

/-- The number of bits that `sha256_final` appends. -/
theorem bitlen_final (length : Nat) :
    dblIntAdd (bitWords (512 * (length / 64))) (.ofNat (length % 64 * 8)) =
      bitWords (8 * length) := by
  have total : 512 * (length / 64) + length % 64 * 8 = 8 * length := by omega
  rw [dblIntAdd_bitWords (by omega), total]

/-- What is left behind the full blocks of a padded message. -/
theorem drop_padded (message : List UInt8) :
    (padded message).drop (64 * (message.length / 64)) =
      message.drop (64 * (message.length / 64)) ++ padding message.length := by
  rw [padded, List.drop_append_of_le_length (Nat.mul_div_le _ _)]

section Final

variable {message : List UInt8}

theorem blocksState_of_short (short : message.length % 64 < 56) :
    blocksState (blockCount message.length) (padded message) =
      sha256Transform (blocksState (message.length / 64) message)
        (message.drop (64 * (message.length / 64)) ++
          0x80 :: List.replicate (55 - message.length % 64) 0 ++
          lengthBytes (8 * message.length)) := by
  have count : blockCount message.length = message.length / 64 + 1 := by
    rw [blockCount, if_pos short]
  have total := length_padded message
  have inside : 64 * (message.length / 64) ≤ message.length := Nat.mul_div_le _ _
  have state : blocksState (message.length / 64) (padded message) =
      blocksState (message.length / 64) message := blocksState_append inside _
  have all : ((padded message).drop (64 * (message.length / 64))).take 64 =
      (padded message).drop (64 * (message.length / 64)) := by
    apply List.take_of_length_le
    rw [List.length_drop, total, count]
    omega
  rw [count, blocksState_succ, state, all, drop_padded, padding, paddingZeros, if_pos short,
    List.append_assoc]

theorem blocksState_of_long (long : ¬ message.length % 64 < 56) :
    blocksState (blockCount message.length) (padded message) =
      sha256Transform
        (sha256Transform (blocksState (message.length / 64) message)
          (message.drop (64 * (message.length / 64)) ++
            0x80 :: List.replicate (63 - message.length % 64) 0))
        (List.replicate 56 0 ++ lengthBytes (8 * message.length)) := by
  have count : blockCount message.length = message.length / 64 + 1 + 1 := by
    rw [blockCount, if_neg long]
  have inside : 64 * (message.length / 64) ≤ message.length := Nat.mul_div_le _ _
  have state : blocksState (message.length / 64) (padded message) =
      blocksState (message.length / 64) message := blocksState_append inside _
  have zeros : List.replicate (paddingZeros message.length) (0 : UInt8) =
      List.replicate (63 - message.length % 64) 0 ++ List.replicate 56 0 := by
    rw [paddingZeros, if_neg long, List.replicate_append_replicate]
    congr 1
    omega
  have halves : (padded message).drop (64 * (message.length / 64)) =
      (message.drop (64 * (message.length / 64)) ++
        0x80 :: List.replicate (63 - message.length % 64) 0) ++
        (List.replicate 56 0 ++ lengthBytes (8 * message.length)) := by
    rw [drop_padded, padding, zeros]
    simp only [List.append_assoc, List.cons_append]
  have first : (message.drop (64 * (message.length / 64)) ++
      0x80 :: List.replicate (63 - message.length % 64) 0).length = 64 := by
    rw [List.length_append, List.length_drop, List.length_cons, List.length_replicate]
    omega
  have second :
      (List.replicate 56 (0 : UInt8) ++ lengthBytes (8 * message.length)).length = 64 := rfl
  have further : (padded message).drop (64 * (message.length / 64 + 1)) =
      List.replicate 56 0 ++ lengthBytes (8 * message.length) := by
    rw [Nat.mul_succ, ← List.drop_drop, halves, List.drop_left' first]
  rw [count, blocksState_succ, blocksState_succ, state, halves, further, List.take_left' first,
    List.take_of_length_le second.le]

end Final

/-- The state that `sha256_final` leaves. -/
def finalState (ctx : CryptSha256Ctx) : Sha256State :=
  let bitlen := dblIntAdd ctx.bitlen (.ofNat (ctx.data.length * 8))
  let length := uitob bitlen.2 ++ uitob bitlen.1
  if ctx.data.length < 56 then
    sha256Transform ctx.state
      (ctx.data ++ 0x80 :: List.replicate (55 - ctx.data.length) 0 ++ length)
  else
    sha256Transform
      (sha256Transform ctx.state (ctx.data ++ 0x80 :: List.replicate (63 - ctx.data.length) 0))
      (List.replicate 56 0 ++ length)

theorem sha256Final_eq (ctx : CryptSha256Ctx) : sha256Final ctx = (finalState ctx).digest := rfl

/-- The digest is the iterated hash of the padded message. -/
theorem sha256_eq (message : List UInt8) :
    sha256 message = (blocksState (blockCount message.length) (padded message)).digest := by
  have rest : (message.drop (64 * (message.length / 64))).length = message.length % 64 := by
    rw [List.length_drop]
    omega
  rw [sha256, sha256Final_eq, sha256Update_eq, finalState]
  dsimp only
  rw [rest, bitlen_final, ← lengthBytes]
  by_cases short : message.length % 64 < 56
  · rw [if_pos short, blocksState_of_short short]
  · rw [if_neg short, blocksState_of_long short]

/-! ## Pieces -/

/-- Updates with pieces leave the context of one update with all of them. -/
theorem foldl_sha256Update (pieces : List (List UInt8)) (ctx : CryptSha256Ctx) :
    pieces.foldl sha256Update ctx = sha256Update ctx pieces.flatten := by
  induction pieces generalizing ctx with
  | nil => rfl
  | cons piece pieces ih => rw [List.foldl_cons, ih, List.flatten_cons, sha256Update_append]

/-- However a message is cut into updates, the digest is the iterated hash of the padded message. -/
theorem sha256Final_pieces (pieces : List (List UInt8)) :
    sha256Final (pieces.foldl sha256Update sha256Init) =
      (blocksState (blockCount pieces.flatten.length) (padded pieces.flatten)).digest := by
  rw [foldl_sha256Update, ← sha256_eq]
  rfl

/-! ## Collisions -/

/-- The blocks of a padded message. -/
def paddedBlocks (message : List UInt8) : List (List UInt8) :=
  chunks 64 (blockCount message.length) (padded message)

theorem length_of_mem_paddedBlocks {message block : List UInt8}
    (member : block ∈ paddedBlocks message) : block.length = 64 :=
  length_of_mem_chunks (length_padded message).ge member

theorem flatten_paddedBlocks (message : List UInt8) :
    (paddedBlocks message).flatten = padded message := by
  rw [paddedBlocks, flatten_chunks, ← length_padded, List.take_length]

/-- The digests of two messages hand different blocks of 64 bytes or different states to
`sha256_transform` and get one result. -/
def Sha256Collides (left right : List UInt8) : Prop :=
  ∃ x ∈ inputs sha256Transform sha256Init.state (paddedBlocks left),
    ∃ y ∈ inputs sha256Transform sha256Init.state (paddedBlocks right),
      x.2.length = 64 ∧ y.2.length = 64 ∧ x ≠ y ∧
        sha256Transform x.1 x.2 = sha256Transform y.1 y.2

theorem sha256Collides_of_runsCollide {left right : List UInt8}
    (collide : RunsCollide sha256Transform sha256Init.state sha256Init.state (paddedBlocks left)
      (paddedBlocks right)) : Sha256Collides left right := by
  obtain ⟨x, leftMember, y, rightMember, collision⟩ := collide
  exact ⟨x, leftMember, y, rightMember, length_of_mem_paddedBlocks (mem_of_mem_inputs leftMember),
    length_of_mem_paddedBlocks (mem_of_mem_inputs rightMember), collision⟩

theorem Sha256State.digest_injective : Function.Injective Sha256State.digest := by
  intro left right same
  have bytes := congrArg List.Vector.toList same
  obtain ⟨bytes, h_eq⟩ := List.append_inj' bytes rfl
  obtain ⟨bytes, g_eq⟩ := List.append_inj' bytes rfl
  obtain ⟨bytes, f_eq⟩ := List.append_inj' bytes rfl
  obtain ⟨bytes, e_eq⟩ := List.append_inj' bytes rfl
  obtain ⟨bytes, d_eq⟩ := List.append_inj' bytes rfl
  obtain ⟨bytes, c_eq⟩ := List.append_inj' bytes rfl
  obtain ⟨a_eq, b_eq⟩ := List.append_inj' bytes rfl
  cases left
  cases right
  congr <;> apply uitob_injective <;> assumption

/-- The length of a message that is short enough for its number of bits. -/
theorem length_eq_of_lengthBytes {left right : Nat} (leftSmall : left < 2 ^ 61)
    (rightSmall : right < 2 ^ 61)
    (same : lengthBytes (8 * left) = lengthBytes (8 * right)) : left = right := by
  obtain ⟨high, low⟩ := List.append_inj' same rfl
  have low_eq := congrArg UInt32.toNat (uitob_injective low)
  have high_eq := congrArg UInt32.toNat (uitob_injective high)
  simp only [bitWords, UInt32.toNat_ofNat'] at low_eq high_eq
  omega

/-- A padded message ends in its number of bits. -/
theorem exists_padded_eq (message : List UInt8) :
    ∃ count front, blockCount message.length = count + 1 ∧ 64 * count ≤ front.length ∧
      padded message = front ++ lengthBytes (8 * message.length) := by
  have total := length_padded message
  have padded_eq : padded message =
      (message ++ 0x80 :: List.replicate (paddingZeros message.length) 0) ++
        lengthBytes (8 * message.length) := by
    rw [padded, padding, ← List.append_assoc]
  have eight : (lengthBytes (8 * message.length)).length = 8 := rfl
  have positive : 0 < blockCount message.length := by
    rw [blockCount]
    split <;> omega
  rw [padded_eq, List.length_append, eight] at total
  exact ⟨blockCount message.length - 1, _, by omega, by omega, padded_eq⟩

/-- Two messages with one digest are equal, or `sha256_transform` collides in the computations. -/
theorem eq_or_sha256Collides {left right : List UInt8} (leftSmall : left.length < 2 ^ 61)
    (rightSmall : right.length < 2 ^ 61) (same : sha256 left = sha256 right) :
    left = right ∨ Sha256Collides left right := by
  rw [sha256_eq, sha256_eq] at same
  have states := Sha256State.digest_injective same
  obtain ⟨leftCount, leftFront, leftTotal, leftInside, left_eq⟩ := exists_padded_eq left
  obtain ⟨rightCount, rightFront, rightTotal, rightInside, right_eq⟩ := exists_padded_eq right
  have differ : (chunks 64 leftCount (padded left)).length ≠
      (chunks 64 rightCount (padded right)).length →
      ((padded left).drop (64 * leftCount)).take 64 ≠
        ((padded right).drop (64 * rightCount)).take 64 := by
    intro counts equal
    have leftLength := length_padded left
    have rightLength := length_padded right
    rw [List.take_of_length_le (by rw [List.length_drop]; omega),
      List.take_of_length_le (by rw [List.length_drop]; omega), left_eq, right_eq,
      List.drop_append_of_le_length leftInside, List.drop_append_of_le_length rightInside] at equal
    have lengths :=
      length_eq_of_lengthBytes leftSmall rightSmall (List.append_inj' equal rfl).2
    rw [length_chunks, length_chunks] at counts
    rw [lengths] at leftTotal
    omega
  have leftBlocks : paddedBlocks left =
      chunks 64 leftCount (padded left) ++ [((padded left).drop (64 * leftCount)).take 64] := by
    rw [paddedBlocks, leftTotal, chunks_succ]
  have rightBlocks : paddedBlocks right =
      chunks 64 rightCount (padded right) ++ [((padded right).drop (64 * rightCount)).take 64] := by
    rw [paddedBlocks, rightTotal, chunks_succ]
  rw [blocksState, blocksState, ← paddedBlocks, ← paddedBlocks, leftBlocks, rightBlocks] at states
  rcases eq_or_runsCollide_of_last differ states with equal | collide
  · left
    rw [← leftBlocks, ← rightBlocks] at equal
    have paddeds : padded left = padded right := by
      rw [← flatten_paddedBlocks, equal, flatten_paddedBlocks]
    have ends := paddeds
    rw [left_eq, right_eq] at ends
    have lengths := length_eq_of_lengthBytes leftSmall rightSmall (List.append_inj' ends rfl).2
    exact (List.append_inj paddeds lengths).1
  · rw [← leftBlocks, ← rightBlocks] at collide
    exact .inr (sha256Collides_of_runsCollide collide)

/-- Two digests are one only for messages that are one, however they are cut into updates, or
`sha256_transform` collides in the computations. -/
theorem sha256Final_pieces_commits {left right : List (List UInt8)}
    (leftSmall : left.flatten.length < 2 ^ 61) (rightSmall : right.flatten.length < 2 ^ 61)
    (same : sha256Final (left.foldl sha256Update sha256Init) =
      sha256Final (right.foldl sha256Update sha256Init)) :
    left.flatten = right.flatten ∨ Sha256Collides left.flatten right.flatten := by
  rw [foldl_sha256Update, foldl_sha256Update] at same
  exact eq_or_sha256Collides leftSmall rightSmall same

/-- One message in two cuts. -/
def twoCuts : List (List UInt8) × List (List UInt8) :=
  ([[0x61, 0x62], [0x63]], [[0x61], [], [0x62, 0x63]])

theorem sha256Final_pieces_commits_twoCuts :
    twoCuts.1.flatten = twoCuts.2.flatten ∨ Sha256Collides twoCuts.1.flatten twoCuts.2.flatten :=
  sha256Final_pieces_commits (by decide) (by decide) rfl

end Freecoin
