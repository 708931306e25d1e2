import Mathlib.Data.List.Basic

/-!
# Iterated hashes

A compression function is applied to the blocks of a padded message, one after the other.  When the
last block tells messages of different lengths apart, two messages with one hash are the same or
their runs meet two different inputs of the compression function with one result.
-/

namespace Foundation.IteratedHash

/-! ## Blocks -/

section Chunks

variable {α : Type*} {size count : Nat}

/-- The first `count` blocks of `size` elements. -/
def chunks (size count : Nat) (list : List α) : List (List α) :=
  (List.range count).map fun i => (list.drop (size * i)).take size

@[simp] theorem length_chunks (list : List α) : (chunks size count list).length = count := by
  rw [chunks, List.length_map, List.length_range]

@[simp] theorem chunks_zero (list : List α) : chunks size 0 list = [] := rfl

theorem chunks_succ (list : List α) :
    chunks size (count + 1) list =
      chunks size count list ++ [(list.drop (size * count)).take size] := by
  rw [chunks, List.range_succ, List.map_append]
  rfl

/-- The blocks inside of a prefix are those of the prefix. -/
theorem chunks_append {front : List α} (inside : size * count ≤ front.length) (back : List α) :
    chunks size count (front ++ back) = chunks size count front := by
  apply List.map_congr_left
  intro i member
  have block : size * i + size ≤ front.length := by
    calc size * i + size = size * (i + 1) := (Nat.mul_succ size i).symm
      _ ≤ size * count := Nat.mul_le_mul_left size (List.mem_range.mp member)
      _ ≤ front.length := inside
  rw [List.drop_append_of_le_length (by omega), List.take_append_of_le_length]
  rw [List.length_drop]
  omega

theorem flatten_chunks (list : List α) :
    (chunks size count list).flatten = list.take (size * count) := by
  induction count with
  | zero => simp
  | succ count ih =>
      rw [chunks_succ, List.flatten_append, ih, List.flatten_singleton, Nat.mul_succ, List.take_add]

theorem length_of_mem_chunks {list block : List α} (inside : size * count ≤ list.length)
    (member : block ∈ chunks size count list) : block.length = size := by
  obtain ⟨i, below, rfl⟩ := List.mem_map.mp member
  have fits : size * i + size ≤ list.length := by
    calc size * i + size = size * (i + 1) := (Nat.mul_succ size i).symm
      _ ≤ size * count := Nat.mul_le_mul_left size (List.mem_range.mp below)
      _ ≤ list.length := inside
  rw [List.length_take, List.length_drop]
  omega

end Chunks

/-! ## Collisions -/

section Compression

variable {S B : Type*} {compress : S → B → S}

/-- What a run over some blocks hands to the compression function. -/
def inputs (compress : S → B → S) : S → List B → List (S × B)
  | _, [] => []
  | s, b :: blocks => (s, b) :: inputs compress (compress s b) blocks

theorem inputs_append (s : S) (front back : List B) :
    inputs compress s (front ++ back) =
      inputs compress s front ++ inputs compress (front.foldl compress s) back := by
  induction front generalizing s with
  | nil => rfl
  | cons b front ih => rw [List.cons_append, inputs, inputs, ih, List.foldl_cons, List.cons_append]

/-- The blocks a run hands on are its own. -/
theorem mem_of_mem_inputs {s : S} {blocks : List B} {input : S × B}
    (member : input ∈ inputs compress s blocks) : input.2 ∈ blocks := by
  induction blocks generalizing s with
  | nil => cases member
  | cons b blocks ih =>
      rcases List.mem_cons.mp member with rfl | later
      · exact List.mem_cons_self
      · exact List.mem_cons_of_mem b (ih later)

/-- Two runs hand on different inputs with one result. -/
def RunsCollide (compress : S → B → S) (s s' : S) (left right : List B) : Prop :=
  ∃ x ∈ inputs compress s left, ∃ y ∈ inputs compress s' right,
    x ≠ y ∧ compress x.1 x.2 = compress y.1 y.2

/-- Two runs over equally many blocks that end in one state are the same run, or they collide. -/
theorem eq_or_runsCollide {s s' : S} {left right : List B} (lengths : left.length = right.length)
    (same : left.foldl compress s = right.foldl compress s') :
    (s = s' ∧ left = right) ∨ RunsCollide compress s s' left right := by
  induction left generalizing right s s' with
  | nil =>
      obtain rfl := List.length_eq_zero_iff.mp lengths.symm
      exact .inl ⟨same, rfl⟩
  | cons x left ih =>
      cases right with
      | nil => simp at lengths
      | cons y right =>
          rw [List.foldl_cons, List.foldl_cons] at same
          rcases ih (Nat.succ.inj lengths) same with ⟨states, rfl⟩ | collision
          · by_cases equal : (s, x) = (s', y)
            · obtain ⟨rfl, rfl⟩ := Prod.mk.inj equal
              exact .inl ⟨rfl, rfl⟩
            · exact .inr ⟨(s, x), List.mem_cons_self, (s', y), List.mem_cons_self, equal, states⟩
          · obtain ⟨input, member, other, otherMember, collides⟩ := collision
            exact .inr ⟨input, List.mem_cons_of_mem _ member, other,
              List.mem_cons_of_mem _ otherMember, collides⟩

/-- The last input of a run. -/
theorem last_mem_inputs (s : S) (front : List B) (last : B) :
    (front.foldl compress s, last) ∈ inputs compress s (front ++ [last]) := by
  rw [inputs_append]
  exact List.mem_append_right _ List.mem_cons_self

/-- Runs that end in one state, whose last blocks differ when they are not equally long, are the
same run, or they collide. -/
theorem eq_or_runsCollide_of_last {s : S} {left right : List B} {x y : B}
    (differ : left.length ≠ right.length → x ≠ y)
    (same : (left ++ [x]).foldl compress s = (right ++ [y]).foldl compress s) :
    left ++ [x] = right ++ [y] ∨ RunsCollide compress s s (left ++ [x]) (right ++ [y]) := by
  by_cases lengths : left.length = right.length
  · have total : (left ++ [x]).length = (right ++ [y]).length := by
      rw [List.length_append, List.length_append, lengths]
      rfl
    exact (eq_or_runsCollide total same).imp_left And.right
  · rw [List.foldl_append, List.foldl_append] at same
    refine .inr ⟨_, last_mem_inputs s left x, _, last_mem_inputs s right y, fun equal => ?_, same⟩
    exact differ lengths (Prod.mk.inj equal).2

end Compression

end Foundation.IteratedHash
