import Mathlib.Data.Set.Card
import Mathlib.Logic.Relation

/-!
# Walks along links

A partial map of links gives for every element that is there the element it points to, or nothing
when a walk ends with it.  A walk visits elements until one is missing or is the last one.  Over
finitely many elements it either ends, having visited none twice, or runs around a cycle; without
cycles what is visited from a set of elements is visited from the maximal ones among them.
-/

namespace Foundation.Walk

variable {α : Type*} (next : α → Option (Option α))

/-- The element is there and points to another one. -/
def Step (before after : α) : Prop := next before = some (some after)

/-- A walk from `start` comes to an element that is there. -/
def Visits (start element : α) : Prop :=
  Relation.ReflTransGen (Step next) start element ∧ (next element).isSome

/-- The elements visited from `start`, if the walk ends within the budget. -/
def trail : (budget : Nat) → (start : α) → Option (List α)
  | 0, _ => none
  | budget + 1, start =>
      match next start with
      | none => some []
      | some none => some [start]
      | some (some after) => (trail budget after).map (start :: ·)

/-- A closed sequence of `length` links. -/
structure Cycle (length : Nat) (element : Nat → α) : Prop where
  positive : 0 < length
  closed : element length = element 0
  step : ∀ i < length, Step next (element i) (element (i + 1))

variable {next}

theorem Step.unique {before left right : α} (toLeft : Step next before left)
    (toRight : Step next before right) : left = right :=
  Option.some.inj (Option.some.inj (toLeft.symm.trans toRight))

theorem Step.present {before after : α} (step : Step next before after) :
    (next before).isSome := by
  rw [step]
  rfl

/-! ## What is visited -/

namespace Visits

theorem self {element : α} (present : (next element).isSome) : Visits next element element :=
  ⟨.refl, present⟩

theorem head {before after element : α} (step : Step next before after)
    (visits : Visits next after element) : Visits next before element :=
  ⟨.head step visits.1, visits.2⟩

theorem trans {first second third : α} (early : Visits next first second)
    (late : Visits next second third) : Visits next first third :=
  ⟨early.1.trans late.1, late.2⟩

/-- What is visited is the start itself, or visited from the element behind it. -/
theorem cases_start {start element : α} (visits : Visits next start element) :
    element = start ∨ ∃ after, Step next start after ∧ Visits next after element := by
  obtain ⟨path, present⟩ := visits
  rcases Relation.ReflTransGen.cases_head path with same | ⟨after, step, rest⟩
  · exact Or.inl same.symm
  · exact Or.inr ⟨after, step, rest, present⟩

theorem start_present {start element : α} (visits : Visits next start element) :
    (next start).isSome := by
  rcases visits.cases_start with rfl | ⟨after, step, _⟩
  · exact visits.2
  · exact step.present

theorem transGen {start element : α} (visits : Visits next start element)
    (different : element ≠ start) : Relation.TransGen (Step next) start element := by
  rcases Relation.reflTransGen_iff_eq_or_transGen.mp visits.1 with same | path
  · exact absurd same different
  · exact path

/-- Without cycles no two elements are visited from each other. -/
theorem antisymm (acyclic : ∀ element, ¬ Relation.TransGen (Step next) element element)
    {left right : α} (toRight : Visits next left right) (toLeft : Visits next right left) :
    left = right := by
  by_contra different
  exact acyclic left ((toRight.transGen (Ne.symm different)).trans (toLeft.transGen different))

end Visits

/-! ## Trails -/

/-- The three ways in which a walk that ends begins. -/
theorem trail_cases {budget : Nat} {start : α} {visited : List α}
    (walked : trail next (budget + 1) start = some visited) :
    (next start = none ∧ visited = []) ∨ (next start = some none ∧ visited = [start]) ∨
      ∃ after rest, Step next start after ∧ trail next budget after = some rest ∧
        visited = start :: rest := by
  rw [trail] at walked
  split at walked
  · rename_i missing
    exact Or.inl ⟨missing, (Option.some.inj walked).symm⟩
  · rename_i last
    exact Or.inr (Or.inl ⟨last, (Option.some.inj walked).symm⟩)
  · rename_i after step
    obtain ⟨rest, walkedRest, whole⟩ := Option.map_eq_some_iff.mp walked
    exact Or.inr (Or.inr ⟨after, rest, step, walkedRest, whole.symm⟩)

theorem trail_of_none {budget : Nat} {start : α} (missing : next start = none) :
    trail next (budget + 1) start = some [] := by
  rw [trail, missing]

theorem trail_of_last {budget : Nat} {start : α} (last : next start = some none) :
    trail next (budget + 1) start = some [start] := by
  rw [trail, last]

theorem trail_of_step {budget : Nat} {start after : α} (step : Step next start after) :
    trail next (budget + 1) start = (trail next budget after).map (start :: ·) := by
  rw [trail, step]

theorem mem_trail_iff {budget : Nat} {start : α} {visited : List α}
    (walked : trail next budget start = some visited) {element : α} :
    element ∈ visited ↔ Visits next start element := by
  induction budget generalizing start visited with
  | zero => cases walked
  | succ budget ih =>
      rcases trail_cases walked with
        ⟨missing, rfl⟩ | ⟨last, rfl⟩ | ⟨after, rest, step, walkedRest, rfl⟩
      · refine iff_of_false List.not_mem_nil fun visits => ?_
        have present := visits.start_present
        rw [missing] at present
        cases present
      · rw [List.mem_singleton]
        constructor
        · rintro rfl
          exact .self (by rw [last]; rfl)
        · intro visits
          rcases visits.cases_start with same | ⟨after, step, _⟩
          · exact same
          · cases last.symm.trans step
      · rw [List.mem_cons, ih walkedRest]
        constructor
        · rintro (rfl | later)
          · exact .self step.present
          · exact later.head step
        · intro visits
          rcases visits.cases_start with same | ⟨other, toOther, later⟩
          · exact Or.inl same
          · exact Or.inr (Step.unique step toOther ▸ later)

/-- A larger budget changes nothing about a walk that ends. -/
theorem trail_of_le {budget larger : Nat} {start : α} {visited : List α}
    (walked : trail next budget start = some visited) (enough : budget ≤ larger) :
    trail next larger start = some visited := by
  induction budget generalizing larger start visited with
  | zero => cases walked
  | succ budget ih =>
      obtain ⟨larger, rfl⟩ := Nat.exists_eq_succ_of_ne_zero (show larger ≠ 0 by omega)
      rcases trail_cases walked with
        ⟨missing, rfl⟩ | ⟨last, rfl⟩ | ⟨after, rest, step, walkedRest, rfl⟩
      · exact trail_of_none missing
      · exact trail_of_last last
      · rw [trail_of_step step, ih walkedRest (Nat.le_of_succ_le_succ enough), Option.map_some]

/-- From an element of a trail the walk ends as well, after no more elements. -/
theorem length_trail_le {budget : Nat} {start element : α} {visited : List α}
    (walked : trail next budget start = some visited) (member : element ∈ visited) :
    ∃ rest, trail next budget element = some rest ∧ rest.length ≤ visited.length := by
  induction budget generalizing start visited with
  | zero => cases walked
  | succ budget ih =>
      by_cases same : element = start
      · subst same
        exact ⟨visited, walked, le_rfl⟩
      rcases trail_cases walked with
        ⟨_, rfl⟩ | ⟨_, rfl⟩ | ⟨after, rest, _, walkedRest, rfl⟩
      · cases member
      · exact absurd (List.mem_singleton.mp member) same
      · obtain ⟨tail, walkedTail, shorter⟩ :=
          ih walkedRest (List.mem_of_ne_of_mem same member)
        exact ⟨tail, trail_of_le walkedTail (Nat.le_succ budget), shorter.trans (Nat.le_succ _)⟩

/-- A walk that ends visits no element twice. -/
theorem nodup_of_trail {budget : Nat} {start : α} {visited : List α}
    (walked : trail next budget start = some visited) : visited.Nodup := by
  induction budget generalizing start visited with
  | zero => cases walked
  | succ budget ih =>
      have whole := walked
      rcases trail_cases walked with
        ⟨_, rfl⟩ | ⟨_, rfl⟩ | ⟨after, rest, _, walkedRest, rfl⟩
      · exact List.nodup_nil
      · exact List.nodup_singleton start
      · refine List.nodup_cons.mpr ⟨?_, ih walkedRest⟩
        -- otherwise the trail from the start would be no longer than its own tail
        intro again
        obtain ⟨tail, walkedTail, shorter⟩ := length_trail_le walkedRest again
        have same := (trail_of_le walkedTail (Nat.le_succ budget)).symm.trans whole
        rw [Option.some.inj same, List.length_cons] at shorter
        omega

/-! ## Ending -/

/-- A walk that does not end within the budget takes a step for each unit of it. -/
theorem exists_steps_of_trail_eq_none {budget : Nat} {start : α}
    (unfinished : trail next budget start = none) :
    ∃ element : Nat → α, element 0 = start ∧
      ∀ i < budget, Step next (element i) (element (i + 1)) := by
  induction budget generalizing start with
  | zero => exact ⟨fun _ => start, rfl, fun i inside => absurd inside (Nat.not_lt_zero i)⟩
  | succ budget ih =>
      rw [trail] at unfinished
      split at unfinished
      · cases unfinished
      · cases unfinished
      · rename_i after step
        obtain ⟨element, first, steps⟩ := ih (Option.map_eq_none_iff.mp unfinished)
        refine ⟨fun i => Nat.casesOn i start element, rfl, fun i inside => ?_⟩
        cases i with
        | zero =>
            change Step next start (element 0)
            rw [first]
            exact step
        | succ i => exact steps i (Nat.lt_of_succ_lt_succ inside)

/-- Among finitely many elements a walk ends after visiting each at most once, or there is a
cycle. -/
theorem trail_or_cycle {present : Set α} (finite : present.Finite)
    (covers : ∀ element, (next element).isSome → element ∈ present) (start : α) :
    (∃ visited, trail next (present.ncard + 1) start = some visited ∧ visited.Nodup ∧
      visited.length ≤ present.ncard) ∨ ∃ length element, Cycle next length element := by
  cases walked : trail next (present.ncard + 1) start with
  | some visited =>
      classical
      have distinct := nodup_of_trail walked
      have inside : (visited.toFinset : Set α) ⊆ present := by
        intro element member
        rw [Finset.mem_coe, List.mem_toFinset] at member
        exact covers element ((mem_trail_iff walked).mp member).2
      have bounded := Set.ncard_le_ncard inside finite
      rw [Set.ncard_coe_finset, List.toFinset_card_of_nodup distinct] at bounded
      exact Or.inl ⟨visited, rfl, distinct, bounded⟩
  | none =>
      obtain ⟨element, _, steps⟩ := exists_steps_of_trail_eq_none walked
      have maps : Set.MapsTo element (Finset.range (present.ncard + 1)) present :=
        fun i inside => covers _ (steps i (Finset.mem_range.mp inside)).present
      have more : present.ncard < (Finset.range (present.ncard + 1) : Set Nat).ncard := by
        rw [Set.ncard_coe_finset, Finset.card_range]
        exact Nat.lt_succ_self _
      obtain ⟨i, iInside, j, jInside, different, same⟩ :=
        Set.exists_ne_map_eq_of_ncard_lt_of_maps_to more maps finite
      right
      -- the walk between two visits of one element is a cycle
      have close : ∀ {i j : Nat}, i < j → j < present.ncard + 1 → element i = element j →
          ∃ length element, Cycle next length element := by
        intro i j before inside same
        refine ⟨j - i, fun k => element (i + k), Nat.sub_pos_of_lt before, ?_, ?_⟩
        · rw [Nat.add_sub_cancel' (Nat.le_of_lt before), Nat.add_zero, same]
        · exact fun k short => steps (i + k) (by omega)
      rcases Nat.lt_or_gt_of_ne different with before | behind
      · exact close before (Finset.mem_range.mp jInside) same
      · exact close behind (Finset.mem_range.mp iInside) same.symm

theorem Cycle.transGen {length : Nat} {element : Nat → α} (cycle : Cycle next length element) :
    Relation.TransGen (Step next) (element 0) (element 0) := by
  have path : ∀ i < length, Relation.TransGen (Step next) (element 0) (element (i + 1)) := by
    intro i inside
    induction i with
    | zero => exact .single (cycle.step 0 inside)
    | succ i ih => exact (ih (Nat.lt_of_succ_lt inside)).tail (cycle.step (i + 1) inside)
  have last := path (length - 1) (Nat.sub_lt cycle.positive Nat.one_pos)
  rwa [Nat.sub_add_cancel cycle.positive, cycle.closed] at last

/-! ## Stopping early -/

section Stopping

variable {stops : α → Prop} [DecidablePred stops]

/-- The links with nothing behind the elements at which a walk stops. -/
def stopAt (next : α → Option (Option α)) (stops : α → Prop) [DecidablePred stops] (element : α) :
    Option (Option α) :=
  if stops element then (next element).map fun _ => none else next element

theorem stopAt_of_stops {element : α} (stopped : stops element) :
    stopAt next stops element = (next element).map fun _ => none := if_pos stopped

theorem stopAt_of_not {element : α} (passed : ¬ stops element) :
    stopAt next stops element = next element := if_neg passed

/-- A walk that stops nowhere follows all links. -/
theorem stopAt_nowhere (next : α → Option (Option α)) : stopAt next (fun _ => False) = next := rfl

theorem isSome_stopAt (element : α) :
    (stopAt next stops element).isSome = (next element).isSome := by
  by_cases stopped : stops element
  · rw [stopAt_of_stops stopped, Option.isSome_map]
  · rw [stopAt_of_not stopped]

theorem Step.of_stopAt {before after : α} (step : Step (stopAt next stops) before after) :
    Step next before after := by
  by_cases stopped : stops before
  · rw [Step, stopAt_of_stops stopped, Option.map_eq_some_iff] at step
    obtain ⟨_, _, contradiction⟩ := step
    cases contradiction
  · rwa [Step, stopAt_of_not stopped] at step

theorem Cycle.of_stopAt {length : Nat} {element : Nat → α}
    (cycle : Cycle (stopAt next stops) length element) : Cycle next length element :=
  ⟨cycle.positive, cycle.closed, fun i inside => (cycle.step i inside).of_stopAt⟩

end Stopping

section Acyclic

variable [Finite α] (acyclic : ∀ element, ¬ Relation.TransGen (Step next) element element)

include acyclic

/-- Without cycles every walk ends, within one budget for all of them. -/
theorem exists_trail :
    ∃ budget, ∀ start, ∃ visited, trail next budget start = some visited := by
  refine ⟨(Set.univ : Set α).ncard + 1, fun start => ?_⟩
  rcases trail_or_cycle Set.finite_univ (fun element _ => Set.mem_univ element) start with
    ⟨visited, walked, _⟩ | ⟨_, _, cycle⟩
  · exact ⟨visited, walked⟩
  · exact absurd cycle.transGen (acyclic _)

/-- Every element of a set is, or is visited from, one that no other element of the set visits. -/
theorem exists_maximal {tops : Set α} {top : α} (member : top ∈ tops) :
    ∃ maximal ∈ tops, Relation.ReflTransGen (Step next) maximal top ∧
      ∀ other ∈ tops, Visits next other maximal → other = maximal := by
  have wellFounded : WellFounded (Relation.TransGen (Step next)) := by
    have irrefl : Std.Irrefl (Relation.TransGen (Step next)) := ⟨acyclic⟩
    exact Finite.wellFounded_of_trans_of_irrefl _
  induction top using wellFounded.induction with
  | h top ih =>
      by_cases visited : ∃ other ∈ tops, Visits next other top ∧ other ≠ top
      · obtain ⟨other, otherMember, visits, different⟩ := visited
        obtain ⟨maximal, maximalMember, path, rest⟩ :=
          ih other (visits.transGen (Ne.symm different)) otherMember
        exact ⟨maximal, maximalMember, path.trans visits.1, rest⟩
      · refine ⟨top, member, .refl, fun other otherMember visits => ?_⟩
        by_contra different
        exact visited ⟨other, otherMember, visits, different⟩

/-- Leaving out the elements that another one of a set visits loses nothing that is visited. -/
theorem exists_visits_maximal {tops : Set α} {element : α}
    (visited : ∃ top ∈ tops, Visits next top element) :
    ∃ maximal ∈ tops, (∀ other ∈ tops, Visits next other maximal → other = maximal) ∧
      Visits next maximal element := by
  obtain ⟨top, member, visits⟩ := visited
  obtain ⟨maximal, maximalMember, path, rest⟩ := exists_maximal acyclic member
  exact ⟨maximal, maximalMember, rest, path.trans visits.1, visits.2⟩

end Acyclic

end Foundation.Walk
