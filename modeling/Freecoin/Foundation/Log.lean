import Mathlib.Logic.Function.Basic
import Mathlib.Data.List.Induction

/-!
# Logs of keyed writes

A map that is only ever written key by key holds, under each key, what the latest write under that
key put there.
-/

namespace Foundation

variable {Key Entry Value : Type} [DecidableEq Key] (key : Entry → Key)

/-- The latest entry of a log under a key. -/
def latest (log : List Entry) (k : Key) : Option Entry :=
  log.reverse.find? fun entry => key entry = k

@[simp] theorem latest_nil (k : Key) : latest key [] k = none := rfl

theorem latest_append_singleton (log : List Entry) (entry : Entry) (k : Key) :
    latest key (log ++ [entry]) k = if key entry = k then some entry else latest key log k := by
  by_cases same : key entry = k <;> simp [latest, same]

theorem latest_eq_none_iff {log : List Entry} {k : Key} :
    latest key log k = none ↔ ∀ entry ∈ log, key entry ≠ k := by
  simp [latest]

/-- The latest entry under a key is in the log, and no later one has its key. -/
theorem latest_eq_some_iff {log : List Entry} {k : Key} {entry : Entry} :
    latest key log k = some entry ↔
      ∃ before later, log = before ++ entry :: later ∧ key entry = k ∧
        ∀ other ∈ later, key other ≠ k := by
  constructor
  · intro found
    rw [latest, List.find?_eq_some_iff_append] at found
    obtain ⟨same, later, before, split, none_later⟩ := found
    refine ⟨before.reverse, later.reverse, ?_, by simpa using same, ?_⟩
    · rw [← List.reverse_reverse log, split]
      simp
    · intro other member
      simpa using none_later other (by simpa using member)
  · rintro ⟨before, later, rfl, same, none_later⟩
    rw [latest, List.find?_eq_some_iff_append]
    refine ⟨by simpa using same, later.reverse, before.reverse, by simp, ?_⟩
    intro other member
    simpa using none_later other (by simpa using member)

theorem exists_latest {log : List Entry} {entry : Entry} (member : entry ∈ log) :
    ∃ found, latest key log (key entry) = some found := by
  cases found : latest key log (key entry) with
  | none => exact absurd rfl ((latest_eq_none_iff key).mp found entry member)
  | some latestEntry => exact ⟨latestEntry, rfl⟩

/-- The key of the latest entry is the one asked for, and the entry is in the log. -/
theorem mem_of_latest {log : List Entry} {k : Key} {entry : Entry}
    (found : latest key log k = some entry) : entry ∈ log ∧ key entry = k := by
  obtain ⟨before, later, rfl, same, _⟩ := (latest_eq_some_iff key).mp found
  exact ⟨by simp, same⟩

/-- Searching by injective names of the keys finds the same entries. -/
theorem latest_comp {Name : Type} [DecidableEq Name] {name : Key → Name}
    (injective : Function.Injective name) (log : List Entry) (k : Key) :
    latest (fun entry => name (key entry)) log (name k) = latest key log k := by
  simp only [latest, injective.eq_iff]

/-- The map after writing every entry of a log. -/
def replay (value : Entry → Value) (log : List Entry) (map : Key → Option Value) :
    Key → Option Value :=
  log.foldl (fun map entry => Function.update map (key entry) (some (value entry))) map

@[simp] theorem replay_nil (value : Entry → Value) (map : Key → Option Value) :
    replay key value [] map = map := rfl

theorem replay_cons (value : Entry → Value) (entry : Entry) (log : List Entry)
    (map : Key → Option Value) :
    replay key value (entry :: log) map =
      replay key value log (Function.update map (key entry) (some (value entry))) := rfl

theorem replay_append_singleton (value : Entry → Value) (log : List Entry) (entry : Entry)
    (map : Key → Option Value) :
    replay key value (log ++ [entry]) map =
      Function.update (replay key value log map) (key entry) (some (value entry)) := by
  simp [replay]

/-- What a map holds after a log was written to it. -/
theorem replay_apply (value : Entry → Value) (log : List Entry) (map : Key → Option Value)
    (k : Key) :
    replay key value log map k = ((latest key log k).map value).or (map k) := by
  induction log using List.reverseRecOn with
  | nil => simp
  | append_singleton log entry ih =>
      rw [replay_append_singleton, latest_append_singleton]
      by_cases same : key entry = k
      · subst same
        simp
      · rw [Function.update_of_ne (Ne.symm same), ih, if_neg same]

end Foundation
