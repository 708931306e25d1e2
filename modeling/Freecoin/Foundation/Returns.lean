import Freecoin.Foundation.Memory

/-!
# Runs that return

`Returns run post` says that a run ends without a fault in a value with the property `post`.  A
composite run returns when its parts do, one after the other.
-/

namespace Foundation

variable {α β : Type}

/-- The run produces a value with the given property. -/
def Returns (run : Run α) (post : α → Prop) : Prop := ∃ value, run = .ok value ∧ post value

namespace Returns

theorem ok {value : α} {post : α → Prop} (holds : post value) : Returns (.ok value) post :=
  ⟨value, rfl, holds⟩

theorem bind {run : Run α} {next : α → Run β} {middle : α → Prop} {post : β → Prop}
    (returns : Returns run middle) (continues : ∀ value, middle value → Returns (next value) post) :
    Returns (run >>= next) post := by
  obtain ⟨value, rfl, holds⟩ := returns
  exact continues value holds

theorem mono {run : Run α} {stronger weaker : α → Prop} (returns : Returns run stronger)
    (implies : ∀ value, stronger value → weaker value) : Returns run weaker := by
  obtain ⟨value, returned, holds⟩ := returns
  exact ⟨value, returned, implies value holds⟩

/-- What every run that returns has, the value it returned has. -/
theorem of_eq_ok {run : Run α} {post : α → Prop} {value : α} (returns : Returns run post)
    (returned : run = .ok value) : post value := by
  obtain ⟨other, same, holds⟩ := returns
  rw [returned] at same
  rwa [Except.ok.inj same]

end Returns

end Foundation
