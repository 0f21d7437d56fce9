import Mathlib.Logic.Function.Basic

/-!
# Updated functions

What a function says after one of its entries changed, for the three uses made
of updates: partial maps, maps of maps, and classifications in which one
element moves from one class to another.
-/

namespace Rapidfire.Updates

variable {α β γ : Type} [DecidableEq α]

/-- A partial map after an entry was set. -/
theorem update_some_iff {f : α → Option β} {a a' : α} {b b' : β} :
    Function.update f a (some b) a' = some b' ↔
      a' = a ∧ b = b' ∨ a' ≠ a ∧ f a' = some b' := by
  by_cases h : a' = a
  · subst h
    simp
  · simp [h]

/-- A partial map after an entry was cleared. -/
theorem update_none_iff {f : α → Option β} {a a' : α} {b : β} :
    Function.update f a none a' = some b ↔ a' ≠ a ∧ f a' = some b := by
  by_cases h : a' = a
  · subst h
    simp
  · simp [h]

/-- Setting an entry to what it was changes nothing. -/
theorem update_same {f : α → β} {a : α} {b : β} (h : f a = b) : f = Function.update f a b := by
  rw [← h, Function.update_eq_self]

/-- A map of maps after one entry was set. -/
theorem update_update_apply [DecidableEq β] {f : α → β → γ} {a a' : α} {b b' : β} {c : γ} :
    Function.update f a (Function.update (f a) b c) a' b' =
      if a' = a ∧ b' = b then c else f a' b' := by
  by_cases ha : a' = a
  · subst ha
    by_cases hb : b' = b <;> simp [hb]
  · simp [ha]

section Classes

variable {cls : α → γ} {M M' : α → Prop} {x : α} {X Y : γ}

/-- The classes an element neither leaves nor enters are unchanged. -/
theorem class_other (h : ∀ a, M a ↔ cls a = X) (hx : cls x ≠ X) (hY : Y ≠ X) (a : α) :
    M a ↔ Function.update cls x Y a = X := by
  by_cases ha : a = x
  · subst ha
    simp [h, hx, hY]
  · simp [h, ha]

/-- The class an element leaves. -/
theorem class_leave (h : ∀ a, M a ↔ cls a = X) (hM : ∀ a, M' a ↔ M a ∧ a ≠ x) (hY : Y ≠ X)
    (a : α) : M' a ↔ Function.update cls x Y a = X := by
  by_cases ha : a = x
  · subst ha
    simp [hM, hY]
  · simp [h, hM, ha]

/-- A class an element may enter. -/
theorem class_enter (h : ∀ a, M a ↔ cls a = X) (hx : cls x ≠ X)
    (hM : ∀ a, M' a ↔ M a ∨ Y = X ∧ a = x) (a : α) :
    M' a ↔ Function.update cls x Y a = X := by
  by_cases ha : a = x
  · subst ha
    simp [h, hM, hx]
  · simp [h, hM, ha]

end Classes

end Rapidfire.Updates
