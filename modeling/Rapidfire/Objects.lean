import Rapidfire.Runs
import Mathlib.Logic.Function.Basic

/-!
# Objects with concurrent callers

An object is used by threads that call operations and get answers later. Between
its call and its answer an operation either takes effect once, at one moment, or
it changes nothing and its answer was right at one moment; an operation in several
portions takes effect once for each. A component is linearizable when an object
explains every history of its calls and answers.
-/

namespace Rapidfire.Objects

open Runs

/-- What a thread is doing: nothing; an operation that has had no effect so far,
with answers that were right at some moment since its call; or an operation that
took effect and is to give its answer. -/
inductive Doing (Op Ans : Type) where
  | idle
  | called (op : Op) (known : List Ans)
  | effected (ans : Ans)

/-- What an object does. `right` tells which answers an operation may give
without a further effect, in view of what the threads are doing, `effect` is the
change of an operation with its answer, `advance` a change after which the
operation goes on as another one, and `settle` follows when an answer is given. -/
structure Spec (Tid σ Op Ans : Type) where
  right : σ → (Tid → Doing Op Ans) → Tid → Op → Ans → Prop
  effect : σ → Tid → Op → Ans → σ → Prop
  advance : σ → Op → σ → Op → Prop
  settle : σ → Tid → Ans → σ

/-- State of an object and of the threads that use it. -/
structure Object (Tid σ Op Ans : Type) where
  value : σ
  doing : Tid → Doing Op Ans

/-- What can happen at an object. -/
inductive Action (Op Ans : Type) where
  | call (op : Op)
  | look
  | effect
  | advance
  | answer (ans : Ans)

/-- What a client sees: calls and answers. -/
inductive Event (Op Ans : Type) where
  | call (op : Op)
  | answer (ans : Ans)
  deriving DecidableEq

variable {Tid σ Op Ans : Type}

/-- The action a client sees. -/
def Event.action : Event Op Ans → Action Op Ans
  | .call op => .call op
  | .answer ans => .answer ans

/-- What an action shows. -/
def visible (l : Tid × Action Op Ans) : List (Tid × Event Op Ans) :=
  match l.2 with
  | .call op => [(l.1, .call op)]
  | .answer ans => [(l.1, .answer ans)]
  | .look | .effect | .advance => []

variable [DecidableEq Tid]

/-- A thread goes on to do something else. -/
def Object.set (a : Object Tid σ Op Ans) (t : Tid) (x : σ) (d : Doing Op Ans) :
    Object Tid σ Op Ans :=
  ⟨x, Function.update a.doing t d⟩

/-- Steps of an object. -/
inductive Step (S : Spec Tid σ Op Ans) (a : Object Tid σ Op Ans) :
    Tid × Action Op Ans → Object Tid σ Op Ans → Prop where
  | call (t : Tid) (op : Op) : a.doing t = .idle →
      Step S a (t, .call op) (a.set t a.value (.called op []))
  | look (t : Tid) (op : Op) (known : List Ans) (ans : Ans) : a.doing t = .called op known →
      S.right a.value a.doing t op ans →
      Step S a (t, .look) (a.set t a.value (.called op (ans :: known)))
  | effect (t : Tid) (op : Op) (known : List Ans) (ans : Ans) (x : σ) :
      a.doing t = .called op known → S.effect a.value t op ans x →
      Step S a (t, .effect) (a.set t x (.effected ans))
  | advance (t : Tid) (op op' : Op) (known : List Ans) (x : σ) : a.doing t = .called op known →
      S.advance a.value op x op' → Step S a (t, .advance) (a.set t x (.called op' []))
  | effected (t : Tid) (ans : Ans) : a.doing t = .effected ans →
      Step S a (t, .answer ans) (a.set t (S.settle a.value t ans) .idle)
  | known (t : Tid) (op : Op) (known : List Ans) (ans : Ans) : a.doing t = .called op known →
      ans ∈ known → Step S a (t, .answer ans) (a.set t a.value .idle)

/-- A thread makes at most one action that no client sees. -/
inductive Hides (S : Spec Tid σ Op Ans) (t : Tid) (a : Object Tid σ Op Ans) :
    Object Tid σ Op Ans → Prop where
  | stay : Hides S t a a
  | act (act : Action Op Ans) (a' : Object Tid σ Op Ans) : Step S a (t, act) a' →
      visible (t, act) = [] → Hides S t a a'

/-- A thread moves: it makes at most one action that no client sees, and then
shows at most one event. -/
inductive Moves (S : Spec Tid σ Op Ans) (t : Tid) (a : Object Tid σ Op Ans) :
    List (Event Op Ans) → Object Tid σ Op Ans → Prop where
  | hide (m : Object Tid σ Op Ans) : Hides S t a m → Moves S t a [] m
  | give (m a' : Object Tid σ Op Ans) (x : Event Op Ans) : Hides S t a m →
      Step S m (t, x.action) a' → Moves S t a [x] a'

/-- The object explains what a client sees, from one state to another. -/
def Explains (S : Spec Tid σ Op Ans) (a : Object Tid σ Op Ans)
    (events : List (Tid × Event Op Ans)) (a' : Object Tid σ Op Ans) : Prop :=
  ∃ α, Run (Step S) a α a' ∧ α.flatMap visible = events

variable {S : Spec Tid σ Op Ans} {a a' : Object Tid σ Op Ans} {t u : Tid} {op op' : Op}
  {known : List Ans} {ans : Ans} {events events' : List (Tid × Event Op Ans)}

@[simp] theorem Object.set_self (a : Object Tid σ Op Ans) (t : Tid) (x : σ) (d : Doing Op Ans) :
    (a.set t x d).doing t = d := Function.update_self ..

/-- The other threads go on doing what they did. -/
theorem Object.set_other (a : Object Tid σ Op Ans) (x : σ) (d : Doing Op Ans) (h : u ≠ t) :
    (a.set t x d).doing u = a.doing u := Function.update_of_ne h ..

theorem Object.set_set (a : Object Tid σ Op Ans) (t : Tid) (x y : σ) (d e : Doing Op Ans) :
    (a.set t x d).set t y e = a.set t y e := by
  simp [Object.set]

section Moving

/-- A move that shows nothing. -/
theorem Moves.hidden (h : Moves S t a [] a') : Hides S t a a' := by
  cases h with
  | hide _ hh => exact hh

/-- A move that shows an event. -/
theorem Moves.shown {x : Event Op Ans} (h : Moves S t a [x] a') :
    ∃ m, Hides S t a m ∧ Step S m (t, x.action) a' := by
  cases h with
  | give m _ _ hh hs => exact ⟨m, hh, hs⟩

/-- An idle thread only calls. -/
theorem Moves.of_idle (h : Moves S t a [.call op] a') (hidle : a.doing t = .idle) :
    a' = a.set t a.value (.called op []) := by
  obtain ⟨m, hh, hs⟩ := h.shown
  have hm : m = a := by
    cases hh with
    | stay => rfl
    | act act _ hact hnone =>
      cases hact with
      | look _ _ _ _ hcalled _ | effect _ _ _ _ _ hcalled _ | advance _ _ _ _ _ hcalled _ =>
        rw [hidle] at hcalled
        cases hcalled
      | call _ _ _ | effected _ _ _ | known _ _ _ _ _ _ => cases hnone
  subst hm
  cases hs with
  | call _ _ _ => rfl

/-- A thread calls an operation. -/
theorem moves_call (h : a.doing t = .idle) :
    Moves S t a [.call op] (a.set t a.value (.called op [])) :=
  .give a _ (.call op) .stay (.call t op h)

/-- An operation finds an answer. -/
theorem hides_look (h : a.doing t = .called op known)
    (hright : S.right a.value a.doing t op ans) :
    Hides S t a (a.set t a.value (.called op (ans :: known))) :=
  .act .look _ (.look t op known ans h hright) rfl

/-- An operation takes effect. -/
theorem hides_effect {x : σ} (h : a.doing t = .called op known)
    (heffect : S.effect a.value t op ans x) : Hides S t a (a.set t x (.effected ans)) :=
  .act .effect _ (.effect t op known ans x h heffect) rfl

/-- An operation goes on as another one. -/
theorem hides_advance {x : σ} (h : a.doing t = .called op known)
    (hadvance : S.advance a.value op x op') : Hides S t a (a.set t x (.called op' [])) :=
  .act .advance _ (.advance t op op' known x h hadvance) rfl

/-- An operation that took effect gives its answer. -/
theorem moves_effected (h : a.doing t = .effected ans) :
    Moves S t a [.answer ans] (a.set t (S.settle a.value t ans) .idle) :=
  .give a _ (.answer ans) .stay (.effected t ans h)

/-- An operation gives an answer that was right. -/
theorem moves_known (h : a.doing t = .called op known) (hans : ans ∈ known) :
    Moves S t a [.answer ans] (a.set t a.value .idle) :=
  .give a _ (.answer ans) .stay (.known t op known ans h hans)

/-- An operation gives an answer that is right now. -/
theorem moves_right (h : a.doing t = .called op known)
    (hright : S.right a.value a.doing t op ans) :
    Moves S t a [.answer ans] (a.set t a.value .idle) := by
  have hgive : Step S (a.set t a.value (.called op (ans :: known))) (t, .answer ans)
      ((a.set t a.value (.called op (ans :: known))).set t a.value .idle) :=
    .known t op _ ans (Object.set_self ..) (List.mem_cons_self ..)
  rw [Object.set_set] at hgive
  exact .give _ _ (.answer ans) (hides_look h hright) hgive

/-- An operation takes effect and gives its answer. -/
theorem moves_effect_answer {x : σ} (h : a.doing t = .called op known)
    (heffect : S.effect a.value t op ans x) :
    Moves S t a [.answer ans] (a.set t (S.settle x t ans) .idle) := by
  have hgive : Step S (a.set t x (.effected ans)) (t, .answer ans)
      ((a.set t x (.effected ans)).set t (S.settle x t ans) .idle) :=
    .effected t ans (Object.set_self ..)
  rw [Object.set_set] at hgive
  exact .give _ _ (.answer ans) (hides_effect h heffect) hgive

end Moving

section Explanations

/-- Nothing happens. -/
theorem explains_nil (a : Object Tid σ Op Ans) : Explains S a [] a := ⟨[], .refl, rfl⟩

/-- Explanations compose. -/
theorem Explains.append {b : Object Tid σ Op Ans} (h : Explains S a events a')
    (h' : Explains S a' events' b) : Explains S a (events ++ events') b := by
  obtain ⟨α, hα, hevents⟩ := h
  obtain ⟨β, hβ, hevents'⟩ := h'
  exact ⟨α ++ β, hα.append hβ, by rw [List.flatMap_append, hevents, hevents']⟩

theorem explains_of_step {act : Action Op Ans} (h : Step S a (t, act) a') :
    Explains S a (visible (t, act)) a' :=
  ⟨_, .single h, List.flatMap_singleton ..⟩

/-- What no client sees needs no explanation. -/
theorem Hides.explains (h : Hides S t a a') : Explains S a [] a' := by
  cases h with
  | stay => exact explains_nil a
  | act act _ hs hnone => exact hnone ▸ explains_of_step hs

/-- The object explains what a thread shows with a move. -/
theorem Moves.explains {xs : List (Event Op Ans)} (h : Moves S t a xs a') :
    Explains S a (xs.map fun x => (t, x)) a' := by
  cases h with
  | hide _ hh => exact hh.explains
  | give m _ x hh hs =>
    have hvisible : visible (t, x.action) = [(t, x)] := by
      cases x <;> rfl
    have hgive := explains_of_step hs
    rw [hvisible] at hgive
    exact hh.explains.append hgive

end Explanations

/-- Simulation: a run whose every step the object can explain, keeping a relation
between the run and the object, is explained as a whole. -/
theorem explains_run {ℓ ρ : Type} {step : ρ → ℓ → ρ → Prop} {s₀ s : ρ} {τ : List ℓ}
    {shows : ℓ → List (Tid × Event Op Ans)} {R : List ℓ → ρ → Object Tid σ Op Ans → Prop}
    {a₀ : Object Tid σ Op Ans} (init : R [] s₀ a₀)
    (keep : ∀ τ s l s' a, Run step s₀ τ s → R τ s a → step s l s' →
      ∃ a', Explains S a (shows l) a' ∧ R (τ ++ [l]) s' a')
    (h : Run step s₀ τ s) : ∃ a, Explains S a₀ (τ.flatMap shows) a ∧ R τ s a := by
  induction h with
  | refl => exact ⟨a₀, explains_nil a₀, init⟩
  | tail hr hs ih =>
    obtain ⟨a, ha, hR⟩ := ih
    obtain ⟨a', ha', hR'⟩ := keep _ _ _ _ a hr hR hs
    refine ⟨a', ?_, hR'⟩
    rw [List.flatMap_append, List.flatMap_singleton]
    exact ha.append ha'

end Rapidfire.Objects
