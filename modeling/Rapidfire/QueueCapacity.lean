import Rapidfire.QueueInvariant

/-!
# Exactness of the capacity

A bounded queue never holds more than its capacity, and a push is refused only
at an instant at which the queue holds exactly its capacity.
-/

namespace Rapidfire.QueueCapacity

open Positions QueueMemory QueuePush QueueMachine QueueCoherence QueueLocal QueueInvariant

variable {Tid V : Type} [DecidableEq Tid] {cfg : Config Tid} {s s' : State Tid V}
  {g : Ghost Tid V} {t : Tid} {l : Label V} {τ : List (Tid × Label V)} {cap : ℕ}

/-- Value positions claimed and not yet passed by the head. -/
def outstanding (z : BlockSize) (q : Queue V) : Finset ℕ :=
  (Finset.Ico q.head.index q.tail.index).filter (IsValue z)

theorem outstanding_card (z : BlockSize) (q : Queue V) :
    (outstanding z q).card = itemsBetween z q.head.index q.tail.index :=
  (itemsBetween_eq_card z _ _).symm

/-- A push is refused by the load of the head only. -/
theorem full_exec {pc : PushPc V} {q : Queue V} {z : BlockSize} {flag : ℕ} {fail : Bool} {v : V}
    (h : (pc.exec z flag fail q).2.1 = .ret (.full v)) :
    ∃ cap tail, pc = .boundedHead v cap tail ∧ cap ≤ itemsBetween z q.head.index tail := by
  cases pc with
  | boundedHead v' cap tail =>
    simp only [PushPc.exec] at h
    split at h
    · rename_i hge
      cases h
      exact ⟨cap, tail, rfl, hge⟩
    · cases h
  | fetchAdd v' expected =>
    simp only [PushPc.exec] at h
    (repeat' split at h) <;> cases h
  | casTry v' tail failed | casLevel v' tail failed | boundedSkip v' cap tail
  | boundedTry v' cap tail =>
    simp only [PushPc.exec] at h
    (repeat' split at h) <;> cases h
  | slowStart c block | slowPrev c block | takeSpare c block =>
    simp only [PushPc.exec] at h
    split at h <;> cases h
  | _ => cases h

/-- The step that refuses a push is the load of the head. -/
theorem full_step {v : V} (hs : Step cfg s (t, l) s') (hl : l.result = some (.push (.full v))) :
    ∃ cap tail, s.pc t = .push (.boundedHead v cap tail) ∧
      cap ≤ itemsBetween cfg.size s.queue.head.index tail := by
  rcases step_cases hs with ⟨op, rfl, -⟩ | ⟨flag, fail, o, ho, rfl, -⟩
  · cases hl
  · cases hpc : s.pc t with
    | push pc =>
      rw [hpc, Pc.exec, Option.some.injEq] at ho
      subst ho
      obtain ⟨r, hn, hr⟩ := nextRet_map.mp hl
      obtain rfl : r = .full v := by simpa using hr
      obtain ⟨cap, tail, rfl, hge⟩ := full_exec hn
      exact ⟨cap, tail, rfl, hge⟩
    | idle | fault => simp [hpc, Pc.exec] at ho
    | pop pc | single pc | read pc =>
      rw [hpc, Pc.exec, Option.some.injEq] at ho
      subst ho
      obtain ⟨r, -, hr⟩ := nextRet_map.mp hl
      cases hr

/-- In every reachable state at most the capacity is outstanding, and a push is
refused only by a step at which exactly the capacity is. -/
theorem capacity_exact (h : Reach cfg τ s) (hc : cfg.capacity = some cap) :
    (outstanding cfg.size s.queue).card ≤ cap ∧
      ∀ t l s' v, Step cfg s (t, l) s' → l.result = some (.push (.full v)) →
        (outstanding cfg.size s.queue).card = cap := by
  obtain ⟨g, hg⟩ := reach_inv h
  have hle : (outstanding cfg.size s.queue).card ≤ cap := by
    rw [outstanding_card]
    exact hg.coherent.capacity cap hc
  refine ⟨hle, fun t l s' v hs hl => Nat.le_antisymm hle ?_⟩
  obtain ⟨cap', tail, hpc, hge⟩ := full_step hs hl
  have hlocal := hg.assertion t
  rw [hpc] at hlocal
  obtain ⟨hc', -, htail⟩ := hlocal
  obtain rfl : cap' = cap := Option.some.inj (hc'.symm.trans hc)
  rw [outstanding_card]
  exact hge.trans (itemsBetween_mono_right htail)

/-- A queue of one element of small blocks between two threads. -/
def single : Config (Fin 2) := ⟨.small, some 1, by simp, none⟩

/-- Thread 0 pushes 7, thread 1 is about to load the head for its push of 8. -/
def pushFull : List (Fin 2 × Choice ℕ) :=
  (0, .call (.push 7)) :: List.replicate 8 (0, .run 0 false) ++
  (1, .call (.push 8)) :: List.replicate 2 (1, .run 0 false)

/-- There the next step refuses the push, and one position is outstanding. -/
theorem capacity_exact_of_pushFull : ∃ (τ : List (Fin 2 × Label ℕ)) (s s' : State (Fin 2) ℕ)
    (l : Label ℕ), Reach single τ s ∧ Step single s (1, l) s' ∧
      l.result = some (.push (.full 8)) ∧ (outstanding .small s.queue).card = 1 := by
  have h : ((State.init (Fin 2) ℕ).runs single pushFull).bind
      (fun r => (r.2.step single 1 (.run 0 false)).map fun x => x.1.result) =
        some (some (.push (.full 8))) := by
    decide +kernel
  obtain ⟨⟨τ, s⟩, hr, hs⟩ := Option.bind_eq_some_iff.mp h
  obtain ⟨⟨l, s'⟩, hs, hl⟩ := Option.map_eq_some_iff.mp hs
  have hreach : Reach single τ s := State.runs_run hr
  exact ⟨τ, s, s', l, hreach, ⟨_, hs⟩, hl, (capacity_exact hreach rfl).2 1 l s' 8 ⟨_, hs⟩ hl⟩

end Rapidfire.QueueCapacity
