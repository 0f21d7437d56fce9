import Rapidfire.QueueDelivery

/-!
# The exclusive receive paths

With one consumer for the whole life of the queue, `pop_single` and
`pop_single_batch` need no marks and no compare-exchange. What they take is a
contiguous run of published positions at the head, and a block is recycled
only when no producer can reach it and no value is left in it.
-/

namespace Rapidfire.QueueExclusive

open Positions QueueMemory QueuePush QueueSingle QueueMachine QueueCoherence QueueLocal
  QueueInvariant QueueHistory Runs

variable {Tid V : Type} {cfg : Config Tid} {q : Queue V} {s s' : State Tid V} {g : Ghost Tid V}
  {vw : Views Tid} {t c : Tid} {l : Label V} {τ : List (Tid × Label V)}

/-- Blocks reached from the head block along `next`. -/
inductive Chained (q : Queue V) : BlockId → Prop where
  | head : Chained q q.head.block
  | next {b n : BlockId} : Chained q b → q.next b = some n → Chained q n

/-- A push takes nothing. -/
theorem push_takes {pc : PushPc V} {z : BlockSize} {flag head n : ℕ} {fail : Bool}
    (he : (pc.exec z flag fail q).2.2 = some (.taken head n)) : False := by
  cases pc with
  | fetchAdd v expected | casTry v tail failed | casLevel v tail failed | boundedSkip v cap tail
  | boundedHead v cap tail | boundedTry v cap tail | slowStart c block | slowPrev c block
  | takeSpare c block =>
    simp only [PushPc.exec] at he
    (repeat' split at he) <;> cases he
  | _ => cases he

/-- An exclusive receive takes positions at its advance. -/
theorem single_takes {pc : SinglePc V} {z : BlockSize} {capacity : Option ℕ} {flag head n : ℕ}
    {fail : Bool} (he : (pc.exec z capacity flag fail q).2.2 = some (.taken head n)) :
    ∃ batch r, pc = .leave batch (.advance r) ∧ head = r.head ∧ n = r.values.length := by
  cases pc with
  | leave batch pc =>
    cases pc with
    | advance r =>
      refine ⟨batch, r, rfl, ?_⟩
      simp only [SinglePc.exec, LeavePc.exec] at he
      cases capacity <;> cases he <;> exact ⟨rfl, rfl⟩
    | loadNext r | recycleSpare r wake =>
      simp only [SinglePc.exec, LeavePc.exec] at he
      split at he <;> cases he
    | _ => cases he
  | readValue head block | slotValue max r =>
    simp only [SinglePc.exec] at he
    split at he <;> cases he
  | _ => cases he

variable [DecidableEq Tid]

/-- An unbounded queue of small blocks whose exclusive consumer is thread 1. -/
def exclusive : Config (Fin 2) := ⟨.small, none, Config.unbounded_pos, some 1⟩

end Rapidfire.QueueExclusive
