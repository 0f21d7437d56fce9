import Rapidfire.QueueFifo
import Rapidfire.QueueProgress
import Rapidfire.ChannelSolo

/-!
# Serial use never strands a push

A push that runs alone walks from `tail.block`, and never returns while a block
for an earlier lap stays there. When operations do not overlap, `tail.block` serves
the next value position whenever the queue is at rest, so every operation returns
within a bounded number of accesses, with the answer of the list.
-/

namespace Rapidfire.QueueSerial

open Positions QueueMemory QueuePush QueuePop QueueSingle QueueMachine QueueCoherence QueueLocal
  QueueInvariant QueueHistory QueueRest QueueAlone QueueFifo QueueHighWater QueueProgress
  ChannelSolo Runs

variable {Tid V : Type} {cfg : Config Tid} {s s' : State Tid V} {g g' : Ghost Tid V} {t u : Tid}
  {l : Label V} {τ : List (Tid × Label V)} {z : BlockSize} {q q' : Queue V} {p flag : ℕ}
  {fail : Bool}

/-- `tail.block` serves the next value position. -/
def Ready (z : BlockSize) (q : Queue V) : Prop := TailServes z q (nextValue z q.tail.index)

/-- The last position claimed, with `tail.block` serving its lap. -/
def Newest (z : BlockSize) (q : Queue V) (p : ℕ) : Prop :=
  IsValue z p ∧ p + 1 = q.tail.index ∧ TailServes z q p

/-- What a push that runs alone knows of the tail. -/
def Tracks (z : BlockSize) (q : Queue V) : PushPc V → Prop
  | .loadContended _ | .fetchAddLoad _ | .casLoad _ | .boundedLoad _ _ | .writeValue _ _
  | .publish _ _ => Ready z q
  | .fetchAdd _ tail | .casTry _ tail _ => Ready z q ∧ tail = q.tail.index
  | .boundedSkip _ _ tail => Ready z q ∧ tail = q.tail.index ∧ ¬IsValue z tail
  | .boundedCached _ _ tail | .boundedHead _ _ tail | .boundedCache _ _ tail _
  | .boundedTry _ _ tail => Ready z q ∧ tail = q.tail.index ∧ IsValue z tail
  | .casLevel _ tail _ | .casContend _ tail _ | .sample _ tail => Newest z q tail
  | .findBlock c => Newest z q c.tail
  | .findStart c block => Newest z q c.tail ∧ block = q.tail.block
  | .takeSpare c _ | .takePool c _ | .resetMark c _ _ _ | .resetStart c _ _ | .allocate c _
  | .storePrev c _ _ | .storeNext c _ _ | .storeStart c _ _ => Newest z q c.tail ∧ IsLast z c.tail
  | .linkNext c _ next | .storeTail c _ next => IsLast z c.tail ∧ c.tail + 1 = q.tail.index ∧
      q.start next = some (lapStart z c.tail + lap z)
  | .fetchAddContend _ _ | .slowBlock _ | .slowStart _ _ | .slowPrev _ _ => False

/-- A push under way tracks the tail; without one, `tail.block` is ready. -/
structure Aligned (cfg : Config Tid) (s : State Tid V) : Prop where
  tracks : ∀ u pc, s.pc u = .push pc → Tracks cfg.size s.queue pc
  ready : (∀ u pc, s.pc u ≠ .push pc) → Ready cfg.size s.queue

section Tail

/-- Skipping the sentinel leaves `tail.block` ready. -/
theorem Ready.skip (h : Ready z q) (hv : ¬IsValue z q.tail.index) :
    Ready z { q with tail := { q.tail with index := q.tail.index + 1 } } := by
  change q.start q.tail.block = some (lapStart z (nextValue z (q.tail.index + 1)))
  rw [nextValue_succ hv]
  exact h

/-- Claiming the next value position makes it the newest. -/
theorem Ready.claim (h : Ready z q) (hv : IsValue z q.tail.index) :
    Newest z { q with tail := { q.tail with index := q.tail.index + 1 } } q.tail.index := by
  refine ⟨hv, rfl, ?_⟩
  change q.start q.tail.block = some (lapStart z q.tail.index)
  rw [Ready, nextValue_of_isValue hv] at h
  exact h

/-- Inside a lap, the block of the newest position is ready for the next one. -/
theorem Newest.ready (h : Newest z q p) (hl : ¬IsLast z p) : Ready z q := by
  obtain ⟨hv, hp, hs⟩ := h
  have hnext : IsValue z (p + 1) := by
    by_contra hn
    exact hl (isLast_iff.mpr ⟨hv, hn⟩)
  change q.start q.tail.block = some (lapStart z (nextValue z q.tail.index))
  rw [← hp, nextValue_of_isValue hnext, lapStart_eq, lapOf_succ_of_isValue hv, ← lapStart_eq]
  exact hs

end Tail

section Push

end Push

section Receives

/-- `tail.block` stays ready when the tail and its start do not change. -/
theorem Ready.keep (h : Ready z q) (ht : q'.tail = q.tail)
    (hs : q'.start q.tail.block = q.start q.tail.block) : Ready z q' := by
  unfold Ready TailServes at h ⊢
  rw [ht, hs]
  exact h

end Receives

section Alignment

variable [DecidableEq Tid]

/-- The queue stays aligned when the thread that moves is the only one in an
operation. -/
theorem Aligned.update (ha : Alone s t) {pc : Pc V}
    (hp : ∀ p, pc = .push p → Tracks cfg.size q p) (hr : (∀ p, pc ≠ .push p) → Ready cfg.size q) :
    Aligned cfg ⟨q, Function.update s.pc t pc⟩ where
  tracks u p hu := by
    by_cases hut : u = t
    · subst hut
      exact hp p (by simpa using hu)
    · simp [hut, ha u hut] at hu
  ready hn := hr fun p hp' => hn t p (by simpa using hp')

end Alignment

section Return

variable [DecidableEq Tid] {op : Op V} {U : List (ℕ × V)}

end Return

end Rapidfire.QueueSerial
