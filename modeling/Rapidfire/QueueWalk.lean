import Rapidfire.QueueBlocks

/-!
# The walk of `find_block`

A push that has claimed a position looks for the block of its lap, starting
from any block `tail.block` ever pointed to. The unwritten slot keeps every
block from its lap to the tail in the live chain, so a block with a larger
start has a predecessor, and a block with the right start keeps it until the
slot is published.
-/

namespace Rapidfire.QueueWalk

open Positions QueueMemory QueuePush QueueMachine QueueCoherence QueueLocal QueueInvariant
  QueueBlocks Runs

variable {Tid V : Type} {cfg : Config Tid} {s s' : State Tid V} {g : Ghost Tid V}
  {t u : Tid} {l : Label V} {τ τ' : List (Tid × Label V)} {b : BlockId} {c : Claim V}

/-- Block a walk is about to dereference. -/
def walksOver : Pc V → Option BlockId
  | .push (.findStart _ block) | .push (.slowStart _ block) | .push (.slowPrev _ block) =>
    some block
  | _ => none

/-- Claim of a push whose `find_block` has returned, with the block it returned. -/
def pushFound : PushPc V → Option (Claim V × BlockId)
  | .takeSpare c block | .takePool c block | .resetMark c block _ _ | .resetStart c block _
  | .allocate c block | .storePrev c block _ | .storeNext c block _ | .storeStart c block _
  | .linkNext c block _ | .storeTail c block _ | .writeValue c block | .publish c block =>
    some (c, block)
  | _ => none

/-- Claim and found block of a thread. -/
def foundBlock : Pc V → Option (Claim V × BlockId)
  | .push pc => pushFound pc
  | _ => none

/-- The block serves the lap of the position in the live chain, and no other
block carries that start. -/
structure Right (cfg : Config Tid) (s : State Tid V) (pos : ℕ) (b : BlockId) : Prop where
  start : s.queue.start b = some (lapStart cfg.size pos)
  unique : ∀ b', s.queue.start b' = some (lapStart cfg.size pos) → b' = b
  serving : Located cfg s b .serving
  place_unique : ∀ P, Located cfg s b P → P = .serving

/-- Result of a push that publishes its position. -/
def published (c : Claim V) : Label V := .access none (some (.push (.pushed c.tail c.wake)))

section Facts

/-- A walk dereferences allocated blocks. -/
theorem walksOver_lt (h : Inv cfg s g) (hb : walksOver (s.pc t) = some b) :
    b < s.queue.allocated := by
  cases hpc : s.pc t with
  | push pc =>
    have hl := QueuePushSteps.local_push h hpc
    have hw := QueuePushSteps.view_writes cfg hpc
    rw [hpc] at hb
    cases pc with
    | findStart c block | slowStart c block =>
      obtain rfl := Option.some.inj hb
      exact hl.2
    | slowPrev c block =>
      obtain rfl := Option.some.inj hb
      obtain ⟨-, L, hlt, hL, rfl⟩ := hl
      have hlive := h.coherent.writes_live hw
      exact h.coherent.chain_lt_allocated (by omega) hL
    | _ => cases hb
  | _ =>
    rw [hpc] at hb
    cases hb

/-- The block ahead of the target has a predecessor in the live chain. -/
theorem prev_of_ahead (h : Inv cfg s g) (hpc : s.pc t = .push (.slowPrev c b)) :
    ∃ b', s.queue.prev b = some b' ∧ b' < s.queue.allocated := by
  obtain ⟨-, L, hlt, hL, rfl⟩ := QueuePushSteps.local_push h hpc
  have hlive := h.coherent.writes_live (QueuePushSteps.view_writes cfg hpc)
  have hprev := h.coherent.prev_chain (L - 1) (by omega) (by omega)
  have hL' : L - 1 + 1 = L := by omega
  rw [hL'] at hprev
  exact ⟨_, hprev, h.coherent.chain_lt_allocated (by omega) (by omega)⟩

/-- A found block serves the lap of the claimed position, which is not yet
published. -/
theorem serves_of_found (h : Inv cfg s g) (hf : foundBlock (s.pc t) = some (c, b)) :
    (views cfg.size s.pc).writes t = some c.tail ∧ Serves cfg g c.tail b := by
  cases hpc : s.pc t with
  | push pc =>
    have hl := QueuePushSteps.local_push h hpc
    have hw := QueuePushSteps.view_writes cfg hpc
    rw [hpc] at hf
    rw [hw]
    cases pc with
    | takeSpare c' block | takePool c' block | allocate c' block =>
      obtain ⟨rfl, rfl⟩ := Prod.mk.inj (Option.some.inj hf)
      exact ⟨rfl, hl.2.1⟩
    | resetMark c' block next i | resetStart c' block next | storePrev c' block next
    | storeNext c' block next | storeStart c' block next | linkNext c' block next
    | storeTail c' block next =>
      obtain ⟨rfl, rfl⟩ := Prod.mk.inj (Option.some.inj hf)
      exact ⟨rfl, hl.1.2.1⟩
    | writeValue c' block =>
      obtain ⟨rfl, rfl⟩ := Prod.mk.inj (Option.some.inj hf)
      exact ⟨rfl, hl.2.1⟩
    | publish c' block =>
      obtain ⟨rfl, rfl⟩ := Prod.mk.inj (Option.some.inj hf)
      exact ⟨rfl, hl.1.2.1⟩
    | _ => cases hf
  | _ =>
    rw [hpc] at hf
    cases hf

/-- A block of the live chain is the right one for the positions of its lap. -/
theorem right_of_live (h : Inv cfg s g) {pos : ℕ} (hlive : g.headLap ≤ lapOf cfg.size pos)
    (hb : Serves cfg g pos b) : Right cfg s pos b := by
  obtain ⟨hlt, rfl⟩ := hb
  have hstart := h.coherent.start_chain _ hlive hlt
  rw [← lapStart_eq] at hstart
  have hplace := h.coherent.place_chain hlive hlt
  exact ⟨hstart, fun b' hb' => start_injective h hb' hstart, (located_iff h).mpr hplace,
    fun P hP => ((located_iff h).mp hP).symm.trans hplace⟩

/-- A found block is the right one. -/
theorem right_of_found (h : Inv cfg s g) (hf : foundBlock (s.pc t) = some (c, b)) :
    Right cfg s c.tail b := by
  obtain ⟨hw, hb⟩ := serves_of_found h hf
  exact right_of_live h (h.coherent.writes_live hw) hb

end Facts

section Persistence

/-- A push keeps the block it found until it publishes its position. -/
theorem push_keeps (z : BlockSize) (flag : ℕ) (fail : Bool) (q : Queue V) {pc : PushPc V}
    (hf : pushFound pc = some (c, b)) :
    (∃ pc', (pc.exec z flag fail q).2.1 = .goto pc' ∧ pushFound pc' = some (c, b)) ∨
    (pc.exec z flag fail q).2.1 = .ret (.pushed c.tail c.wake) ∧
      (pc.exec z flag fail q).2.2 = none := by
  cases pc with
  | publish c' block =>
    obtain ⟨rfl, rfl⟩ := Prod.mk.inj (Option.some.inj hf)
    exact .inr ⟨rfl, rfl⟩
  | takeSpare c' block =>
    left
    simp only [PushPc.exec]
    split <;> exact ⟨_, rfl, hf⟩
  | takePool c' block =>
    left
    simp only [PushPc.exec, takeBlockSlow]
    split <;> exact ⟨_, rfl, hf⟩
  | resetMark c' block next i =>
    left
    simp only [PushPc.exec]
    split <;> exact ⟨_, rfl, hf⟩
  | resetStart c' block next | allocate c' block | storePrev c' block next
  | storeNext c' block next | storeStart c' block next | linkNext c' block next
  | storeTail c' block next | writeValue c' block => exact .inl ⟨_, rfl, hf⟩
  | _ => cases hf

variable [DecidableEq Tid]

/-- A thread keeps the block it found until it publishes its position. -/
theorem step_keeps (hs : Step cfg s (u, l) s') (hf : foundBlock (s.pc t) = some (c, b)) :
    u = t ∧ l = published c ∨ foundBlock (s'.pc t) = some (c, b) := by
  by_cases hu : u = t
  · subst hu
    cases hpc : s.pc u with
    | push pc =>
      obtain ⟨flag, fail, rfl, rfl⟩ := step_of_push hs hpc
      rw [hpc] at hf
      simp only [Function.update_self]
      rcases push_keeps cfg.size flag fail s.queue hf with
        ⟨pc', hn, hf'⟩ | ⟨hn, he⟩
      · rw [hn]
        exact .inr hf'
      · rw [hn, he]
        exact .inl ⟨trivial, rfl⟩
    | _ =>
      rw [hpc] at hf
      cases hf
  · right
    rcases step_cases hs with ⟨op, -, -, -, rfl⟩ | ⟨flag, fail, o, -, -, rfl⟩
    · simp only [State.setPc]
      rwa [Function.update_of_ne (Ne.symm hu)]
    · simp only
      rwa [Function.update_of_ne (Ne.symm hu)]

/-- Along a run in which the thread does not publish, it keeps the block. -/
theorem run_keeps (hr : Run (Step cfg) s τ' s') (hf : foundBlock (s.pc t) = some (c, b)) :
    (t, published c) ∈ τ' ∨ foundBlock (s'.pc t) = some (c, b) := by
  induction hr with
  | refl => exact .inr hf
  | @tail τ' m s' l hr hs ih =>
    obtain ⟨u, l⟩ := l
    rcases ih with hmem | hm
    · exact .inl (List.mem_append_left _ hmem)
    · rcases step_keeps hs hm with ⟨rfl, rfl⟩ | hm'
      · exact .inl (List.mem_append_right _ (List.mem_singleton.mpr rfl))
      · exact .inr hm'

end Persistence

variable [DecidableEq Tid]

/-- Every walk of `find_block` in any run. It dereferences allocated blocks
only, a block it steps back from has a predecessor, and no assertion fails.
The block it returns is the one block whose start is the first position of the
lap of the claimed position; it is serving and nowhere else, while the position
is unpublished, in every state up to the step by which the push publishes it. -/
theorem find_block_right (h : Reach cfg τ s) (t : Tid) :
    s.pc t ≠ .fault ∧
    (∀ b, walksOver (s.pc t) = some b → b < s.queue.allocated) ∧
    (∀ c b, s.pc t = .push (.slowPrev c b) →
      ∃ b', s.queue.prev b = some b' ∧ b' < s.queue.allocated) ∧
    ∀ c b, foundBlock (s.pc t) = some (c, b) → c.tail ∈ QueueHistory.claimOf cfg.size (s.pc t) ∧
      Right cfg s c.tail b ∧
      ∀ τ' s', Run (Step cfg) s τ' s' → (t, published c) ∈ τ' ∨
        foundBlock (s'.pc t) = some (c, b) ∧
          c.tail ∈ QueueHistory.claimOf cfg.size (s'.pc t) ∧ Right cfg s' c.tail b := by
  have claims {s : State Tid V} {g : Ghost Tid V} {c : Claim V} {b : BlockId} (hg : Inv cfg s g)
      (hf : foundBlock (s.pc t) = some (c, b)) :
      c.tail ∈ QueueHistory.claimOf cfg.size (s.pc t) ∧ Right cfg s c.tail b :=
    ⟨Option.mem_toList.mpr (serves_of_found hg hf).1, right_of_found hg hf⟩
  obtain ⟨g, hg⟩ := reach_inv h
  refine ⟨no_fault h t, fun b => walksOver_lt hg, fun c b => prev_of_ahead hg,
    fun c b hf => ⟨(claims hg hf).1, (claims hg hf).2, fun τ' s' hr => ?_⟩⟩
  obtain ⟨g', hg'⟩ := reach_inv (h.append hr)
  exact (run_keeps hr hf).imp id fun hf' => ⟨hf', claims hg' hf'⟩

/-- Thread 0 claims the first position and pauses; thread 1 fills the block and
installs the next one; thread 0 walks back. -/
def walkBack : List (Fin 2 × Choice ℕ) :=
  (0, .call (.push 7)) :: List.replicate 4 (0, .run 0 false) ++
  (1, .call (.push 8)) :: List.replicate 8 (1, .run 0 false) ++
  (1, .call (.push 9)) :: List.replicate 16 (1, .run 0 false) ++
  List.replicate 6 (0, .run 0 false)

/-- In that run the tail block serves the second lap, and the walk finds
block 0, which serves the first. -/
theorem find_block_right_of_walkBack :
    ∃ (τ : List (Fin 2 × Label ℕ)) (s : State (Fin 2) ℕ) (c : Claim ℕ), Reach shared τ s ∧
      s.queue.tail.block = 1 ∧ c.tail = 0 ∧ foundBlock (s.pc 0) = some (c, 0) ∧
      Right shared s 0 0 := by
  have h : ((State.init (Fin 2) ℕ).runs shared walkBack).map
      (fun r => (r.2.queue.tail.block, (foundBlock (r.2.pc 0)).map fun f => (f.1.tail, f.2))) =
        some (1, some (0, 0)) := by
    decide +kernel
  obtain ⟨⟨τ, s⟩, hr, he⟩ := Option.map_eq_some_iff.mp h
  obtain ⟨htail, hf⟩ := Prod.mk.inj he
  obtain ⟨⟨c, b⟩, hf, hc⟩ := Option.map_eq_some_iff.mp hf
  obtain ⟨hpos, rfl⟩ := Prod.mk.inj hc
  have hreach : Reach shared τ s := State.runs_run hr
  obtain ⟨-, -, -, hright⟩ := find_block_right hreach 0
  have hb := (hright c _ hf).2.1
  rw [show c.tail = 0 from hpos] at hb
  exact ⟨τ, s, c, hreach, htail, hpos, hf, hb⟩

end Rapidfire.QueueWalk
