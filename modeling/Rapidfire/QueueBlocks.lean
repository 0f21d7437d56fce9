import Rapidfire.QueueHistory
import Mathlib.Data.List.Nodup

/-!
# The life of a block

A block serves a lap, is passed on by the operation that holds it, or waits in
the spare slot or the pool. While a consumer is still copying a value out of
it, a block is never ready for another lap. `Drop` walks the chain, the spare
slot and the pool.
-/

namespace Rapidfire.QueueBlocks

open Positions QueueMemory QueuePush QueuePop QueueSingle QueueMachine QueueCoherence QueueLocal
  QueueInvariant Runs

variable {Tid V : Type} {cfg : Config Tid} {q : Queue V} {s s' : State Tid V} {g : Ghost Tid V}
  {t u : Tid} {l : Label V} {τ : List (Tid × Label V)} {b : BlockId}

/-- Where a block is, read off the shared memory and the program points. -/
def Located (cfg : Config Tid) (s : State Tid V) (b : BlockId) : Place Tid → Prop
  | .fresh => s.queue.allocated ≤ b
  | .serving => ∃ L H, s.queue.start b = some (L * lap cfg.size) ∧
      s.queue.start s.queue.head.block = some (H * lap cfg.size) ∧ H ≤ L
  | .spare => s.queue.spare = some b
  | .ready => b ∈ s.queue.pool.ready
  | .retired => b ∈ s.queue.pool.retired
  | .hand t => holds cfg.size (s.pc t) = some b

/-- Block whose slot a consumer has claimed and not yet copied. -/
def copiesFrom : Pc V → Option BlockId
  | .pop (.sample _ block) => some block
  | .pop (.readValue k) => some k.block
  | _ => none

/-- Blocks that the next installer may take as they are. -/
def Pooled (q : Queue V) (b : BlockId) : Prop := q.spare = some b ∨ b ∈ q.pool.ready

/-- First loop of `Drop`: the values dropped between two indices, an
uninitialised one as `none`. The first argument counts the iterations. -/
def dropValues (z : BlockSize) (q : Queue V) : ℕ → ℕ → Option BlockId → List (Option V)
  | 0, _, _ => []
  | _, _, none => []
  | n + 1, head, some block =>
    if offset z head = blockCap z then dropValues z q n (head + 1) (q.next block)
    else if q.state block (offset z head) = writtenTag (lapOf z head) then
      q.value block (offset z head) :: dropValues z q n (head + 1) (some block)
    else dropValues z q n (head + 1) (some block)

/-- Second loop of `Drop`: the blocks released along `next`, or `none` when the
walk takes longer than the given number of steps. -/
def releaseChain (next : BlockId → Option BlockId) : ℕ → Option BlockId → Option (List BlockId)
  | _, none => some []
  | 0, some _ => none
  | n + 1, some block => (releaseChain next n (next block)).map (block :: ·)

/-- The blocks released by `Drop`, in order. -/
def releaseAll (q : Queue V) : Option (List BlockId) :=
  (releaseChain q.next q.allocated (some q.head.block)).map fun chain =>
    chain ++ q.spare.toList ++ q.pool.ready ++ q.pool.retired

/-- `Drop for Queue`: the values dropped and the blocks released. -/
def dropQueue (z : BlockSize) (q : Queue V) : Option (List (Option V) × List BlockId) :=
  (releaseAll q).map fun blocks =>
    (dropValues z q (q.tail.index - q.head.index) q.head.index (some q.head.block), blocks)

section Places

/-- The auxiliary record knows where every block is. -/
theorem located_iff (h : Inv cfg s g) {P : Place Tid} : Located cfg s b P ↔ g.place b = P := by
  cases P with
  | fresh => exact h.coherent.fresh_iff b
  | spare => exact h.coherent.spare_iff b
  | ready => exact h.coherent.ready_iff b
  | retired => exact h.coherent.retired_iff b
  | hand t => exact h.coherent.hand_iff t b
  | serving =>
    have hhead := h.coherent.start_chain g.headLap le_rfl h.coherent.headLap_lt
    rw [← h.coherent.serving_iff b, ← h.coherent.head_block] at *
    constructor
    · rintro ⟨L, H, hb, hh, hle⟩
      rw [hhead, Option.some.injEq] at hh
      obtain rfl := mul_lap_injective hh
      obtain ⟨L', hL', he, hc⟩ := h.coherent.chain_start b _ hb
      obtain rfl := mul_lap_injective he
      exact ⟨L, hle, hL', hc⟩
    · rintro ⟨L, hL, hL', rfl⟩
      exact ⟨L, g.headLap, h.coherent.start_chain L hL hL', hhead, hL⟩

/-- Every block is in exactly one place. -/
theorem located_unique (h : Inv cfg s g) (b : BlockId) : ∃! P, Located cfg s b P :=
  ⟨g.place b, (located_iff h).mpr rfl, fun _ hP => ((located_iff h).mp hP).symm⟩

/-- No two blocks serve or carry the same lap. -/
theorem start_injective (h : Inv cfg s g) {b b' : BlockId} {S : ℕ}
    (hb : s.queue.start b = some S) (hb' : s.queue.start b' = some S) : b = b' := by
  obtain ⟨L, -, rfl, rfl⟩ := h.coherent.chain_start b S hb
  obtain ⟨L', -, he, rfl⟩ := h.coherent.chain_start b' _ hb'
  rw [mul_lap_injective he]

end Places

section Copying

/-- A block that a consumer is copying from carries the lap of a position that
is not finished. -/
theorem start_of_copies (h : Inv cfg s g) (hu : copiesFrom (s.pc u) = some b) :
    ∃ p, IsValue cfg.size p ∧ ¬g.finished p ∧
      s.queue.start b = some (lapOf cfg.size p * lap cfg.size) := by
  obtain ⟨p, hr, hs⟩ : ∃ p, (views cfg.size s.pc).reads u = some p ∧
      g.chain (lapOf cfg.size p) = b := by
    have hl := h.assertion u
    cases hpc : s.pc u with
    | pop pc =>
      rw [hpc] at hu hl
      cases pc with
      | sample head block =>
        obtain rfl := Option.some.inj hu
        exact ⟨head, QueuePopSteps.view_reads cfg hpc, hl.2.1.2⟩
      | readValue k =>
        obtain rfl := Option.some.inj hu
        exact ⟨k.head, QueuePopSteps.view_reads cfg hpc, hl.2.1.2⟩
      | _ => cases hu
    | _ =>
      rw [hpc] at hu
      cases hu
  have hst := QueueConsume.start_of_reads h.coherent hr
  rw [hs] at hst
  exact ⟨p, (h.coherent.reads_spec u p hr).1, QueueConsume.not_finished h.coherent hr, hst⟩

/-- Nobody copies from a pooled block. -/
theorem not_copied_of_pooled (h : Inv cfg s g) (hb : Pooled s.queue b) :
    copiesFrom (s.pc u) ≠ some b := by
  intro hu
  obtain ⟨p, -, -, hs⟩ := start_of_copies h hu
  have hplace : g.place b = .spare ∨ g.place b = .ready :=
    hb.imp (h.coherent.spare_iff b).mp (h.coherent.ready_iff b).mp
  rw [(h.coherent.pooled b hplace).1] at hs
  cases hs

/-- Nobody copies from a retired block whose readers are done. -/
theorem not_copied_of_done (h : Inv cfg s g) (hb : b ∈ s.queue.pool.retired)
    (hd : Queue.readersDone cfg.size s.queue b = true) : copiesFrom (s.pc u) ≠ some b := by
  intro hu
  obtain ⟨p, hv, hf, hs⟩ := start_of_copies h hu
  obtain ⟨last, hlast, hfin, -, hs'⟩ := h.coherent.retired b ((h.coherent.retired_iff b).mp hb)
  have hlap : lapOf cfg.size p = lapOf cfg.size last := by
    rw [hs, Option.some.injEq] at hs'
    exact mul_lap_injective hs'
  by_cases hp : IsLast cfg.size p
  · exact hf (hp.ext hlast hlap ▸ hfin)
  · refine hf (h.coherent.marked b p hs hv (List.all_eq_true.mp hd _ (List.mem_range.mpr ?_)))
    have := isValue_iff.mp hv
    simp only [IsLast] at hp
    omega

/-- A step of a consumer that is copying changes no memory. -/
theorem exec_of_copies {z : BlockSize} {capacity : Option ℕ} {flag : ℕ} {fail : Bool}
    {pc : PopPc V} (hu : copiesFrom (.pop pc) = some b) :
    (pc.exec z capacity flag fail q).1 = q := by
  cases pc with
  | sample head block => rfl
  | readValue k =>
    simp only [PopPc.exec]
    split <;> rfl
  | _ => cases hu

end Copying

section Inversion

variable {z : BlockSize} {capacity : Option ℕ} {flag : ℕ} {fail : Bool}

/-- A push publishes a start position at `storeStart` only. -/
theorem push_start {pc : PushPc V} {S : ℕ} (hs : (pc.exec z flag fail q).1.start b = some S) :
    q.start b = some S ∨ ∃ c block, pc = .storeStart c block b := by
  cases pc with
  | resetStart c block next =>
    exact .inl (Updates.update_none_iff.mp hs).2
  | allocate c block =>
    exact .inl (Updates.update_none_iff.mp hs).2
  | storeStart c block next =>
    rcases Updates.update_some_iff.mp hs with ⟨rfl, -⟩ | ⟨-, hs⟩
    · exact .inr ⟨c, block, rfl⟩
    · exact .inl hs
  | takePool c block =>
    simp only [PushPc.exec, takeBlockSlow] at hs
    split at hs <;> exact .inl hs
  | fetchAdd v expected | casTry v tail failed | casLevel v tail failed | boundedSkip v cap tail
  | boundedHead v cap tail | boundedTry v cap tail | slowStart c block | slowPrev c block
  | takeSpare c block =>
    simp only [PushPc.exec] at hs
    (repeat' split at hs) <;> exact .inl hs
  | _ => exact .inl hs

/-- A pop publishes no start position. -/
theorem pop_start {pc : PopPc V} {S : ℕ}
    (hs : (pc.exec z capacity flag fail q).1.start b = some S) : q.start b = some S := by
  cases pc with
  | resetStart k v => exact (Updates.update_none_iff.mp hs).2
  | claim head block wait | readValue k | loadNext k v | recycleSpare k v =>
    simp only [PopPc.exec] at hs
    split at hs <;> exact hs
  | _ => exact hs

/-- An exclusive receive publishes no start position. -/
theorem single_start {pc : SinglePc V} {S : ℕ}
    (hs : (pc.exec z capacity flag fail q).1.start b = some S) : q.start b = some S := by
  cases pc with
  | leave batch pc =>
    cases pc with
    | resetStart r wake => exact (Updates.update_none_iff.mp hs).2
    | loadNext r | advance r | recycleSpare r wake =>
      simp only [SinglePc.exec, LeavePc.exec] at hs
      split at hs <;> exact hs
    | _ => exact hs
  | readValue head block | slotValue max r =>
    simp only [SinglePc.exec] at hs
    split at hs <;> exact hs
  | _ => exact hs

/-- A push takes a block from `retired` in the pool section only, and only
when its readers are done. -/
theorem push_retired {pc : PushPc V} (hb : b ∈ q.pool.retired)
    (hb' : b ∉ (pc.exec z flag fail q).1.pool.retired) : Queue.readersDone z q b = true := by
  cases pc with
  | takePool c block =>
    simp only [PushPc.exec, takeBlockSlow] at hb'
    split at hb'
    · exact absurd hb hb'
    · rename_i found hready hfind
      have hd : Queue.readersDone z q found = true := List.find?_some hfind
      by_cases he : b = found
      · exact he ▸ hd
      · refine absurd ?_ hb'
        have hidx : q.pool.retired[q.pool.retired.findIdx (Queue.readersDone z q)]? =
            some found := by
          rw [← hfind, ← List.find?_eq_getElem?_findIdx]
        have hperm := swapRemove_perm hidx
        exact (List.mem_cons.mp (hperm.mem_iff.mpr hb)).resolve_left he
    · exact absurd hb hb'
  | fetchAdd v expected | casTry v tail failed | casLevel v tail failed | boundedSkip v cap tail
  | boundedHead v cap tail | boundedTry v cap tail | slowStart c block | slowPrev c block
  | takeSpare c block =>
    simp only [PushPc.exec] at hb'
    (repeat' split at hb') <;> exact absurd hb hb'
  | _ => exact absurd hb hb'

/-- A pop takes no block from `retired`. -/
theorem pop_retired {pc : PopPc V} (hb : b ∈ q.pool.retired) :
    b ∈ (pc.exec z capacity flag fail q).1.pool.retired := by
  cases pc with
  | retire k v => exact List.mem_append_left _ hb
  | claim head block wait | readValue k | loadNext k v | recycleSpare k v =>
    simp only [PopPc.exec]
    split <;> exact hb
  | _ => exact hb

/-- An exclusive receive takes no block from `retired`. -/
theorem single_retired {pc : SinglePc V} (hb : b ∈ q.pool.retired) :
    b ∈ (pc.exec z capacity flag fail q).1.pool.retired := by
  cases pc with
  | leave batch pc =>
    cases pc with
    | loadNext r | advance r | recycleSpare r wake =>
      simp only [SinglePc.exec, LeavePc.exec]
      split <;> exact hb
    | _ => exact hb
  | readValue head block | slotValue max r =>
    simp only [SinglePc.exec]
    split <;> exact hb
  | _ => exact hb

end Inversion

section Steps

/-- An access publishes a start position at `storeStart` only. -/
theorem exec_start {flag : ℕ} {fail : Bool} {o : Outcome V (Pc V) (Ret V)}
    (ho : (s.pc t).exec cfg flag fail s.queue = some o) {S : ℕ} (hs : o.1.start b = some S) :
    s.queue.start b = some S ∨ ∃ c block, s.pc t = .push (.storeStart c block b) := by
  cases hpc : s.pc t with
  | idle | fault => simp [hpc, Pc.exec] at ho
  | push pc =>
    rw [hpc, Pc.exec, Option.some.injEq] at ho
    subst ho
    refine (push_start hs).imp id ?_
    rintro ⟨c, block, rfl⟩
    exact ⟨c, block, rfl⟩
  | pop pc =>
    rw [hpc, Pc.exec, Option.some.injEq] at ho
    subst ho
    exact .inl (pop_start hs)
  | single pc =>
    rw [hpc, Pc.exec, Option.some.injEq] at ho
    subst ho
    exact .inl (single_start hs)
  | read pc =>
    rw [hpc, Pc.exec, Option.some.injEq] at ho
    subst ho
    cases pc <;> exact .inl hs

/-- An access takes a block from `retired` only when its readers are done. -/
theorem exec_retired {flag : ℕ} {fail : Bool} {o : Outcome V (Pc V) (Ret V)}
    (ho : (s.pc t).exec cfg flag fail s.queue = some o) (hb : b ∈ s.queue.pool.retired)
    (hb' : b ∉ o.1.pool.retired) : Queue.readersDone cfg.size s.queue b = true := by
  cases hpc : s.pc t with
  | idle | fault => simp [hpc, Pc.exec] at ho
  | push pc =>
    rw [hpc, Pc.exec, Option.some.injEq] at ho
    subst ho
    exact push_retired hb hb'
  | pop pc =>
    rw [hpc, Pc.exec, Option.some.injEq] at ho
    subst ho
    exact absurd (pop_retired hb) hb'
  | single pc =>
    rw [hpc, Pc.exec, Option.some.injEq] at ho
    subst ho
    exact absurd (single_retired hb) hb'
  | read pc =>
    rw [hpc, Pc.exec, Option.some.injEq] at ho
    subst ho
    cases pc <;> exact absurd hb hb'

/-- A thread that is copying changes no memory. -/
theorem copies_exec {flag : ℕ} {fail : Bool} {o : Outcome V (Pc V) (Ret V)}
    (ho : (s.pc t).exec cfg flag fail s.queue = some o) (hc : copiesFrom (s.pc t) = some b) :
    o.1 = s.queue := by
  cases hpc : s.pc t with
  | pop pc =>
    rw [hpc] at hc
    rw [hpc, Pc.exec, Option.some.injEq] at ho
    subst ho
    exact exec_of_copies hc
  | _ =>
    rw [hpc] at hc
    cases hc

variable [DecidableEq Tid]

/-- A block becomes ready, or leaves `retired`, only when nobody copies from
it any more. -/
theorem not_copied_of_step (h : Inv cfg s g) (hs : Step cfg s (t, l) s')
    (hb : Pooled s'.queue b ∧ ¬Pooled s.queue b ∨
      b ∈ s.queue.pool.retired ∧ b ∉ s'.queue.pool.retired) (u : Tid) :
    copiesFrom (s.pc u) ≠ some b := by
  obtain ⟨g', h', -⟩ := step_inv h hs
  rcases step_cases hs with ⟨op, rfl, -, -, rfl⟩ | ⟨flag, fail, o, ho, rfl, rfl⟩
  · rcases hb with ⟨hb, hn⟩ | ⟨hb, hn⟩ <;> exact absurd hb hn
  rcases hb with ⟨hb, hn⟩ | ⟨hb, hn⟩
  · intro hu
    by_cases hut : u = t
    · subst hut
      rw [copies_exec ho hu] at hb
      exact hn hb
    · refine not_copied_of_pooled h' (u := u) hb ?_
      change copiesFrom (Function.update s.pc t (nextPc o.2.1) u) = some b
      rwa [Function.update_of_ne hut]
  · exact not_copied_of_done h hb (exec_retired ho hb hn)

/-- The marks of a block are clear when its start position is published. -/
theorem unmarked_of_step (h : Inv cfg s g) (hs : Step cfg s (t, l) s') {S : ℕ}
    (hb : s'.queue.start b = some S) (hn : s.queue.start b ≠ some S) :
    ∀ i < blockCap cfg.size, s'.queue.mark b i = false := by
  rcases step_cases hs with ⟨op, rfl, -, -, rfl⟩ | ⟨flag, fail, o, ho, rfl, rfl⟩
  · exact absurd hb hn
  · rcases exec_start ho hb with hb | ⟨c, block, hpc⟩
    · exact absurd hb hn
    · rw [hpc, Pc.exec, Option.some.injEq] at ho
      subst ho
      exact (QueuePushSteps.local_push h hpc).2.1.2

end Steps

section Drop

/-- The walk along `next` follows a chain to its end. -/
theorem releaseChain_eq {next : BlockId → Option BlockId} {f : ℕ → BlockId} {n fuel : ℕ}
    (hnext : ∀ i < n, next (f i) = some (f (i + 1))) (hlast : next (f n) = none)
    (hfuel : n < fuel) : releaseChain next fuel (some (f 0)) = some ((List.range (n + 1)).map f) := by
  induction n generalizing f fuel with
  | zero =>
    obtain ⟨fuel, rfl⟩ := Nat.exists_eq_succ_of_ne_zero (Nat.ne_of_gt hfuel)
    simp [releaseChain, hlast]
  | succ n ih =>
    obtain ⟨fuel, rfl⟩ := Nat.exists_eq_succ_of_ne_zero (Nat.ne_zero_of_lt hfuel)
    have hrec := ih (f := fun i => f (i + 1)) (fun i hi => hnext (i + 1) (Nat.succ_lt_succ hi))
      hlast (Nat.lt_of_succ_lt_succ hfuel)
    rw [releaseChain, hnext 0 (Nat.succ_pos n), hrec, Option.map_some,
      List.range_succ_eq_map (n := n + 1), List.map_cons, List.map_map]
    rfl

/-- The live chain without an operation in flight. -/
def liveChain (g : Ghost Tid V) : List BlockId :=
  (List.range (g.laps - 1 - g.headLap + 1)).map fun i => g.chain (g.headLap + i)

/-- The blocks of the live chain are those that serve. -/
theorem mem_liveChain (h : Inv cfg s g) : b ∈ liveChain g ↔ g.place b = .serving := by
  have := h.coherent.headLap_lt
  simp only [liveChain, List.mem_map, List.mem_range, ← h.coherent.serving_iff b]
  constructor
  · rintro ⟨i, hi, rfl⟩
    exact ⟨g.headLap + i, by omega, by omega, rfl⟩
  · rintro ⟨L, hL, hL', rfl⟩
    exact ⟨L - g.headLap, by omega, by rw [Nat.add_sub_cancel' hL]⟩

/-- The live chain has no block twice. -/
theorem liveChain_nodup (h : Inv cfg s g) : (liveChain g).Nodup := by
  have hlt := h.coherent.headLap_lt
  refine List.Nodup.map_on (fun i hi j hj he => ?_) List.nodup_range
  have hi := List.mem_range.mp hi
  have hj := List.mem_range.mp hj
  have := h.coherent.chain_inj (by omega) (by omega) (by omega) (by omega) he
  omega

/-- The live chain is part of the allocated blocks. -/
theorem live_le_allocated (h : Inv cfg s g) : g.laps - g.headLap ≤ s.queue.allocated := by
  have hsub : (liveChain g).Subperm (List.range s.queue.allocated) :=
    (liveChain_nodup h).subperm fun b hb => List.mem_range.mpr
      (h.coherent.lt_allocated (by simp [(mem_liveChain h).mp hb]))
  have hlen := hsub.length_le
  have hlt := h.coherent.headLap_lt
  simp only [liveChain, List.length_map, List.length_range] at hlen
  omega

/-- While no block is being linked, the walk along `next` meets the live chain. -/
theorem release_live (h : Inv cfg s g) (hstage : ∀ t, (views cfg.size s.pc).stage t ≠ .linking) :
    releaseChain s.queue.next s.queue.allocated (some s.queue.head.block) = some (liveChain g) := by
  have hlt := h.coherent.headLap_lt
  have hnext : ∀ i < g.laps - 1 - g.headLap,
      s.queue.next (g.chain (g.headLap + i)) = some (g.chain (g.headLap + (i + 1))) :=
    fun i hi => h.coherent.next_settled hstage (by omega) (by omega)
  have hlast : s.queue.next (g.chain (g.headLap + (g.laps - 1 - g.headLap))) = none := by
    rw [Nat.add_sub_cancel' (by omega)]
    exact h.coherent.next_last
  have hfuel := live_le_allocated h
  rw [h.coherent.head_block]
  exact releaseChain_eq (f := fun i => g.chain (g.headLap + i)) hnext hlast (by omega)

/-- Without an operation in flight, `Drop` releases every allocated block
exactly once. -/
theorem drop_releases (h : Inv cfg s g) (hidle : ∀ t, s.pc t = .idle) :
    ∃ values blocks, dropQueue cfg.size s.queue = some (values, blocks) ∧
      blocks.Perm (List.range s.queue.allocated) := by
  have hstage : ∀ t, (views cfg.size s.pc).stage t ≠ .linking := fun t => by
    simp [views, stage, hidle t]
  have hholds : ∀ t b, g.place b ≠ .hand t := fun t b hb => by
    have := (h.coherent.hand_iff t b).mpr hb
    simp [views, holds, hidle t] at this
  have hchain := release_live h hstage
  refine ⟨_, _, by rw [dropQueue, releaseAll, hchain]; rfl, ?_⟩
  refine (List.perm_ext_iff_of_nodup ?_ List.nodup_range).mpr fun b => ?_
  · have hspare : s.queue.spare.toList.Nodup := by
      cases s.queue.spare <;> simp
    simp only [List.nodup_append, List.mem_append, Option.mem_toList]
    refine ⟨⟨⟨liveChain_nodup h, hspare, ?_⟩, h.coherent.ready_nodup, ?_⟩,
      h.coherent.retired_nodup, ?_⟩
    · rintro b hb b' hb' rfl
      rw [mem_liveChain h, (h.coherent.spare_iff b).mp hb'] at hb
      cases hb
    · rintro b hb b' hb' rfl
      rw [mem_liveChain h, h.coherent.spare_iff, (h.coherent.ready_iff b).mp hb'] at hb
      rcases hb with hb | hb <;> cases hb
    · rintro b hb b' hb' rfl
      rw [mem_liveChain h, h.coherent.spare_iff, h.coherent.ready_iff,
        (h.coherent.retired_iff b).mp hb'] at hb
      rcases hb with (hb | hb) | hb <;> cases hb
  · simp only [List.mem_append, Option.mem_toList, List.mem_range,
      mem_liveChain h, h.coherent.spare_iff, h.coherent.ready_iff, h.coherent.retired_iff]
    rw [← Nat.not_le, h.coherent.fresh_iff]
    cases hp : g.place b with
    | hand t => exact absurd hp (hholds t b)
    | _ => simp

end Drop

variable [DecidableEq Tid]

/-- The life of the blocks in any run. Every allocated block is in exactly one
place, and no block is twice in a list of the pool. A block becomes spare or
ready, or leaves `retired`, only when no consumer that claimed one of its slots
is still copying. Its marks are clear when its new start is published, no two
blocks carry one start, and a drop without an operation in flight releases
every allocated block exactly once. -/
theorem block_life_cycle (h : Reach cfg τ s) :
    (∀ b, b < s.queue.allocated → ∃! P, Located cfg s b P) ∧
    s.queue.pool.ready.Nodup ∧ s.queue.pool.retired.Nodup ∧
    (∀ t l s' b, Step cfg s (t, l) s' →
      Pooled s'.queue b ∧ ¬Pooled s.queue b ∨
        b ∈ s.queue.pool.retired ∧ b ∉ s'.queue.pool.retired →
      ∀ u, copiesFrom (s.pc u) ≠ some b) ∧
    (∀ t l s' b S, Step cfg s (t, l) s' → s'.queue.start b = some S →
      s.queue.start b ≠ some S → ∀ i < blockCap cfg.size, s'.queue.mark b i = false) ∧
    (∀ b b' S, s.queue.start b = some S → s.queue.start b' = some S → b = b') ∧
    ((∀ t, s.pc t = .idle) → ∃ values blocks, dropQueue cfg.size s.queue = some (values, blocks) ∧
      blocks.Perm (List.range s.queue.allocated)) := by
  obtain ⟨g, hg⟩ := reach_inv h
  exact ⟨fun b _ => located_unique hg b, hg.coherent.ready_nodup, hg.coherent.retired_nodup,
    fun t l s' b hs hb => not_copied_of_step hg hs hb,
    fun t l s' b S hs hb => unmarked_of_step hg hs hb, fun b b' S => start_injective hg,
    drop_releases hg⟩

/-- An unbounded queue of small blocks shared by two threads. -/
def shared : Config (Fin 2) := ⟨.small, none, Config.unbounded_pos, none⟩

/-- Thread 0 fills a block, thread 1 empties it. -/
def fillAndEmpty : List (Fin 2 × Choice ℕ) :=
  (0, .call (.push 7)) :: List.replicate 8 (0, .run 0 false) ++
  (0, .call (.push 8)) :: List.replicate 8 (0, .run 0 false) ++
  (0, .call (.push 9)) :: List.replicate 16 (0, .run 0 false) ++
  (1, .call .pop) :: List.replicate 6 (1, .run 0 false) ++
  (1, .call .pop) :: List.replicate 6 (1, .run 0 false) ++
  (1, .call .pop) :: List.replicate 15 (1, .run 0 false)

/-- In that run the first block ends up spare, nobody copies from a pooled
block, and dropping the queue releases both blocks once. -/
theorem block_life_cycle_of_fillAndEmpty :
    ∃ (τ : List (Fin 2 × Label ℕ)) (s : State (Fin 2) ℕ), Reach shared τ s ∧
      s.queue.allocated = 2 ∧ s.queue.spare = some 0 ∧
      (∀ b, b < 2 → ∃! P, Located shared s b P) ∧
      ∃ values blocks, dropQueue .small s.queue = some (values, blocks) ∧
        blocks.Perm (List.range 2) := by
  have h : ((State.init (Fin 2) ℕ).runs shared fillAndEmpty).map
      (fun r => (r.2.queue.allocated, r.2.queue.spare, (r.2.pc 0).isIdle, (r.2.pc 1).isIdle)) =
        some (2, some 0, true, true) := by
    decide +kernel
  obtain ⟨⟨τ, s⟩, hr, he⟩ := Option.map_eq_some_iff.mp h
  simp only [Prod.mk.injEq, Pc.isIdle_iff] at he
  obtain ⟨ha, hsp, h0, h1⟩ := he
  have hreach : Reach shared τ s := State.runs_run hr
  obtain ⟨hloc, -, -, -, -, -, hdrop⟩ := block_life_cycle hreach
  have hidle : ∀ t, s.pc t = .idle := Fin.forall_fin_two.mpr ⟨h0, h1⟩
  rw [ha] at hloc hdrop
  exact ⟨τ, s, hreach, ha, hsp, hloc, hdrop hidle⟩

end Rapidfire.QueueBlocks
