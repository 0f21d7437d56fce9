import Rapidfire.QueueAlone
import Mathlib.Data.Finset.Card

/-!
# Memory of a queue under concurrent use

A push allocates only when the spare slot was empty and the pool holds no free
block. Every block outside the live chain is then spare, in the hands of a
thread, or retired beside a reader that has not finished, and one thread keeps
at most one of them. So the memory follows the longest backlog and the number
of operations in flight, however long the run is.
-/

namespace Rapidfire.QueueFootprint

open Positions QueueMemory QueuePush QueuePop QueueSingle QueueMachine QueueCoherence QueueLocal
  QueueInvariant QueueBlocks QueueHighWater QueueAlone Runs

variable {Tid V : Type} {cfg : Config Tid} {s s' m : State Tid V} {g : Ghost Tid V} {t u : Tid}
  {l : Label V} {τ : List (Tid × Label V)} {q : Queue V} {b b' : BlockId} {flag : ℕ} {fail : Bool}
  {o : Outcome V (Pc V) (Ret V)} {pc : Pc V}

/-- Block whose marks a thread clears: an installer that reclaims a retired
block, or the consumer that finishes a block. -/
def clears : Pc V → Option BlockId
  | .push (.resetMark _ _ next _) | .push (.resetStart _ _ next) => some next
  | pc => resets pc

/-- Every position of a block that the head has passed is marked read, except the
last one, a position being read, and those of a block being cleared. -/
def Attended (cfg : Config Tid) (s : State Tid V) : Prop :=
  ∀ b p, s.queue.start b = some (lapOf cfg.size p * lap cfg.size) → IsValue cfg.size p →
    ¬IsLast cfg.size p → p < s.queue.head.index → (∀ u, reads (s.pc u) ≠ some p) →
    (∀ u, clears (s.pc u) ≠ some b) → s.queue.mark b (offset cfg.size p) = true

/-- The thread keeps the block from being used again: it holds the block, or
reads one of its slots other than the last. -/
def Keeps (cfg : Config Tid) (s : State Tid V) (u : Tid) (b : BlockId) : Prop :=
  holds cfg.size (s.pc u) = some b ∨
    ∃ p, reads (s.pc u) = some p ∧ ¬IsLast cfg.size p ∧
      s.queue.start b = some (lapOf cfg.size p * lap cfg.size)

/-- The thread is about to allocate a block. -/
def Allocating (pc : Pc V) : Prop := ∃ c block, pc = .push (.allocate c block)

/-- At most `n` operations are in flight. -/
def InFlight (s : State Tid V) (n : ℕ) : Prop :=
  ∀ F : Finset Tid, (∀ u ∈ F, s.pc u ≠ .idle) → F.card ≤ n

section Clearing

/-- A block being cleared is in the hands of the thread. -/
theorem holds_of_clears {z : BlockSize} (h : clears pc = some b) : holds z pc = some b := by
  cases pc with
  | push pc => cases pc <;> first | exact h | cases h
  | pop pc => cases pc <;> first | exact h | cases h
  | _ => cases h

/-- A block is cleared until its start position is gone. -/
theorem clears_exec (ho : pc.exec cfg flag fail q = some o) (hb : clears pc = some b) :
    clears (nextPc o.2.1) = some b ∨ o.1.start b = none := by
  cases pc with
  | push pc =>
    obtain rfl := Option.some.inj ho
    cases pc with
    | resetMark c block next i =>
      left
      dsimp only
      split <;> exact hb
    | resetStart c block next =>
      right
      obtain rfl := Option.some.inj hb
      exact Function.update_self _ _ _
    | _ => cases hb
  | pop pc =>
    obtain rfl := Option.some.inj ho
    cases pc with
    | resetMark k v i =>
      left
      dsimp only
      split <;> exact hb
    | resetStart k v =>
      right
      obtain rfl := Option.some.inj hb
      exact Function.update_self _ _ _
    | _ => cases hb
  | _ => cases hb

/-- A push clears marks of the block it reclaims or allocates only. -/
theorem push_mark {pc : PushPc V} {z : BlockSize} {i : ℕ} (hm : q.mark b i = true)
    (hc : clears (.push pc) ≠ some b) :
    (pc.exec z flag fail q).1.mark b i = true ∨ (pc.exec z flag fail q).1.start b = none := by
  cases pc with
  | resetMark c block next j =>
    left
    have hne : b ≠ next := fun he => hc (congrArg some he.symm)
    simp only [PushPc.exec, Queue.mark_setMark]
    rwa [Function.update_of_ne hne]
  | allocate c block =>
    simp only [PushPc.exec, Queue.alloc]
    by_cases hb : b = q.allocated
    · right
      rw [hb, Function.update_self]
    · left
      rwa [Function.update_of_ne hb]
  | takePool c block =>
    left
    simp only [PushPc.exec, takeBlockSlow]
    split <;> exact hm
  | fetchAdd v expected | casTry v tail failed | casLevel v tail failed | boundedSkip v cap tail
  | boundedHead v cap tail | boundedTry v cap tail | slowStart c block | slowPrev c block
  | takeSpare c block =>
    left
    simp only [PushPc.exec]
    (repeat' split) <;> exact hm
  | _ => exact .inl hm

/-- A pop clears marks of the block it finishes only. -/
theorem pop_mark {pc : PopPc V} {z : BlockSize} {capacity : Option ℕ} {i : ℕ}
    (hm : q.mark b i = true) (hc : clears (.pop pc) ≠ some b) :
    (pc.exec z capacity flag fail q).1.mark b i = true := by
  cases pc with
  | resetMark k v j =>
    have hne : b ≠ k.block := fun he => hc (congrArg some he.symm)
    simp only [PopPc.exec, Queue.mark_setMark]
    rwa [Function.update_of_ne hne]
  | markRead k v =>
    simp only [PopPc.exec, Queue.mark_setMark]
    by_cases hb : b = k.block
    · subst hb
      rw [Function.update_self]
      by_cases hi : i = offset z k.head
      · rw [hi, Function.update_self]
      · rwa [Function.update_of_ne hi]
    · rwa [Function.update_of_ne hb]
  | claim head block wait | readValue k | loadNext k v | recycleSpare k v =>
    simp only [PopPc.exec]
    (repeat' split) <;> exact hm
  | _ => exact hm

/-- What a pop has passed and does not read was passed before, or is the position
it has just marked. -/
theorem pop_passed {pc : PopPc V} {p : ℕ} (hl : PopLocal cfg q g pc)
    (hf : (pc.exec cfg.size cfg.capacity flag fail q).2.1 ≠ .fault) (hv : IsValue cfg.size p)
    (hlast : ¬IsLast cfg.size p)
    (hp : p < (pc.exec cfg.size cfg.capacity flag fail q).1.head.index)
    (hr : reads (nextPc ((pc.exec cfg.size cfg.capacity flag fail q).2.1.map .pop Ret.pop)) ≠
      some p) :
    p < q.head.index ∧ reads (.pop pc) ≠ some p ∨ ∃ k v, pc = .markRead k v ∧ p = k.head := by
  have hnone : (none : Option ℕ) ≠ some p := (Option.some_ne_none p).symm
  cases pc with
  | claim head block wait =>
    left
    by_cases hc : q.head.index = head ∧ fail = false
    · simp only [PopPc.exec, hc, and_self, if_true] at hp hr
      have hne : p ≠ head := by
        rintro rfl
        refine hr ?_
        cases cfg.capacity <;> rfl
      exact ⟨by omega, hnone⟩
    · simp only [PopPc.exec, hc, if_false] at hp
      exact ⟨hp, hnone⟩
  | readValue k =>
    left
    cases hval : q.value k.block (offset cfg.size k.head) with
    | none => exact absurd (by simp [PopPc.exec, hval]) hf
    | some v =>
      simp only [PopPc.exec, hval] at hp hr
      refine ⟨hp, fun he => hr ?_⟩
      split <;> exact he
  | markRead k v =>
    by_cases he : p = k.head
    · exact .inr ⟨k, v, rfl, he⟩
    · exact .inl ⟨hp, fun hk => he (Option.some.inj hk).symm⟩
  | loadNext k v =>
    left
    cases hnext : q.next k.block with
    | none => exact absurd (by simp [PopPc.exec, hnext]) hf
    | some n =>
      simp only [PopPc.exec, hnext] at hp hr
      exact ⟨hp, hr⟩
  | swapIndex k v =>
    left
    obtain ⟨-, hlastk, hhead, -⟩ := hl
    have hsentinel := (isLast_iff.mp hlastk).2
    have hp' : p < k.head + 2 := hp
    have hne : p ≠ k.head := fun he => hlast (he ▸ hlastk)
    have hne' : p ≠ k.head + 1 := fun he => hsentinel (he ▸ hv)
    exact ⟨by omega, fun he => hne (Option.some.inj he).symm⟩
  | sample head block | storeBlock k v next => exact .inl ⟨hp, hr⟩
  | recycleSpare k v =>
    left
    cases hspare : q.spare <;> simp only [PopPc.exec, hspare] at hp <;> exact ⟨hp, hnone⟩
  | _ => exact .inl ⟨hp, hnone⟩

end Clearing

section Attention

/-- An access does not change whether a passed position is marked, unless it marks
it or clears its block. -/
theorem exec_attended (h : Inv cfg s g) (hx : cfg.exclusive = none)
    (ho : (s.pc t).exec cfg flag fail s.queue = some o) (hf : o.2.1 ≠ .fault) {p : ℕ}
    (hs : o.1.start b = some (lapOf cfg.size p * lap cfg.size)) (hv : IsValue cfg.size p)
    (hlast : ¬IsLast cfg.size p) (hp : p < o.1.head.index)
    (hr : reads (nextPc o.2.1) ≠ some p) (hc : clears (nextPc o.2.1) ≠ some b) :
    o.1.mark b (offset cfg.size p) = true ∨
      s.queue.start b = some (lapOf cfg.size p * lap cfg.size) ∧ p < s.queue.head.index ∧
        reads (s.pc t) ≠ some p ∧ clears (s.pc t) ≠ some b ∧
        (s.queue.mark b (offset cfg.size p) = true → o.1.mark b (offset cfg.size p) = true) := by
  have hnone : (none : Option ℕ) ≠ some p := (Option.some_ne_none p).symm
  have hclears : clears (s.pc t) ≠ some b := by
    intro he
    rcases clears_exec ho he with hn | hn
    · exact hc hn
    · rw [hs] at hn
      cases hn
  have hl := h.assertion t
  rcases exec_start ho hs with hstart | ⟨c, block, hpc⟩
  · cases hpc : s.pc t with
    | idle | fault => simp [hpc, Pc.exec] at ho
    | push pc =>
      rw [hpc, Pc.exec, Option.some.injEq] at ho
      subst ho
      have hhead : (pc.exec cfg.size flag fail s.queue).1.head = s.queue.head :=
        QueuePairing.push_head
      refine .inr ⟨hstart, by rwa [← hhead], hnone, hpc ▸ hclears, fun hm => ?_⟩
      rcases push_mark hm (hpc ▸ hclears) with hm' | hn
      · exact hm'
      · have hs' : (pc.exec cfg.size flag fail s.queue).1.start b = _ := hs
        rw [hn] at hs'
        cases hs'
    | pop pc =>
      rw [hpc] at hl
      rw [hpc, Pc.exec, Option.some.injEq] at ho
      subst ho
      have hf' : (pc.exec cfg.size cfg.capacity flag fail s.queue).2.1 ≠ .fault :=
        fun he => hf (congrArg (Next.map Pc.pop Ret.pop) he)
      rcases pop_passed hl.2 hf' hv hlast hp hr with ⟨hp', hr'⟩ | ⟨k, v, rfl, rfl⟩
      · exact .inr ⟨hstart, hp', hr', hpc ▸ hclears, fun hm => pop_mark hm (hpc ▸ hclears)⟩
      · left
        obtain ⟨-, ⟨⟨-, hblock⟩, -⟩, -, -⟩ := hl
        obtain ⟨L, -, he, hchain⟩ := h.coherent.chain_start b _ hstart
        obtain rfl := mul_lap_injective he
        simp only [PopPc.exec, Queue.mark_setMark]
        rw [← hblock, hchain, Function.update_self, Function.update_self]
    | single pc =>
      rw [hpc] at hl
      cases hx.symm.trans hl.1
    | read pc =>
      rw [hpc, Pc.exec, Option.some.injEq] at ho
      subst ho
      cases pc <;> exact .inr ⟨hstart, hp, hnone, hpc ▸ hclears, id⟩
  · rw [hpc] at hl
    rw [hpc, Pc.exec, Option.some.injEq] at ho
    subst ho
    have htail := (h.coherent.writes_spec t c.tail (QueuePushSteps.view_writes cfg hpc)).2.1
    simp only [PushPc.exec, Queue.start_setStart, Function.update_self, lapStart_eq,
      Option.some.injEq, ← Nat.succ_mul] at hs
    have hlap := mul_lap_injective hs
    have hp' : p < s.queue.head.index := hp
    have hmono := lapOf_mono (z := cfg.size) (show p ≤ c.tail by omega)
    omega

variable [DecidableEq Tid]

/-- What no thread shows after the step, no thread showed before it, if the one
that moved did not. -/
theorem avoided_before {α : Type} {f : Pc V → Option α} {x : α} {pc' : Pc V}
    (h : ∀ u, f (Function.update s.pc t pc' u) ≠ some x) (ht : f (s.pc t) ≠ some x) (u : Tid) :
    f (s.pc u) ≠ some x := by
  by_cases hu : u = t
  · exact hu ▸ ht
  · have hother := h u
    rwa [Function.update_of_ne hu] at hother

/-- Every passed position is attended to, in every state of a shared queue. -/
theorem reach_attended (h : Reach cfg τ s) (hx : cfg.exclusive = none) : Attended cfg s := by
  refine h.invariant (P := fun _ s => Attended cfg s) (fun b p _ _ _ hp => ?_) ?_
  · exact absurd hp (Nat.not_lt_zero p)
  · rintro τ s ⟨t, l⟩ s' hr ih hs b p hstart hv hlast hp hreads hclears
    obtain ⟨g, hg⟩ := reach_inv hr
    rcases step_cases hs with ⟨op, -, hidle, -, rfl⟩ | ⟨flag, fail, o, ho, -, rfl⟩
    · refine ih b p hstart hv hlast hp (avoided_before hreads ?_) (avoided_before hclears ?_)
      · simp [hidle, reads]
      · simp [hidle, clears, resets]
    · obtain ⟨g', hg'⟩ := exec_steps hg ho
      have hreads_t := hreads t
      have hclears_t := hclears t
      simp only [Function.update_self] at hreads_t hclears_t
      rcases exec_attended hg hx ho hg'.sound hstart hv hlast hp hreads_t hclears_t with
        hm | ⟨hstart', hp', hr', hc', hkeep⟩
      · exact hm
      · have hbefore := ih b p hstart' hv hlast hp' (avoided_before hreads hr')
          (avoided_before hclears hc')
        exact hkeep hbefore

end Attention

section Keepers

/-- A thread that keeps a block is in an operation, and not about to allocate or to
look into the pool. -/
theorem Keeps.busy (h : Keeps cfg s u b) :
    s.pc u ≠ .idle ∧ ¬Allocating (s.pc u) ∧ ∀ c block, s.pc u ≠ .push (.takePool c block) := by
  have hpc : holds cfg.size (s.pc u) ≠ none ∨ reads (s.pc u) ≠ none := by
    rcases h with hb | ⟨p, hp, -⟩
    · exact .inl (by simp [hb])
    · exact .inr (by simp [hp])
  refine ⟨fun he => ?_, ?_, fun c block he => ?_⟩
  · simp [he, holds, reads] at hpc
  · rintro ⟨c, block, he⟩
    simp [he, holds, pushHolds, reads] at hpc
  · simp [he, holds, pushHolds, reads] at hpc

/-- A thread that holds a block reads no slot but a last one. -/
theorem last_of_holds (h : Inv cfg s g) {p : ℕ} (hb : holds cfg.size (s.pc u) = some b)
    (hp : reads (s.pc u) = some p) : IsLast cfg.size p := by
  have hl := h.assertion u
  cases hpc : s.pc u with
  | pop pc =>
    rw [hpc] at hb hp hl
    cases pc with
    | swapIndex k v =>
      obtain rfl := Option.some.inj hp
      exact hl.2.2.1
    | _ => simp [holds, popHolds, reads, popReads] at hb hp
  | _ =>
    rw [hpc] at hp
    cases hp

/-- One thread keeps at most one block. -/
theorem Keeps.unique (h : Inv cfg s g) (hb : Keeps cfg s u b) (hb' : Keeps cfg s u b') :
    b = b' := by
  rcases hb with hb | ⟨p, hp, hlast, hs⟩ <;> rcases hb' with hb' | ⟨p', hp', hlast', hs'⟩
  · exact Option.some.inj (hb.symm.trans hb')
  · exact absurd (last_of_holds h hb hp') hlast'
  · exact absurd (last_of_holds h hb' hp) hlast
  · obtain rfl := Option.some.inj (hp.symm.trans hp')
    exact start_injective h hs hs'

/-- A retired block whose readers are not done has a reader. -/
theorem keeper_of_retired (h : Inv cfg s g) (ha : Attended cfg s) (hb : b ∈ s.queue.pool.retired)
    (hd : Queue.readersDone cfg.size s.queue b = false) : ∃ u, Keeps cfg s u b := by
  have hplace := (h.coherent.retired_iff b).mp hb
  obtain ⟨last, hlast, hfin, -, hstart⟩ := h.coherent.retired b hplace
  obtain ⟨i, hi, hmark⟩ : ∃ i, i < blockCap cfg.size - 1 ∧ s.queue.mark b i = false := by
    simpa [Queue.readersDone] using hd
  have hcap := blockCap_add_one (z := cfg.size)
  have hlt : i < lap cfg.size := by omega
  have hlap := lapOf_mul_add (z := cfg.size) (L := lapOf cfg.size last) hlt
  have hoff := offset_mul_add (z := cfg.size) (L := lapOf cfg.size last) hlt
  have hpos := lapOf_mul_add_offset cfg.size last
  have hend : offset cfg.size last + 1 = blockCap cfg.size := hlast
  have hhead := h.coherent.lt_of_finished hfin
  have hnot : ¬IsLast cfg.size (lapOf cfg.size last * lap cfg.size + i) := by
    rw [IsLast, hoff]
    omega
  have hclears : ∀ u, clears (s.pc u) ≠ some b := by
    intro u hu
    have hhand := (h.coherent.hand_iff u b).mp (holds_of_clears hu)
    rw [hplace] at hhand
    cases hhand
  by_contra hno
  have hmarked := ha b (lapOf cfg.size last * lap cfg.size + i) (by rw [hlap, hstart])
    (isValue_iff.mpr (by omega)) hnot (by omega)
    (fun u hu => hno ⟨u, .inr ⟨_, hu, hnot, by rw [hlap, hstart]⟩⟩) hclears
  rw [hoff, hmark] at hmarked
  cases hmarked

/-- A push retires nothing. -/
theorem push_retires {pc : PushPc V} {z : BlockSize} (hr : q.pool.retired = []) :
    (pc.exec z flag fail q).1.pool.retired = [] := by
  cases pc with
  | takePool c block =>
    simp only [PushPc.exec, takeBlockSlow, hr, List.find?_nil]
    split
    · rfl
    · rename_i heq
      cases heq
    · exact hr
  | fetchAdd v expected | casTry v tail failed | casLevel v tail failed | boundedSkip v cap tail
  | boundedHead v cap tail | boundedTry v cap tail | slowStart c block | slowPrev c block
  | takeSpare c block =>
    simp only [PushPc.exec]
    (repeat' split) <;> exact hr
  | _ => exact hr

variable [DecidableEq Tid]

/-- With an exclusive receiver no block is ever retired. -/
theorem retired_of_exclusive (h : Reach cfg τ s) (hx : cfg.exclusive ≠ none) :
    s.queue.pool.retired = [] := by
  refine h.invariant (P := fun _ s => s.queue.pool.retired = []) rfl ?_
  rintro τ s ⟨t, l⟩ s' hr ih hs
  obtain ⟨g, hg⟩ := reach_inv hr
  have hl := hg.assertion t
  rcases step_cases hs with ⟨op, -, hidle, -, rfl⟩ | ⟨flag, fail, o, ho, -, rfl⟩
  · exact ih
  · cases hpc : s.pc t with
    | idle | fault => simp [hpc, Pc.exec] at ho
    | push pc =>
      rw [hpc, Pc.exec, Option.some.injEq] at ho
      subst ho
      exact push_retires ih
    | pop pc =>
      rw [hpc] at hl
      exact absurd hl.1 hx
    | single pc =>
      rw [hpc, Pc.exec, Option.some.injEq] at ho
      subst ho
      exact single_retires ih
    | read pc =>
      rw [hpc, Pc.exec, Option.some.injEq] at ho
      subst ho
      cases pc <;> exact ih

/-- When no retired block can be reclaimed, every block that is neither in the live
chain nor spare nor ready has a keeper. -/
theorem keeper_of_place (h : Reach cfg τ s) (hg : Inv cfg s g)
    (hnone : s.queue.pool.retired.find? (Queue.readersDone cfg.size s.queue) = none)
    (hb : g.place b = .retired ∨ ∃ u, g.place b = .hand u) : ∃ u, Keeps cfg s u b := by
  rcases hb with hb | ⟨u, hu⟩
  · have hmem := (hg.coherent.retired_iff b).mpr hb
    have hd := List.find?_eq_none.mp hnone b hmem
    have hx : cfg.exclusive = none := by
      by_contra hx
      rw [retired_of_exclusive h hx] at hmem
      cases hmem
    exact keeper_of_retired hg (reach_attended h hx) hmem (by simpa using hd)
  · exact ⟨u, .inl ((hg.coherent.hand_iff u b).mpr hu)⟩

end Keepers

section Backlog

variable [DecidableEq Tid]

omit [DecidableEq Tid] in
/-- A last position that a consumer reads is not ahead of the head block. -/
theorem read_lap_le (h : Inv cfg s g) {p : ℕ} (hp : reads (s.pc u) = some p)
    (hlast : IsLast cfg.size p) : lapOf cfg.size p ≤ g.headLap := by
  have hl := h.assertion u
  cases hpc : s.pc u with
  | pop pc =>
    rw [hpc] at hl hp
    obtain ⟨-, hl⟩ := hl
    cases pc with
    | sample head block =>
      obtain rfl := Option.some.inj hp
      exact (hl.2 hlast).2.ge
    | readValue k =>
      obtain rfl := Option.some.inj hp
      exact (hl.2 hlast).2.ge
    | markRead k v | loadNext k v | storeBlock k v next =>
      obtain rfl := Option.some.inj hp
      exact (hl.1.2 hlast).2.ge
    | swapIndex k v =>
      obtain rfl := Option.some.inj hp
      have hnext := hl.2.2.2.1
      omega
    | _ => simp [reads, popReads] at hp
  | _ =>
    rw [hpc] at hp
    cases hp

/-- The head index is not ahead of the head block. -/
theorem head_lap_le (hr : Reach cfg τ s) (h : Inv cfg s g) :
    lapOf cfg.size s.queue.head.index ≤ g.headLap := by
  cases hx : cfg.exclusive with
  | none =>
    by_cases hv : IsValue cfg.size s.queue.head.index
    · exact (h.coherent.head_shared hx hv).le
    · obtain ⟨u, p, hp, hlast, hhead⟩ := QueuePairing.crossing_of_sentinel hr hx hv
      have hlap := read_lap_le h hp hlast
      rwa [hhead, lapOf_succ_of_isValue hlast.isValue]
  | some c =>
    obtain ⟨-, hstill⟩ := h.coherent.head_exclusive c hx
    have hl := h.assertion c
    by_cases hcross : crossing cfg.size (s.pc c) = true
    · cases hpc : s.pc c with
      | single pc =>
        rw [hpc] at hl hcross
        cases pc with
        | leave batch pc =>
          cases pc with
          | advance r =>
            obtain ⟨-, -, -, hhead, hlap⟩ := hl
            have hlast : r.last cfg.size = true := hcross
            rw [if_pos hlast] at hlap
            rw [hhead]
            omega
          | _ => simp [crossing, singleCrossing] at hcross
        | _ => simp [crossing, singleCrossing] at hcross
      | _ =>
        rw [hpc] at hcross
        cases hcross
    · exact (hstill (by simpa [views] using hcross)).le

/-- The blocks of the live chain but one are full of unread values, when the last
slot of the last one has been claimed. -/
theorem live_of_install {c : Claim V} {block : BlockId} (hr : Reach cfg τ s) (h : Inv cfg s g)
    (hpc : s.pc t = .push (.takePool c block)) :
    (g.laps - g.headLap - 1) * blockCap cfg.size ≤ items cfg.size s.queue := by
  have hl : PushLocal cfg s.queue g (.takePool c block) := by
    have hl := h.assertion t
    rwa [hpc] at hl
  obtain ⟨-, ⟨hserves, -⟩, hlast⟩ := hl
  have hwrites := QueuePushSteps.view_writes cfg hpc
  obtain ⟨-, hhead, htail⟩ := h.coherent.writes_spec t c.tail hwrites
  have hlaps := h.coherent.stage_before t c.tail hwrites (QueuePushSteps.view_stage cfg hpc) hlast
  have hlap := head_lap_le hr h
  have hcap := blockCap_add_one (z := cfg.size)
  have hposHead := lapOf_mul_add_offset cfg.size s.queue.head.index
  have hposTail := lapOf_mul_add_offset cfg.size c.tail
  have hoff : offset cfg.size s.queue.head.index < lap cfg.size := offset_lt_lap _
  have hend : offset cfg.size c.tail + 1 = blockCap cfg.size := hlast
  have hmono := itemsBetween_mono_right (z := cfg.size) (h := s.queue.head.index)
    (show c.tail + 1 ≤ s.queue.tail.index by omega)
  rw [itemsBetween_eq_sub (by omega), lapOf_succ_of_isValue hlast.isValue] at hmono
  have hlapTail : lapOf cfg.size c.tail = g.laps - 1 := by omega
  obtain ⟨k, hk⟩ : ∃ k, lapOf cfg.size c.tail = lapOf cfg.size s.queue.head.index + k :=
    ⟨_, (Nat.add_sub_cancel' (lapOf_mono (by omega))).symm⟩
  have hexpand : lapOf cfg.size c.tail * lap cfg.size =
      lapOf cfg.size s.queue.head.index * lap cfg.size + k * blockCap cfg.size + k := by
    rw [hk, Nat.add_mul, ← hcap, Nat.mul_succ k]
    omega
  have hle : (g.laps - g.headLap - 1) * blockCap cfg.size ≤ k * blockCap cfg.size :=
    Nat.mul_le_mul_right _ (by omega)
  calc (g.laps - g.headLap - 1) * blockCap cfg.size
      _ ≤ k * blockCap cfg.size := hle
      _ ≤ c.tail + 1 - s.queue.head.index -
          (lapOf cfg.size c.tail - lapOf cfg.size s.queue.head.index) := by omega
      _ ≤ items cfg.size s.queue := hmono

end Backlog

section Counting

/-- Blocks kept by different threads are at most as many as the threads. -/
theorem threads_of_blocks (h : Inv cfg s g) {S : Finset BlockId}
    (hS : ∀ b ∈ S, ∃ u, Keeps cfg s u b) :
    ∃ F : Finset Tid, S.card = F.card ∧ ∀ u ∈ F, ∃ b, Keeps cfg s u b := by
  classical
  have hkept : ∀ b : S, ∃ u, Keeps cfg s u b := fun b => hS b b.2
  choose f hf using hkept
  have hinj : Function.Injective f := by
    intro b b' he
    have hkeep := hf b'
    rw [← he] at hkeep
    exact Subtype.ext ((hf b).unique h hkeep)
  refine ⟨S.attach.image f, ?_, ?_⟩
  · rw [Finset.card_image_of_injective _ hinj, Finset.card_attach]
  · intro u hu
    obtain ⟨b, -, rfl⟩ := Finset.mem_image.mp hu
    exact ⟨b, hf b⟩

/-- With nothing ready, the allocated blocks are the live chain, the spare block and
the blocks with a place elsewhere. -/
theorem allocated_le (h : Inv cfg s g) (hready : s.queue.pool.ready = []) :
    ∃ S : Finset BlockId, s.queue.allocated ≤ g.laps - g.headLap + 1 + S.card ∧
      ∀ b ∈ S, g.place b = .retired ∨ ∃ u, g.place b = .hand u := by
  classical
  obtain ⟨S, hS⟩ : ∃ S : Finset BlockId, ∀ b, b ∈ S ↔
      b ∈ Finset.range s.queue.allocated ∧ (g.place b = .retired ∨ ∃ u, g.place b = .hand u) :=
    ⟨_, fun b => Finset.mem_filter⟩
  refine ⟨S, ?_, fun b hb => ((hS b).mp hb).2⟩
  have hcover : Finset.range s.queue.allocated ⊆
      (liveChain g).toFinset ∪ s.queue.spare.toFinset ∪ S := by
    intro b hb
    have hlt := Finset.mem_range.mp hb
    simp only [Finset.mem_union, List.mem_toFinset, Option.mem_toFinset, hS, hb, true_and,
      mem_liveChain h, Option.mem_def, h.coherent.spare_iff]
    cases hp : g.place b with
    | fresh => exact absurd ((h.coherent.fresh_iff b).mpr hp) (by omega)
    | ready =>
      have hmem := (h.coherent.ready_iff b).mpr hp
      rw [hready] at hmem
      cases hmem
    | _ => simp
  have hcard := Finset.card_le_card hcover
  have hunion := Finset.card_union_le ((liveChain g).toFinset ∪ s.queue.spare.toFinset) S
  have hunion' := Finset.card_union_le (liveChain g).toFinset s.queue.spare.toFinset
  have hlive : (liveChain g).toFinset.card ≤ g.laps - 1 - g.headLap + 1 := by
    have hlen := List.toFinset_card_le (liveChain g)
    rwa [liveChain, List.length_map, List.length_range] at hlen
  have hspare : s.queue.spare.toFinset.card ≤ 1 := by
    cases s.queue.spare <;> simp
  have hlt := h.coherent.headLap_lt
  rw [Finset.card_range] at hcard
  omega

end Counting

section Bound

/-- Only a push goes on to allocate. -/
theorem not_allocating_of_map {P R : Type} {f : P → Pc V} {k : R → Ret V}
    (hf : ∀ p, ¬Allocating (f p)) (n : Next P R) : ¬Allocating (nextPc (n.map f k)) := by
  cases n with
  | goto p => exact hf p
  | ret r =>
    rintro ⟨c, block, he⟩
    cases he
  | fault =>
    rintro ⟨c, block, he⟩
    cases he

/-- A push goes on to allocate from the pool section only, when it found no block
there that it could take. -/
theorem allocating_next (ho : pc.exec cfg flag fail q = some o) (ha : Allocating (nextPc o.2.1)) :
    ∃ c block, pc = .push (.takePool c block) ∧ q.pool.ready = [] ∧
      q.pool.retired.find? (Queue.readersDone cfg.size q) = none ∧ o.1 = q := by
  cases pc with
  | idle | fault => cases ho
  | push pc =>
    rw [Pc.exec, Option.some.injEq] at ho
    subst ho
    obtain ⟨c₀, block₀, ha⟩ := ha
    cases pc with
    | takePool c block =>
      cases hl : q.pool.ready.getLast? with
      | some b => simp [PushPc.exec, takeBlockSlow, hl, Next.map, nextPc] at ha
      | none =>
        cases hf : q.pool.retired.find? (Queue.readersDone cfg.size q) with
        | some b => simp [PushPc.exec, takeBlockSlow, hl, hf, Next.map, nextPc] at ha
        | none =>
          refine ⟨c, block, rfl, List.getLast?_eq_none_iff.mp hl, rfl, ?_⟩
          simp [PushPc.exec, takeBlockSlow, hl, hf]
    | _ =>
      simp only [PushPc.exec, boundedLoop, found] at ha
      (repeat' split at ha) <;> simp [Next.map, nextPc] at ha
  | pop pc =>
    rw [Pc.exec, Option.some.injEq] at ho
    subst ho
    refine absurd ha (not_allocating_of_map ?_ _)
    rintro p ⟨c, block, he⟩
    cases he
  | single pc =>
    rw [Pc.exec, Option.some.injEq] at ho
    subst ho
    refine absurd ha (not_allocating_of_map ?_ _)
    rintro p ⟨c, block, he⟩
    cases he
  | read pc =>
    rw [Pc.exec, Option.some.injEq] at ho
    subst ho
    refine absurd ha (not_allocating_of_map ?_ _)
    rintro p ⟨c, block, he⟩
    cases he

/-- An operation does not begin by allocating. -/
theorem entry_not_allocating {capacity : Option ℕ} (op : Op V) :
    ¬Allocating (op.entry capacity) := by
  rintro ⟨c, block, he⟩
  cases op with
  | push v => cases capacity <;> simp [Op.entry, PushPc.entry] at he
  | _ => cases he

variable [DecidableEq Tid]

/-- The run passes through the state. -/
def Through (cfg : Config Tid) (τ : List (Tid × Label V)) (s m : State Tid V) : Prop :=
  ∃ τ₁ τ₂, τ = τ₁ ++ τ₂ ∧ Reach cfg τ₁ m ∧ Run (Step cfg) m τ₂ s

/-- A run passes through the state it has reached. -/
theorem through_now (h : Reach cfg τ s) : Through cfg τ s s :=
  ⟨τ, [], (List.append_nil τ).symm, h, .refl⟩

theorem Through.tail (h : Through cfg τ s m) (hs : Step cfg s (t, l) s') :
    Through cfg (τ ++ [(t, l)]) s' m := by
  obtain ⟨τ₁, τ₂, rfl, hm, hrun⟩ := h
  exact ⟨τ₁, τ₂ ++ [(t, l)], List.append_assoc _ _ _, hm, hrun.tail hs⟩

/-- The allocated blocks and those about to be allocated are at most `n`. -/
def Fits (n : ℕ) (s : State Tid V) : Prop :=
  ∀ F : Finset Tid, (∀ u ∈ F, Allocating (s.pc u)) → s.queue.allocated + F.card ≤ n

/-- A push that is going to allocate has met every block that is not full: the
others in flight keep one block each, or are going to allocate themselves. -/
theorem fits_of_exhausted {n k : ℕ} {c : Claim V} {block : BlockId} (hr : Reach cfg τ s)
    (hpc : s.pc t = .push (.takePool c block)) (hready : s.queue.pool.ready = [])
    (hnone : s.queue.pool.retired.find? (Queue.readersDone cfg.size s.queue) = none)
    (hitems : items cfg.size s.queue ≤ n) (hflight : InFlight s k) {F : Finset Tid}
    (hF : ∀ u ∈ F, u ≠ t ∧ Allocating (s.pc u)) :
    s.queue.allocated + (F.card + 1) ≤ n / blockCap cfg.size + k + 2 := by
  obtain ⟨g, hg⟩ := reach_inv hr
  obtain ⟨S, hS, hplace⟩ := allocated_le hg hready
  obtain ⟨G, hG, hkeeps⟩ := threads_of_blocks hg fun b hb =>
    keeper_of_place hr hg hnone (hplace b hb)
  have hcap := one_lt_blockCap (z := cfg.size)
  have hlive : g.laps - g.headLap - 1 ≤ n / blockCap cfg.size := by
    rw [Nat.le_div_iff_mul_le (by omega)]
    exact (live_of_install hr hg hpc).trans hitems
  have hFG : Disjoint F G := by
    refine Finset.disjoint_left.mpr fun u hu hu' => ?_
    obtain ⟨b, hb⟩ := hkeeps u hu'
    exact hb.busy.2.1 (hF u hu).2
  have ht : t ∉ F ∪ G := by
    intro hmem
    rcases Finset.mem_union.mp hmem with hu | hu
    · exact (hF t hu).1 rfl
    · obtain ⟨b, hb⟩ := hkeeps t hu
      exact hb.busy.2.2 c block hpc
  have hbusy := hflight (insert t (F ∪ G)) (by
    intro u hu
    rcases Finset.mem_insert.mp hu with rfl | hu
    · rw [hpc]
      exact fun he => by cases he
    · rcases Finset.mem_union.mp hu with hu | hu
      · obtain ⟨-, c', block', he⟩ := hF u hu
        rw [he]
        exact fun he => by cases he
      · obtain ⟨b, hb⟩ := hkeeps u hu
        exact hb.busy.1)
  rw [Finset.card_insert_of_notMem ht, Finset.card_union_of_disjoint hFG] at hbusy
  have hlt := hg.coherent.headLap_lt
  omega

/-- A step keeps the memory within what the backlog and the operations in flight
account for. -/
theorem fits_step {n k : ℕ} (hr : Reach cfg τ s) (hs : Step cfg s (t, l) s')
    (hitems : items cfg.size s.queue ≤ n) (hflight : InFlight s k)
    (hfits : Fits (n / blockCap cfg.size + k + 2) s) :
    Fits (n / blockCap cfg.size + k + 2) s' := by
  intro F hF
  have hothers : ∀ u ∈ F, u ≠ t → Allocating (s.pc u) := by
    intro u hu hne
    have ha := hF u hu
    rcases step_cases hs with ⟨op, -, -, -, rfl⟩ | ⟨flag, fail, o, -, -, rfl⟩
    · change Allocating (Function.update s.pc t (op.entry cfg.capacity) u) at ha
      rwa [Function.update_of_ne hne] at ha
    · change Allocating (Function.update s.pc t (nextPc o.2.1) u) at ha
      rwa [Function.update_of_ne hne] at ha
  rcases step_cases hs with ⟨op, -, -, -, rfl⟩ | ⟨flag, fail, o, ho, -, rfl⟩
  · refine hfits F fun u hu => hothers u hu ?_
    rintro rfl
    have ha := hF u hu
    simp only [State.setPc, Function.update_self] at ha
    exact entry_not_allocating op ha
  · by_cases hnext : Allocating (nextPc o.2.1)
    · obtain ⟨c, block, hpc, hready, hnone, hq⟩ := allocating_next ho hnext
      have hF' : ∀ u ∈ F.erase t, u ≠ t ∧ Allocating (s.pc u) := by
        intro u hu
        obtain ⟨hne, hmem⟩ := Finset.mem_erase.mp hu
        exact ⟨hne, hothers u hmem hne⟩
      have hbound := fits_of_exhausted hr hpc hready hnone hitems hflight hF'
      have hcard := Finset.card_le_card (Finset.subset_insert t F)
      have herase := Finset.pred_card_le_card_erase (s := F) (a := t)
      change o.1.allocated + F.card ≤ _
      rw [hq]
      omega
    · have hne : ∀ u ∈ F, u ≠ t := by
        rintro u hu rfl
        have ha := hF u hu
        simp only [Function.update_self] at ha
        exact hnext ha
      change o.1.allocated + F.card ≤ _
      rcases exec_allocated ho with ha | ⟨c, block, hpc, ha, -⟩
      · have hbefore := hfits F fun u hu => hothers u hu (hne u hu)
        omega
      · have ht : t ∉ F := fun hmem => hne t hmem rfl
        have hbefore := hfits (insert t F) (by
          intro u hu
          rcases Finset.mem_insert.mp hu with rfl | hu
          · exact ⟨c, block, hpc⟩
          · exact hothers u hu (hne u hu))
        rw [Finset.card_insert_of_notMem ht] at hbefore
        omega

/-- The memory of a queue is bounded by its use, in every run. If at most `k`
operations are ever in flight at once and at most `n` values are ever queued, no
more blocks are allocated than those values fill, one for each of the operations,
and two. A bounded queue stays within what its capacity fills. -/
theorem memory_bounded (h : Reach cfg τ s) {k : ℕ}
    (hk : ∀ m, Through cfg τ s m → InFlight m k) :
    (∀ n, (∀ m, Through cfg τ s m → items cfg.size m.queue ≤ n) →
      s.queue.allocated ≤ n / blockCap cfg.size + k + 2) ∧
    (∀ cap, cfg.capacity = some cap → s.queue.allocated ≤ cap / blockCap cfg.size + k + 2) := by
  have hbound : ∀ n, (∀ m, Through cfg τ s m → items cfg.size m.queue ≤ n) →
      s.queue.allocated ≤ n / blockCap cfg.size + k + 2 := by
    intro n hn
    have hfits : (∀ m, Through cfg τ s m → items cfg.size m.queue ≤ n ∧ InFlight m k) →
        Fits (n / blockCap cfg.size + k + 2) s := by
      refine h.invariant (P := fun τ s =>
        (∀ m, Through cfg τ s m → items cfg.size m.queue ≤ n ∧ InFlight m k) →
          Fits (n / blockCap cfg.size + k + 2) s) (fun _ F hF => ?_) ?_
      · have hempty : F = ∅ := by
          refine Finset.eq_empty_of_forall_notMem fun u hu => ?_
          obtain ⟨c, block, he⟩ := hF u hu
          cases he
        rw [hempty, Finset.card_empty]
        exact le_trans (Nat.le_succ 1) (Nat.le_add_left 2 _)
      · rintro τ s ⟨t, l⟩ s' hr ih hs hm
        have hbefore := ih fun m hmid => hm m (hmid.tail hs)
        obtain ⟨hitems, hflight⟩ := hm s ((through_now hr).tail hs)
        exact fits_step hr hs hitems hflight hbefore
    have hlast := hfits (fun m hm => ⟨hn m hm, hk m hm⟩) ∅ (by simp)
    simpa using hlast
  refine ⟨hbound, fun cap hc => hbound cap fun m hm => ?_⟩
  obtain ⟨τ₁, τ₂, -, hm₁, -⟩ := hm
  obtain ⟨g, hg⟩ := reach_inv hm₁
  exact hg.coherent.capacity cap hc

/-- A queue of small blocks with room for one block of values. -/
def three : Config (Fin 2) := ⟨.small, some 3, by simp, none⟩

/-- Thread 0 fills a block, thread 1 empties it, and thread 0 goes on. -/
def turnOver : List (Fin 2 × Choice ℕ) :=
  (0, .call (.push 7)) :: List.replicate 8 (0, .run 0 false) ++
  (0, .call (.push 8)) :: List.replicate 8 (0, .run 0 false) ++
  (0, .call (.push 9)) :: List.replicate 16 (0, .run 0 false) ++
  (1, .call .pop) :: List.replicate 7 (1, .run 0 false) ++
  (1, .call .pop) :: List.replicate 7 (1, .run 0 false) ++
  (1, .call .pop) :: List.replicate 16 (1, .run 0 false) ++
  (0, .call (.push 1)) :: List.replicate 11 (0, .run 0 false)

/-- In that run two threads share the queue, so it never has more than five blocks;
it has two. -/
theorem memory_bounded_of_turnOver :
    ∃ (τ : List (Fin 2 × Label ℕ)) (s : State (Fin 2) ℕ), Reach three τ s ∧
      s.queue.allocated = 2 ∧ s.queue.allocated ≤ 3 / blockCap .small + 2 + 2 := by
  have h : ((State.init (Fin 2) ℕ).runs three turnOver).map (fun r => r.2.queue.allocated) =
      some 2 := by
    decide +kernel
  obtain ⟨⟨τ, s⟩, hr, he⟩ := Option.map_eq_some_iff.mp h
  have hreach : Reach three τ s := State.runs_run hr
  have hflight : ∀ m, Through three τ s m → InFlight m 2 := fun m _ F _ => by
    simpa using Finset.card_le_univ F
  exact ⟨τ, s, hreach, he, (memory_bounded hreach hflight).2 3 rfl⟩

end Bound

end Rapidfire.QueueFootprint
