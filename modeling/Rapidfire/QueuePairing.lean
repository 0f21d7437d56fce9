import Rapidfire.QueueWalk
import Rapidfire.QueueExclusive

/-!
# Head index and head block

The index and the block of the head are two words that a consumer reads one
after the other. A pop that claims with them claims a published slot of the
block that serves it, and a pop that gives up has met the head on an
unpublished slot, or in the middle of another consumer's block transition.
-/

namespace Rapidfire.QueuePairing

open Positions QueueMemory QueuePush QueuePop QueueSingle QueueMachine QueueCoherence QueueLocal
  QueueInvariant QueueHistory QueueWalk Runs

variable {Tid V : Type} {cfg : Config Tid} {q : Queue V} {s s' : State Tid V} {g : Ghost Tid V}
  {t u : Tid} {l : Label V} {τ τ' : List (Tid × Label V)}

/-- The head stands on a value position whose slot does not carry its tag: no
push of it has returned, and it is beyond the tail or claimed and unwritten. -/
structure Unpublished (cfg : Config Tid) (τ : List (Tid × Label V)) (s : State Tid V) : Prop where
  value : IsValue cfg.size s.queue.head.index
  untagged : s.queue.state s.queue.head.block (offset cfg.size s.queue.head.index) ≠
    writtenTag (lapOf cfg.size s.queue.head.index)
  not_accepted : ∀ u, (u, s.queue.head.index) ∉ accepted τ
  waiting : s.queue.tail.index ≤ s.queue.head.index ∨
    ∃ u, s.queue.head.index ∈ claimOf cfg.size (s.pc u)

/-- The thread has claimed the last slot of the head block and has not yet
moved the head index past the sentinel. -/
def Crossing (cfg : Config Tid) (s : State Tid V) (u : Tid) : Prop :=
  ∃ p, reads (s.pc u) = some p ∧ IsLast cfg.size p ∧ s.queue.head.index = p + 1

/-- What a pop may return nothing for: an unpublished head, or the block
transition of another consumer. -/
def Stalled (cfg : Config Tid) (t : Tid) (τ : List (Tid × Label V)) (s : State Tid V) : Prop :=
  Unpublished cfg τ s ∨ ∃ u, u ≠ t ∧ Crossing cfg s u

section Head

/-- A push leaves the head alone. -/
theorem push_head {z : BlockSize} {flag : ℕ} {fail : Bool} {pc : PushPc V} :
    (pc.exec z flag fail q).1.head = q.head := by
  cases pc with
  | takePool c block =>
    simp only [PushPc.exec, takeBlockSlow]
    split <;> rfl
  | fetchAdd v expected | casTry v tail failed | casLevel v tail failed | boundedSkip v cap tail
  | boundedHead v cap tail | boundedTry v cap tail | slowStart c block | slowPrev c block
  | takeSpare c block =>
    simp only [PushPc.exec]
    (repeat' split) <;> rfl
  | _ => rfl

/-- A pop never moves the head index back. -/
theorem pop_head {capacity : Option ℕ} {flag : ℕ} {fail : Bool} {pc : PopPc V}
    (hl : PopLocal cfg q g pc) :
    q.head.index ≤ (pc.exec cfg.size capacity flag fail q).1.head.index := by
  cases pc with
  | claim head block wait =>
    simp only [PopPc.exec]
    split
    · rename_i hc
      exact Nat.le_succ_of_le hc.1.le
    · exact le_rfl
  | swapIndex k v =>
    have hhead := hl.2.2.1
    change q.head.index ≤ k.head + 2
    omega
  | readValue k | loadNext k v | recycleSpare k v =>
    simp only [PopPc.exec]
    split <;> exact le_rfl
  | _ => exact le_rfl

/-- An exclusive receive never moves the head index back. -/
theorem single_head {capacity : Option ℕ} {flag : ℕ} {fail : Bool} {pc : SinglePc V}
    (hl : SingleLocal cfg q g pc) :
    q.head.index ≤ (pc.exec cfg.size capacity flag fail q).1.head.index := by
  cases pc with
  | leave batch pc =>
    cases pc with
    | advance r =>
      have hhead : q.head.index = r.head := hl.2.2.1
      cases capacity with
      | none =>
        change q.head.index ≤ r.head + r.step cfg.size
        omega
      | some cap => exact Nat.le_add_right _ _
    | loadNext r | recycleSpare r wake =>
      simp only [SinglePc.exec, LeavePc.exec]
      split <;> exact le_rfl
    | _ => exact le_rfl
  | readValue head block | slotValue max r =>
    simp only [SinglePc.exec]
    split <;> exact le_rfl
  | _ => exact le_rfl

variable [DecidableEq Tid]

/-- The head index never moves back. -/
theorem step_head (h : Inv cfg s g) (hs : Step cfg s (t, l) s') :
    s.queue.head.index ≤ s'.queue.head.index := by
  rcases step_cases hs with ⟨op, -, -, -, rfl⟩ | ⟨flag, fail, o, ho, -, rfl⟩
  · exact le_rfl
  · have hl := h.assertion t
    cases hpc : s.pc t with
    | idle | fault => simp [hpc, Pc.exec] at ho
    | push pc =>
      rw [hpc, Pc.exec, Option.some.injEq] at ho
      subst ho
      have hhead : (pc.exec cfg.size flag fail s.queue).1.head = s.queue.head := push_head
      exact (congrArg Head.index hhead).ge
    | pop pc =>
      rw [hpc] at hl ho
      obtain rfl := Option.some.inj ho
      exact pop_head hl.2
    | single pc =>
      rw [hpc] at hl ho
      obtain rfl := Option.some.inj ho
      exact single_head hl.2
    | read pc =>
      rw [hpc] at ho
      obtain rfl := Option.some.inj ho
      cases pc <;> exact le_rfl

/-- Along a run the head index never moves back. -/
theorem run_head (h : Inv cfg s g) (hr : Run (Step cfg) s τ s') :
    s.queue.head.index ≤ s'.queue.head.index := by
  have hkeep : (∃ g, Inv cfg s' g) ∧ s.queue.head.index ≤ s'.queue.head.index := by
    refine hr.stateInvariant (P := fun m => (∃ g, Inv cfg m g) ∧
      s.queue.head.index ≤ m.queue.head.index) ⟨⟨g, h⟩, le_rfl⟩ ?_
    rintro m ⟨u, l⟩ m' ⟨⟨g', hg'⟩, hle⟩ hs
    obtain ⟨g'', hg'', -⟩ := step_inv hg' hs
    exact ⟨⟨g'', hg''⟩, hle.trans (step_head hg' hs)⟩
  exact hkeep.2

end Head

section Sentinel

/-- A pop that leaves the head on a sentinel has just claimed the last slot or
is still in its transition; otherwise it did not move the head and was in none. -/
theorem pop_sentinel {capacity : Option ℕ} {flag : ℕ} {fail : Bool} {pc : PopPc V}
    (hl : PopLocal cfg q g pc) (hf : (pc.exec cfg.size capacity flag fail q).2.1 ≠ .fault)
    (hv : ¬IsValue cfg.size (pc.exec cfg.size capacity flag fail q).1.head.index) :
    (∃ pc' p, (pc.exec cfg.size capacity flag fail q).2.1 = .goto pc' ∧
      popReads pc' = some p ∧ IsLast cfg.size p ∧
      (pc.exec cfg.size capacity flag fail q).1.head.index = p + 1) ∨
    (pc.exec cfg.size capacity flag fail q).1.head.index = q.head.index ∧
      ∀ p, popReads pc = some p → ¬IsLast cfg.size p := by
  cases pc with
  | claim head block wait =>
    simp only [PopPc.exec] at hv ⊢
    split at hv
    · rename_i hc
      rw [if_pos hc]
      have hval : IsValue cfg.size head := hl.1.1
      have hlast := isLast_iff.mpr ⟨hval, hv⟩
      left
      cases capacity with
      | none => exact ⟨_, head, rfl, rfl, hlast, rfl⟩
      | some cap => exact ⟨_, head, rfl, rfl, hlast, rfl⟩
    · rename_i hc
      rw [if_neg hc]
      exact .inr ⟨rfl, by simp [popReads]⟩
  | sample head block =>
    by_cases hlast : IsLast cfg.size head
    · exact .inl ⟨_, head, rfl, rfl, hlast, (hl.2 hlast).1⟩
    · exact .inr ⟨rfl, fun p hp => Option.some.inj hp ▸ hlast⟩
  | readValue k =>
    simp only [PopPc.exec] at hf hv ⊢
    split
    · rename_i hval
      rw [hval] at hf
      exact absurd rfl hf
    · by_cases hlast : IsLast cfg.size k.head
      · rw [if_pos (show offset cfg.size k.head + 1 = blockCap cfg.size from hlast)]
        exact .inl ⟨_, k.head, rfl, rfl, hlast, (hl.2 hlast).1⟩
      · exact .inr ⟨rfl, fun p hp => Option.some.inj hp ▸ hlast⟩
  | markRead k v => exact .inr ⟨rfl, fun p hp => Option.some.inj hp ▸ hl.2.1⟩
  | loadNext k v =>
    simp only [PopPc.exec] at hf hv ⊢
    split
    · rename_i hnext
      rw [hnext] at hf
      exact absurd rfl hf
    · exact .inl ⟨_, k.head, rfl, rfl, hl.2.1, (hl.1.2 hl.2.1).1⟩
  | storeBlock k v next => exact .inl ⟨_, k.head, rfl, rfl, hl.2.1, (hl.1.2 hl.2.1).1⟩
  | swapIndex k v =>
    have hlast : IsLast cfg.size k.head := hl.2.1
    exact absurd (isValue_succ_of_not_isValue (isLast_iff.mp hlast).2) hv
  | recycleSpare k v =>
    simp only [PopPc.exec]
    split <;> exact .inr ⟨rfl, by simp [popReads]⟩
  | _ => exact .inr ⟨rfl, by simp [popReads]⟩

variable [DecidableEq Tid]

/-- A shared head on a sentinel is there because a consumer is crossing. -/
theorem crossing_of_sentinel (h : Reach cfg τ s) (hx : cfg.exclusive = none)
    (hv : ¬IsValue cfg.size s.queue.head.index) : ∃ u, Crossing cfg s u := by
  revert hv
  refine h.invariant (P := fun _ s => ¬IsValue cfg.size s.queue.head.index →
    ∃ u, Crossing cfg s u) (fun hv => ?_) ?_
  · have hoff : offset cfg.size 0 = 0 := by rw [offset_eq_mod, Nat.zero_mod]
    have hcap := one_lt_blockCap (z := cfg.size)
    refine absurd (isValue_iff.mpr ?_) hv
    change offset cfg.size 0 < blockCap cfg.size
    omega
  · rintro τ s ⟨t, l⟩ s' hr ih hs hv
    obtain ⟨g, hg⟩ := reach_inv hr
    have hothers : s'.queue.head.index = s.queue.head.index →
        (∀ p, reads (s.pc t) = some p → ¬IsLast cfg.size p) →
        (∀ u, u ≠ t → s'.pc u = s.pc u) → ∃ u, Crossing cfg s' u := by
      intro hhead hnot hpc
      rw [hhead] at hv
      obtain ⟨u, p, hp, hlast, he⟩ := ih hv
      have hu : u ≠ t := by
        intro hut
        exact hnot p (hut ▸ hp) hlast
      exact ⟨u, p, by rwa [hpc u hu], hlast, by rw [hhead, he]⟩
    rcases step_cases hs with ⟨op, rfl, hidle, -, rfl⟩ | ⟨flag, fail, o, ho, -, rfl⟩
    · refine hothers rfl ?_ fun u hu => Function.update_of_ne hu _ _
      rw [hidle]
      simp [reads]
    · have hl := hg.assertion t
      obtain ⟨g', hg'⟩ := exec_steps hg ho
      have hsound := hg'.sound
      have hpcs : ∀ u, u ≠ t → Function.update s.pc t (nextPc o.2.1) u = s.pc u :=
        fun u hu => Function.update_of_ne hu _ _
      cases hpc : s.pc t with
      | idle | fault => simp [hpc, Pc.exec] at ho
      | push pc =>
        rw [hpc, Pc.exec, Option.some.injEq] at ho
        subst ho
        refine hothers (congrArg Head.index push_head) ?_ hpcs
        rw [hpc]
        simp [reads]
      | pop pc =>
        rw [hpc] at hl
        rw [hpc, Pc.exec, Option.some.injEq] at ho
        subst ho
        have hf : (pc.exec cfg.size cfg.capacity flag fail s.queue).2.1 ≠ .fault :=
          fun hf => hsound (congrArg (Next.map Pc.pop Ret.pop) hf)
        rcases pop_sentinel hl.2 hf hv with ⟨pc', p, hgoto, hp, hlast, he⟩ | ⟨hhead, hnot⟩
        · refine ⟨t, p, ?_, hlast, he⟩
          simp only [Function.update_self, hgoto]
          exact hp
        · refine hothers hhead ?_ hpcs
          rw [hpc]
          exact hnot
      | single pc =>
        rw [hpc] at hl
        cases hx.symm.trans hl.1
      | read pc =>
        rw [hpc] at ho
        obtain rfl := Option.some.inj ho
        refine hothers (by cases pc <;> rfl) ?_ hpcs
        rw [hpc]
        simp [reads]

end Sentinel

section Seen

/-- An untagged slot at the head is unpublished. -/
theorem unpublished_of_untagged [DecidableEq Tid] (h : History cfg τ s g)
    (hv : IsValue cfg.size s.queue.head.index)
    (hu : s.queue.state s.queue.head.block (offset cfg.size s.queue.head.index) ≠
      writtenTag (lapOf cfg.size s.queue.head.index))
    (hb : Serves cfg g s.queue.head.index s.queue.head.block) : Unpublished cfg τ s := by
  have hnot : ¬g.published s.queue.head.index := by
    intro hp
    have hfin : ¬g.finished s.queue.head.index := fun hf =>
      lt_irrefl _ (h.inv.coherent.lt_of_finished hf)
    obtain ⟨-, -, hst, -⟩ := h.inv.coherent.slot _ hp hfin
    rw [hb.2] at hst
    exact hu hst
  refine ⟨hv, hu, fun u hm => ?_, ?_⟩
  · exact hnot ((published_iff_accepted h).mpr (List.mem_map.mpr ⟨_, hm, rfl⟩))
  · by_contra hw
    simp only [not_or, Nat.not_le, not_exists] at hw
    refine hnot ((h.inv.coherent.published_iff _).mpr ⟨hv, hw.1, fun u hwr => hw.2 u ?_⟩)
    exact Option.mem_toList.mpr hwr

/-- What a pop that may give up has seen: the loaded index was the head, or the
slot at the index, if that was still the head, was unpublished. -/
def Seen (P U : ℕ → Prop) : PopPc V → Prop
  | .loadBlock head _ => P head
  | .reloadHead head _ _ => U head
  | _ => True

variable {P P' U U' : ℕ → Prop} {capacity : Option ℕ} {flag : ℕ} {fail : Bool} {pc pc' : PopPc V}

theorem Seen.imp (h : Seen P U pc) (hP : ∀ p, P p → P' p) (hU : ∀ p, U p → U' p) :
    Seen P' U' pc := by
  cases pc with
  | loadBlock head wait => exact hP head h
  | reloadHead head block wait => exact hU head h
  | _ => trivial

/-- An access of a pop that goes on sees the head index it loads, or the slot
it checks. -/
theorem pop_seen (hP : popReads pc = none → P q.head.index)
    (hU : ∀ head block, q.state block (offset cfg.size head) ≠ writtenTag (lapOf cfg.size head) →
      Paired cfg q g head block → U head)
    (hl : PopLocal cfg q g pc) (hn : (pc.exec cfg.size capacity flag fail q).2.1 = .goto pc') :
    Seen P U pc' := by
  cases pc with
  | loadHead wait =>
    obtain rfl := Next.goto.inj hn
    exact hP rfl
  | loadBlock head wait =>
    simp only [PopPc.exec, popLoop] at hn
    (repeat' split at hn) <;> cases hn <;> trivial
  | loadState head block wait =>
    simp only [PopPc.exec, Next.goto.injEq] at hn
    split at hn
    · rename_i hs
      subst hn
      exact hU head block hs hl
    · subst hn
      trivial
  | reloadHead head block wait =>
    simp only [PopPc.exec] at hn
    split at hn <;> cases hn
    exact hP rfl
  | claim head block wait =>
    simp only [PopPc.exec] at hn
    split at hn
    · cases capacity <;> cases hn <;> trivial
    · cases hn
      exact hP rfl
  | sample head block | markRead k v | storeBlock k v next | swapIndex k v | retire k v
  | resetStart k v | recyclePool k v =>
    cases hn <;> trivial
  | readValue k | loadNext k v | recycleSpare k v =>
    simp only [PopPc.exec] at hn
    split at hn <;> cases hn
    try split
    all_goals trivial
  | readersDone k v i | resetMark k v i =>
    simp only [PopPc.exec, Next.goto.injEq] at hn
    (repeat' split at hn) <;> subst hn <;> trivial

/-- A pop that returns nothing loaded a sentinel, or reloads an index whose
slot it found unpublished. -/
theorem pop_nothing (h : Seen P U pc)
    (hn : (pc.exec cfg.size capacity flag fail q).2.1 = .ret .nothing) :
    (∃ head, P head ∧ ¬IsValue cfg.size head) ∨ U q.head.index := by
  cases pc with
  | loadBlock head wait =>
    simp only [PopPc.exec, popLoop] at hn
    split at hn
    · rename_i hoff
      exact .inl ⟨head, h, not_not_intro hoff⟩
    · cases hn
  | reloadHead head block wait =>
    simp only [PopPc.exec] at hn
    split at hn
    · rename_i hhead
      exact .inr (hhead ▸ h)
    · cases hn
  | claim head block wait | readValue k | loadNext k v | recycleSpare k v =>
    simp only [PopPc.exec] at hn
    split at hn <;> cases hn
  | _ => cases hn

end Seen

section Moments

variable [DecidableEq Tid] {head : ℕ}

/-- A pop that owns nothing yet is under way while the head has this index. -/
def AtIndex (t : Tid) (head : ℕ) (_ : List (Tid × Label V)) (s : State Tid V) : Prop :=
  (∃ pc, s.pc t = .pop pc ∧ popReads pc = none) ∧ s.queue.head.index = head

/-- A pop is under way while this index is not behind the head, and unpublished
if it is the head. -/
def SlotSeen (cfg : Config Tid) (t : Tid) (head : ℕ) (τ : List (Tid × Label V))
    (s : State Tid V) : Prop :=
  (∃ pc, s.pc t = .pop pc) ∧ head ≤ s.queue.head.index ∧
    (s.queue.head.index = head → Unpublished cfg τ s)

/-- A pop is under way and stalled. -/
def PopStalled (cfg : Config Tid) (t : Tid) (τ : List (Tid × Label V)) (s : State Tid V) : Prop :=
  (∃ pc, s.pc t = .pop pc) ∧ Stalled cfg t τ s

/-- While a pop that owns nothing runs, a head on a sentinel is another
consumer's transition. -/
theorem stalled_of_index (h : Reach cfg τ s) (hi : AtIndex t head τ s)
    (hv : ¬IsValue cfg.size head) : PopStalled cfg t τ s := by
  obtain ⟨⟨pc, hpc, hreads⟩, rfl⟩ := hi
  obtain ⟨g, hg⟩ := reach_inv h
  have hl := hg.assertion t
  rw [hpc] at hl
  obtain ⟨u, p, hu, hlast, he⟩ := crossing_of_sentinel h hl.1 hv
  refine ⟨⟨pc, hpc⟩, .inr ⟨u, ?_, p, hu, hlast, he⟩⟩
  rintro rfl
  rw [hpc] at hu
  cases hreads.symm.trans hu

omit [DecidableEq Tid] in
/-- A head that is not yet past an index seen unpublished was unpublished. -/
theorem stalled_of_slot (hi : SlotSeen cfg t head τ s) (hge : s.queue.head.index ≤ head) :
    PopStalled cfg t τ s := by
  obtain ⟨hpc, hle, hun⟩ := hi
  exact ⟨hpc, .inl (hun (Nat.le_antisymm hge hle))⟩

/-- What an access of a pop sees becomes known to its next program point. -/
theorem seen_next (h : History cfg τ s g) {pc pc' : PopPc V} (hpc : s.pc t = .pop pc)
    {flag : ℕ} {fail : Bool} (hn : (pc.exec cfg.size cfg.capacity flag fail s.queue).2.1 = .goto pc')
    {P U : ℕ → Prop} (hP : ∀ head, AtIndex t head τ s → P head)
    (hU : ∀ head, SlotSeen cfg t head τ s → U head) : Seen P U pc' := by
  have hl := h.inv.assertion t
  rw [hpc] at hl
  refine pop_seen (fun hr => hP _ ⟨⟨pc, hpc, hr⟩, rfl⟩) ?_ hl.2 hn
  intro head block hs hp
  refine hU head ⟨⟨pc, hpc⟩, hp.2.2.1, ?_⟩
  rintro rfl
  have hserves := hp.2.2.2 rfl
  have hhead : s.queue.head.block = block := by
    rw [h.inv.coherent.head_block, ← hserves.2, h.inv.coherent.head_shared hl.1 hp.1]
  subst hhead
  exact unpublished_of_untagged h hp.1 hs hserves

/-- The thread calls an operation. -/
def calls (t : Tid) (l : Tid × Label V) : Prop := l.1 = t ∧ ∃ op, l.2 = .call op

/-- What a pop under way has seen since it was called. -/
def SeenSince (cfg : Config Tid) (t : Tid) (τ : List (Tid × Label V)) (s : State Tid V) :
    PopPc V → Prop :=
  Seen (fun head => Since (Step cfg) (State.init Tid V) (calls t) (AtIndex t head) τ s)
    fun head => Since (Step cfg) (State.init Tid V) (calls t) (SlotSeen cfg t head) τ s

omit [DecidableEq Tid] in
/-- A pop that is still a pop went on. -/
theorem goto_of_nextPc {n : Next (PopPc V) (PopRet V)} {pc : PopPc V}
    (h : nextPc (Next.map .pop .pop n) = .pop pc) : n = .goto pc := by
  cases n with
  | goto pc' => rw [Pc.pop.inj h]
  | ret r | fault => cases h

/-- Every pop under way knows what it has seen. -/
theorem seen_run (h : Reach cfg τ s) {pc : PopPc V} (hpc : s.pc t = .pop pc) :
    SeenSince cfg t τ s pc := by
  revert hpc
  suffices hall : ∀ pc, s.pc t = .pop pc → SeenSince cfg t τ s pc from hall pc
  refine h.invariant (P := fun τ s => ∀ pc, s.pc t = .pop pc → SeenSince cfg t τ s pc)
    (fun pc hpc => by cases hpc) ?_
  rintro τ s ⟨u, l⟩ s' hr ih hs pc hpc
  obtain ⟨g, hg⟩ := reach_history hr
  by_cases hu : u = t
  · subst hu
    rcases step_cases hs with ⟨op, rfl, hidle, -, rfl⟩ | ⟨flag, fail, o, ho, rfl, rfl⟩
    · have hentry : op.entry cfg.capacity = .pop pc :=
        (Function.update_self u _ s.pc).symm.trans hpc
      cases op with
      | pop =>
        obtain rfl := Pc.pop.inj hentry
        trivial
      | _ => cases hentry
    · have hnext : nextPc o.2.1 = .pop pc := (Function.update_self u _ s.pc).symm.trans hpc
      have hacc : ∀ {Q : List (Tid × Label V) → State Tid V → Prop}, Q τ s →
          Since (Step cfg) (State.init Tid V) (calls u) Q
            (τ ++ [(u, .access o.2.2 (nextRet o.2.1))]) _ :=
        fun hq => (Since.now hr hq).tail hs fun hc => nomatch hc.2
      cases hold : s.pc u with
      | pop old =>
        rw [hold, Pc.exec, Option.some.injEq] at ho
        subst ho
        exact seen_next hg hold (goto_of_nextPc hnext) (fun head hq => hacc hq)
          fun head hq => hacc hq
      | idle | fault => simp [hold, Pc.exec] at ho
      | push old | single old | read old =>
        rw [hold] at ho
        obtain rfl := Option.some.inj ho
        simp only [Next.map] at hnext
        split at hnext <;> cases hnext
  · have hpc' : s.pc t = .pop pc := by
      rcases step_cases hs with ⟨op, -, -, -, rfl⟩ | ⟨flag, fail, o, -, -, rfl⟩ <;>
        exact (Function.update_of_ne (Ne.symm hu) _ s.pc).symm.trans hpc
    exact (ih pc hpc').imp (fun head hq => hq.tail hs fun hc => hu hc.1)
      fun head hq => hq.tail hs fun hc => hu hc.1

/-- A pop that returns nothing was stalled at some moment since it was called. -/
theorem nothing_stalled (h : Reach cfg τ s) (hs : Step cfg s (t, l) s')
    (hr : l.result = some (.pop .nothing)) :
    Since (Step cfg) (State.init Tid V) (calls t) (PopStalled cfg t) τ s := by
  rcases step_cases hs with ⟨op, rfl, -⟩ | ⟨flag, fail, o, ho, rfl, -⟩
  · cases hr
  · cases hpc : s.pc t with
    | idle | fault => simp [hpc, Pc.exec] at ho
    | pop pc =>
      rw [hpc, Pc.exec, Option.some.injEq] at ho
      subst ho
      obtain ⟨r, hn, hr⟩ := nextRet_map.mp hr
      obtain rfl := Ret.pop.inj hr
      rcases pop_nothing (seen_run h hpc) hn with ⟨head, hseen, hv⟩ | hseen
      · exact hseen.imp fun τ₁ τ₂ m hm _ hi => stalled_of_index hm hi hv
      · refine hseen.imp fun τ₁ τ₂ m hm hrun hi => ?_
        obtain ⟨g, hg⟩ := reach_inv hm
        exact stalled_of_slot hi (run_head hg hrun)
    | push pc | single pc | read pc =>
      rw [hpc, Pc.exec, Option.some.injEq] at ho
      subst ho
      obtain ⟨r, -, hr⟩ := nextRet_map.mp hr
      cases hr

end Moments

section Claims

/-- A pop takes a position by its successful compare-exchange. -/
theorem pop_takes {pc : PopPc V} {z : BlockSize} {capacity : Option ℕ} {flag head n : ℕ}
    {fail : Bool} (he : (pc.exec z capacity flag fail q).2.2 = some (.taken head n)) :
    n = 1 ∧ q.head.index = head ∧ ∃ block wait, pc = .claim head block wait := by
  cases pc with
  | claim head' block wait =>
    simp only [PopPc.exec] at he
    split at he
    · rename_i hc
      cases he
      exact ⟨rfl, hc.1, block, wait, rfl⟩
    · cases he
  | readValue k | loadNext k v | recycleSpare k v =>
    simp only [PopPc.exec] at he
    split at he <;> cases he
  | _ => cases he

/-- The owner of an accepted position claimed it. -/
theorem claimed_of_accepted [DecidableEq Tid] (h : History cfg τ s g) {p : ℕ}
    (ha : (u, p) ∈ accepted τ) : ∃ v, (u, p, v) ∈ claimed τ := by
  have hmem : p ∈ (ofThread u (claimed τ)).map Prod.fst := by
    rw [h.claim u]
    exact List.mem_append_left _ (mem_ofThread.mpr ha)
  obtain ⟨⟨p', v⟩, hc, rfl⟩ := List.mem_map.mp hmem
  exact ⟨v, mem_ofThread.mp hc⟩

/-- What a successful claim of a head index rests on: the block in the hands
of the consumer serves the index and its slot holds what the owner of the
position published. -/
structure Claimable (cfg : Config Tid) (τ : List (Tid × Label V)) (s : State Tid V) (head : ℕ)
    (block : BlockId) : Prop where
  right : Right cfg s head block
  tagged : s.queue.state block (offset cfg.size head) = writtenTag (lapOf cfg.size head)
  owner : ∃ u v, (u, head, v) ∈ claimed τ ∧ (u, head) ∈ accepted τ ∧
    s.queue.value block (offset cfg.size head) = some v
  untaken : ∀ u, (u, head) ∉ taken τ

variable [DecidableEq Tid]

/-- A claim that meets the head index meets its block and its value. -/
theorem claimable_of_head (h : History cfg τ s g) {head wait : ℕ} {block : BlockId}
    (hpc : s.pc t = .pop (.claim head block wait)) (hh : s.queue.head.index = head) :
    Claimable cfg τ s head block := by
  have hl := h.inv.assertion t
  rw [hpc] at hl
  obtain ⟨hx, ⟨hv, -, -, hserves⟩, hpub⟩ := hl
  have hb := hserves hh
  have hpub := hpub hh
  have hlap := hh ▸ h.inv.coherent.head_shared hx (hh ▸ hv)
  have hnot : ¬g.finished head := fun hf => by
    have := h.inv.coherent.lt_of_finished hf
    omega
  obtain ⟨-, -, hstate, v, hval, hvalue⟩ := h.inv.coherent.slot head hpub hnot
  rw [hb.2] at hstate hvalue
  refine ⟨right_of_live h.inv hlap.ge hb, hstate, ?_, ?_⟩
  · obtain ⟨⟨u, p⟩, ha, rfl⟩ := List.mem_map.mp ((published_iff_accepted h).mp hpub)
    obtain ⟨w, hc⟩ := claimed_of_accepted h ha
    have hw := (h.val p w).mpr ⟨u, hc⟩
    obtain rfl : v = w := Option.some.inj (hval.symm.trans hw)
    exact ⟨u, v, hc, ha, hvalue⟩
  · intro u hu
    have hmem : head ∈ (taken τ).map Prod.snd := List.mem_map.mpr ⟨_, hu, rfl⟩
    rw [h.taken, mem_valuePositions] at hmem
    omega

/-- A shared position is taken by a compare-exchange on the head index that
found its block and its value, and by nobody else before or after. -/
theorem claim_right (h : Reach cfg τ s) (hx : cfg.exclusive = none)
    (hs : Step cfg s (t, l) s') {head n : ℕ} (he : l.effect = some (.taken head n)) :
    n = 1 ∧ s.queue.head.index = head ∧
      (∃ block wait, s.pc t = .pop (.claim head block wait) ∧ Claimable cfg τ s head block) ∧
      ∀ τ' s'', Run (Step cfg) s' τ' s'' → ∀ u, (u, head) ∉ taken τ' := by
  obtain ⟨g, hg⟩ := reach_history h
  have hpop : n = 1 ∧ s.queue.head.index = head ∧
      ∃ block wait, s.pc t = .pop (.claim head block wait) := by
    rcases step_cases hs with ⟨op, rfl, -⟩ | ⟨flag, fail, o, ho, rfl, -⟩
    · cases he
    · have hl := hg.inv.assertion t
      cases hpc : s.pc t with
      | idle | fault => simp [hpc, Pc.exec] at ho
      | push pc =>
        rw [hpc, Pc.exec, Option.some.injEq] at ho
        subst ho
        exact (QueueExclusive.push_takes he).elim
      | pop pc =>
        rw [hpc, Pc.exec, Option.some.injEq] at ho
        subst ho
        obtain ⟨hn, hh, block, wait, rfl⟩ := pop_takes he
        exact ⟨hn, hh, block, wait, rfl⟩
      | single pc =>
        rw [hpc] at hl
        cases hx.symm.trans hl.1
      | read pc =>
        rw [hpc, Pc.exec, Option.some.injEq] at ho
        subst ho
        cases pc <;> cases he
  obtain ⟨rfl, hh, block, wait, hpc⟩ := hpop
  refine ⟨rfl, hh, ⟨block, wait, hpc, claimable_of_head hg hpc hh⟩, fun τ' s'' hr u hu => ?_⟩
  obtain ⟨g'', hg''⟩ := reach_history ((h.tail hs).append hr)
  have hnodup : ((taken (τ ++ [(t, l)] ++ τ')).map Prod.snd).Nodup := by
    rw [hg''.taken]
    exact (valuePositions_pairwise _).imp Nat.ne_of_lt
  have hsplit : taken (τ ++ [(t, l)] ++ τ') = taken (τ ++ [(t, l)]) ++ taken τ' := by
    simp [taken]
  rw [hsplit, List.map_append, List.nodup_append] at hnodup
  refine hnodup.2.2 head ?_ head (List.mem_map.mpr ⟨_, hu, rfl⟩) rfl
  refine List.mem_map.mpr ⟨(t, head), ?_, rfl⟩
  simp [taken, he, takes]

end Claims

end Rapidfire.QueuePairing
