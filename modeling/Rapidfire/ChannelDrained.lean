import Rapidfire.ChannelVerdict

/-!
# A channel whose last sender is gone

Once the channel is closed by the drop of its last sender, nobody sends any
more and the tail stays. A queue found drained then stays drained, everything
accepted has been received, and a receive that begins later reports closed.
-/

namespace Rapidfire.ChannelDrained

open Positions QueueMemory QueueMachine ChannelState ChannelMachine ChannelQueue ChannelLedger
  ChannelVerdict QueueHistory Runs

variable {Tid V : Type} {cfg : Config Tid} {s s' : ChannelMachine.State Tid V} {t u : Tid}
  {l : ChannelMachine.Label V} {τ : List (Tid × ChannelMachine.Label V)}

/-- No sender handle is left and nobody is sending. -/
def NoSenders (s : ChannelMachine.State Tid V) : Prop :=
  s.shared.handles .senders = 0 ∧ ∀ u, (s.pc u).side ≠ some .senders

section Sealing

variable [DecidableEq Tid]

/-- The side an agent is on after a step: none, the one it was on, or the one
of the operation it starts. -/
theorem step_side (hok : AgentOk cfg t (s.pc t)) (h : ChannelMachine.Step cfg s (t, l) s') :
    (s'.pc t).side = none ∨ (s'.pc t).side = (s.pc t).side ∨
      ∃ op, l.call = some op ∧ op.Allowed cfg s t ∧ (s'.pc t).side = Op.role op := by
  rcases ChannelMachine.step_cases cfg h with ⟨op, c, n, hs, ha, rfl, rfl⟩ |
    ⟨k, pc, fail, o, hpc, ho, rfl, rfl⟩ | ⟨fail, c, n, hs, rfl, rfl⟩
  · simp only [Function.update_self]
    rcases (start_arrives hs).1 with harr | harr | ⟨who, hn⟩
    · rcases harr.role with ⟨h0, -⟩ | ⟨h0, -⟩
      · exact .inl h0
      · exact .inr (.inr ⟨op, rfl, ha, h0⟩)
    · rcases harr.role with ⟨h0, -⟩ | ⟨h0, -⟩
      · exact .inl h0
      · exact .inr (.inl h0)
    · rw [hn]
      exact .inl rfl
  · simp only [Function.update_self]
    rw [hpc] at hok ⊢
    obtain ⟨-, hret⟩ := exec_fits hok.inside ho
    cases hn : o.2.1 with
    | goto pc' => exact .inr (.inl rfl)
    | ret r =>
      have harr : Arrives cfg _ _ (k.finish cfg r).1 := arrives_finish (hret r hn)
      rcases harr.role with ⟨h0, -⟩ | ⟨h0, -⟩
      · exact .inl h0
      · exact .inr (.inl h0)
    | fault => exact .inl rfl
  · simp only [Function.update_self]
    rcases (exec_arrives hs).1.role with ⟨h0, -⟩ | ⟨h0, -⟩
    · exact .inl h0
    · exact .inr (.inl h0)

/-- Without senders, nobody sends any more. -/
theorem NoSenders.step (hn : NoSenders s) (hok : AgentOk cfg t (s.pc t))
    (h : ChannelMachine.Step cfg s (t, l) s') : NoSenders s' := by
  obtain ⟨hzero, hside⟩ := hn
  constructor
  · rcases ChannelMachine.step_cases cfg h with ⟨op, c, n, hs, ha, -, rfl⟩ |
      ⟨k, pc, fail, o, -, -, -, rfl⟩ | ⟨fail, c, n, hs, -, rfl⟩
    · have hpos := ha.1
      generalize s.pc t = pc at hs
      cases hs with
      | clone side | dropLast side | dropHandle side =>
        cases side with
        | senders => exact absurd (hpos .senders rfl) (by omega)
        | receivers => simpa [Shared.setHandles] using hzero
      | _ => exact hzero
    · exact hzero
    · exact (congrFun (exec_flags cfg hs).1 .senders).trans hzero
  · intro u
    by_cases hu : u = t
    · subst hu
      rcases step_side hok h with h0 | h0 | ⟨op, -, ha, h0⟩
      · rw [h0]
        nofun
      · rw [h0]
        exact hside u
      · rw [h0]
        intro hrole
        have hop : op.side = some .senders := by cases op <;> cases hrole <;> rfl
        exact absurd (ha.1 .senders hop) (by omega)
    · rw [step_others cfg h hu]
      exact hside u

/-- If the channel is closed, or about to be by the drop of the last sender,
no sender is left. -/
def Sealed (s : ChannelMachine.State Tid V) : Prop :=
  (s.shared.closed = true ∨ ∃ u, s.pc u = .closeSwap (.last .senders)) → NoSenders s

omit [DecidableEq Tid] in
theorem not_closeSwap {side : Option Side} {many : Bool} {pc : AgentPc Tid V} {who : Closer}
    (h : Arrives cfg side many pc) : pc ≠ .closeSwap who := by
  rintro rfl
  exact h.placed

/-- An agent comes to the swap of a close only by starting it. -/
theorem closeSwap_step {who : Closer} (hok : AgentOk cfg t (s.pc t))
    (h : ChannelMachine.Step cfg s (t, l) s') (hpc' : s'.pc t = .closeSwap who) :
    ∃ op c n, Starts cfg s.shared t (s.pc t) op c n ∧ op.Allowed cfg s t ∧ n.1 = .closeSwap who ∧
      s' = ⟨c, Function.update s.pc t n.1⟩ := by
  rcases ChannelMachine.step_cases cfg h with ⟨op, c, n, hs, ha, -, rfl⟩ |
    ⟨k, pc, fail, o, hpc, ho, -, rfl⟩ | ⟨fail, c, n, hs, -, rfl⟩
  · exact ⟨op, c, n, hs, ha, by simpa using hpc', rfl⟩
  · simp only [Function.update_self] at hpc'
    rw [hpc] at hok
    obtain ⟨-, hret⟩ := exec_fits hok.inside ho
    cases hn : o.2.1 with
    | goto pc' =>
      rw [hn] at hpc'
      cases hpc'
    | ret r =>
      rw [hn] at hpc'
      have harr : Arrives cfg _ _ (k.finish cfg r).1 := arrives_finish (hret r hn)
      exact absurd hpc' (not_closeSwap harr)
    | fault =>
      rw [hn] at hpc'
      cases hpc'
  · simp only [Function.update_self] at hpc'
    exact absurd hpc' (not_closeSwap (exec_arrives hs).1)

/-- A channel closed only by the drop of its last sender is sealed by it. -/
theorem Sealed.step (hs : Sealed s) (hok : AgentOk cfg t (s.pc t))
    (h : ChannelMachine.Step cfg s (t, l) s') (hflip : ∀ who ∈ l.flip, who = .last .senders) :
    Sealed s' := by
  by_cases ha : s.shared.closed = true ∨ ∃ u, s.pc u = .closeSwap (.last .senders)
  · exact fun _ => (hs ha).step hok h
  · obtain ⟨hopen, hswap⟩ := not_or.mp ha
    intro ha'
    have hclosed : s'.shared.closed ≠ true := by
      rcases ChannelMachine.step_cases cfg h with ⟨op, c, n, hst, -, -, rfl⟩ |
        ⟨k, pc, fail, o, -, -, -, rfl⟩ | ⟨fail, c, n, hex, rfl, rfl⟩
      · rwa [starts_closed cfg hst]
      · exact hopen
      · rcases (exec_flags cfg hex).2 with he | ⟨-, who, hpc⟩
        · rwa [he]
        · refine absurd ⟨t, ?_⟩ hswap
          rw [hpc]
          refine congrArg _ (hflip who ?_)
          rw [hpc, AgentPc.flip, if_neg hopen]
          rfl
    obtain ⟨u, hu⟩ := ha'.resolve_left hclosed
    have hut : u = t := by
      by_contra hne
      rw [step_others cfg h hne] at hu
      exact hswap ⟨u, hu⟩
    subst hut
    obtain ⟨op, c, n, hst, hall, hn, rfl⟩ := closeSwap_step hok h hu
    generalize s.pc u = pc at hst
    cases hst with
    | dropLast side hone =>
      obtain rfl : side = .senders := by simpa using hn
      refine ⟨?_, fun v => ?_⟩
      · simp [Shared.setHandles, hone]
      · by_cases hv : v = u
        · subst hv
          simp only [Function.update_self]
          nofun
        · simp only [Function.update_of_ne hv]
          exact hall.2 hone v
    | pollRecv many =>
      cases many with
      | none => cases hn
      | some limit =>
        simp only [firstPoll] at hn
        split at hn <;> cases hn
    | _ => cases hn

end Sealing

section Queue

/-- Only a push moves the tail. -/
theorem exec_tail {pc : Pc V} {flag : ℕ} {fail : Bool} {q : Queue V}
    {o : Outcome V (Pc V) (QueueMachine.Ret V)} (ho : pc.exec cfg flag fail q = some o)
    (hp : ∀ p, pc ≠ .push p) : o.1.tail = q.tail := by
  cases pc with
  | idle | fault => cases ho
  | push pc => exact absurd rfl (hp pc)
  | pop pc =>
    obtain rfl := Option.some.inj ho
    cases pc with
    | claim head block wait | readValue k | loadNext k v | recycleSpare k v =>
      dsimp only
      split <;> rfl
    | _ => rfl
  | single pc =>
    obtain rfl := Option.some.inj ho
    cases pc with
    | leave batch pc =>
      cases pc with
      | loadNext r | recycleSpare r wake =>
        simp only [QueueSingle.LeavePc.exec]
        split <;> rfl
      | advance r =>
        simp only [QueueSingle.LeavePc.exec]
        cases cfg.capacity <;> rfl
      | _ => rfl
    | readValue head block | slotValue max r =>
      dsimp only
      split <;> rfl
    | _ => rfl
  | read pc =>
    obtain rfl := Option.some.inj ho
    cases pc <;> rfl

/-- The buffer of `recv_many` is grown for a value at the head. -/
theorem unwound_exec {pc : QueueSingle.SinglePc V} {z : BlockSize} {capacity : Option ℕ}
    {flag : ℕ} {fail : Bool} {q : Queue V}
    (h : (pc.exec z capacity flag fail q).2.1 = .ret .unwound) :
    ∃ max head block, pc = .reserve max head block := by
  cases pc with
  | reserve max head block => exact ⟨max, head, block, rfl⟩
  | leave batch pc =>
    obtain ⟨-, hret⟩ := leave_fits pc z capacity batch flag q
    obtain ⟨run, wake, hr⟩ := hret _ h
    cases batch with
    | true => cases hr
    | false =>
      rw [QueueSingle.Run.result] at hr
      cases hv : run.values <;> simp [hv] at hr
  | loadHead | loadBlock head | loadState head block | readValue head block | batchHead limit
  | batchBlock limit head | batchState limit head block | slotState max r | slotValue max r =>
    simp only [QueueSingle.SinglePc.exec] at h
    (repeat' split at h) <;> cases h

variable {q : Queue V} {g : QueueCoherence.Ghost Tid V} {vw : QueueCoherence.Views Tid}

/-- In a drained queue nothing is published at or after the head. -/
theorem Drained.not_published (hd : Drained cfg.size q) (h : QueueCoherence.Coherent cfg q vw g)
    {p : ℕ} (hp : q.head.index ≤ p) : ¬g.published p := by
  intro hpub
  obtain ⟨hv, hlt, -⟩ := (h.published_iff p).mp hpub
  exact absurd (hd p hv hlt) (by omega)

/-- Nothing is counted from the head of a drained queue on. -/
theorem Drained.items (hd : Drained cfg.size q) :
    itemsBetween cfg.size q.head.index q.tail.index = 0 :=
  itemsBetween_eq_zero_iff.mpr fun p hp hlt hv => absurd (hd p hv hlt) (by omega)

variable [DecidableEq Tid]

/-- An access that does not move the tail of a drained queue takes nothing and
leaves it drained. -/
theorem Drained.access {qs : QueueMachine.State Tid V} {g' : QueueCoherence.Ghost Tid V}
    (hd : Drained cfg.size qs.queue) {o : Outcome V (Pc V) (QueueMachine.Ret V)}
    (hs : QueueSteps.Steps cfg qs g t o g') (ht : o.1.tail = qs.queue.tail) :
    takes o.2.2 = [] ∧ Drained cfg.size o.1 := by
  have htakes := hs.records.takes
  constructor
  · refine List.eq_nil_iff_forall_not_mem.mpr fun p hp => ?_
    have hnodup : (valuePositions cfg.size o.1.head.index).Nodup :=
      (valuePositions_pairwise _).imp Nat.ne_of_lt
    have hmem : p ∈ valuePositions cfg.size o.1.head.index := by
      rw [htakes]
      exact List.mem_append_right _ hp
    obtain ⟨hlt, hv⟩ := mem_valuePositions.mp hmem
    have htail : p < o.1.tail.index := hs.inv.coherent.taken_claimed p hv hlt
    rw [ht] at htail
    have hold : p ∈ valuePositions cfg.size qs.queue.head.index :=
      mem_valuePositions.mpr ⟨hd p hv htail, hv⟩
    rw [htakes, List.nodup_append] at hnodup
    exact hnodup.2.2 p hold p hp rfl
  · intro p hv hlt
    rw [ht] at hlt
    have hold : p ∈ valuePositions cfg.size qs.queue.head.index :=
      mem_valuePositions.mpr ⟨hd p hv hlt, hv⟩
    have hnew : p ∈ valuePositions cfg.size o.1.head.index := by
      rw [htakes]
      exact List.mem_append_left _ hold
    exact (mem_valuePositions.mp hnew).1

end Queue

section Late

/-- The receive has not registered. -/
def RecvK.unregistered : RecvK → Prop
  | .second _ _ _ _ => False
  | _ => True

/-- A receive that began late, while it continues. -/
def Kont.late : Kont V → Prop
  | .recvFirst _ | .dropped _ | .closeSenders _ | .closeDone _ => True
  | .batched got many => got = 0 ∧ many.values = []
  | _ => False

/-- A receive that began late, inside the queue. -/
def QueueK.late : QueueK V → Prop
  | .pop k | .isEmpty k => RecvK.unregistered k
  | .batch many => many.values = []
  | .len => True
  | _ => False

/-- Program points of an agent whose operation began after the queue was
drained for good: it holds no value and has not registered. -/
def Late (z : BlockSize) (tail : ℕ) : AgentPc Tid V → Prop
  | .idle | .receiving _ _ | .closeSwap _ => True
  | .queue k pc => QueueK.late k ∧ inflight pc = [] ∧
      ∀ head, pc = .read (.emptyTail head) → itemsBetween z head tail = 0
  | .recvState k => RecvK.unregistered k
  | .unregister _ _ k | .unregisterLocked _ _ _ k | .notify _ _ k | .waking _ k => Kont.late k
  | _ => False

/-- What an operation that began late may return: a receive reports closed. -/
def LateRet : ChannelMachine.Ret V → Prop
  | .tryRecv r => r = .closed
  | .recv r => r = .closed
  | .recvMany r => r = none
  | .closed _ | .dropped | .length _ => True
  | _ => False

/-- Where a late operation goes, with its result. -/
def GoesLate (z : BlockSize) (tail : ℕ) (n : Goes Tid V) : Prop :=
  Late z tail n.1 ∧ ∀ r ∈ n.2, LateRet r

variable {z : BlockSize} {tail : ℕ}

theorem goesLate_idle {r : ChannelMachine.Ret V} (h : LateRet r) :
    GoesLate z tail ((.idle, some r) : Goes Tid V) :=
  ⟨trivial, fun r' hr => by
    obtain rfl := Option.some.inj hr
    exact h⟩

theorem goesLate_of {pc : AgentPc Tid V} (h : Late z tail pc) : GoesLate z tail (pc, none) :=
  ⟨h, nofun⟩

theorem late_enter {k : QueueK V} (hk : QueueK.late k) :
    GoesLate z tail (enter cfg k, none) := by
  refine goesLate_of ⟨hk, (entry_account cfg.size cfg.capacity (k.op cfg)).1, fun head he => ?_⟩
  have hfits := fits_entry cfg k
  rw [he] at hfits
  cases hfits with
  | emptyTail k => cases he

theorem late_resume {k : Kont V} (hk : Kont.late k) : GoesLate z tail (resume cfg k) := by
  cases k with
  | recvFirst many => exact late_enter trivial
  | batched got many =>
    obtain ⟨rfl, hv⟩ := hk
    simp only [resume, manyGot, hv, if_true]
    exact late_enter trivial
  | closeSenders who => exact goesLate_of trivial
  | closeDone who => cases who <;> exact goesLate_idle trivial
  | dropped side => exact goesLate_idle trivial
  | _ => exact hk.elim

theorem late_wakeAll (wakers : List (Waker Tid)) {k : Kont V} (hk : Kont.late k) :
    GoesLate z tail (wakeAll cfg wakers k) := by
  cases wakers with
  | nil => exact late_resume hk
  | cons w wakers => exact goesLate_of hk

/-- A late receive gets nothing from the queue and finds it drained. -/
theorem late_finish {k : QueueK V} {r : QueueMachine.Ret V} (hf : FitsRet k r)
    (hk : QueueK.late k) (hr : r.received = []) (hans : r ≠ .read (.answer false))
    (hun : r ≠ .single .unwound) : GoesLate z tail (k.finish cfg r) := by
  cases hf with
  | popped k head v wake | poppedSingle k head v wake => cases hr
  | nothing k | nothingSingle k => exact goesLate_of hk
  | isEmpty k empty =>
    cases empty with
    | true =>
      cases k with
      | call => exact goesLate_idle rfl
      | first many => cases many <;> exact goesLate_idle rfl
      | second id tail wait many => exact hk.elim
    | false => exact absurd rfl hans
  | batch many head values wake =>
    have hv : values = [] := by
      cases values with
      | nil => rfl
      | cons v values => cases hr
    subst hv
    have hvals : many.values ++ [] = [] := by rw [List.append_nil]; exact hk
    rw [finish_batch, hvals]
    split
    · exact goesLate_of ⟨rfl, rfl⟩
    · exact late_enter trivial
  | unwound many => exact absurd rfl hun
  | len n => exact goesLate_idle trivial
  | _ => exact hk.elim

variable [DecidableEq Tid] {c c' : Shared Tid V} {n : Goes Tid V}

/-- A late operation on a closed channel, outside the queue. -/
theorem late_exec {pc : AgentPc Tid V} {fail : Bool} (hc : c.closed = true)
    (h : pc.exec cfg c t fail = some (c', n)) (hl : Late z tail pc) : GoesLate z tail n := by
  cases pc with
  | recvState k =>
    cases h
    rw [if_pos hc]
    exact late_enter hl
  | unregister side id k =>
    cases h
    split
    · exact late_resume hl
    · exact goesLate_of hl
  | unregisterLocked side id forward k =>
    simp only [AgentPc.exec] at h
    split at h
    · cases h
      exact late_resume hl
    · cases h
      split
      · exact goesLate_of hl
      · exact late_resume hl
  | notify side limit k =>
    cases limit with
    | none | some limit =>
      cases h
      exact late_wakeAll _ hl
  | waking wakers k =>
    cases wakers with
    | nil =>
      cases h
      exact late_resume hl
    | cons w wakers =>
      cases h
      exact late_wakeAll wakers hl
  | closeSwap who =>
    cases h
    rw [if_pos hc]
    cases who <;> exact goesLate_idle trivial
  | idle | receiving id many | queue k pc => cases h
  | _ => exact hl.elim

/-- An operation that begins on a drained channel without senders. -/
theorem late_start {pc : AgentPc Tid V} {op : ChannelMachine.Op V}
    (h : Starts cfg c t pc op c' n) (hop : op.side ≠ some .senders)
    (hpc : pc.side ≠ some .senders) :
    Late z tail n.1 ∧ ∀ r ∈ n.2, LateRet r ∨ pc = .receiving none (some 0) := by
  have of_late : ∀ {n : Goes Tid V}, GoesLate z tail n →
      Late z tail n.1 ∧ ∀ r ∈ n.2, LateRet r ∨ pc = .receiving none (some 0) :=
    fun hn => ⟨hn.1, fun r hr => .inl (hn.2 r hr)⟩
  cases h with
  | trySend v | send v => exact absurd rfl hop
  | pollSend v | repollSend v id | dropSend v id | dropFreshSend v => exact absurd rfl hpc
  | tryRecv | len => exact of_late (late_enter trivial)
  | pollRecv many =>
    cases many with
    | none => exact of_late (late_enter trivial)
    | some limit =>
      simp only [firstPoll]
      split
      · rename_i hz
        subst hz
        exact ⟨trivial, fun _ _ => .inr rfl⟩
      · exact of_late (late_enter rfl)
  | dropHandle side hne | dropFreshRecv many => exact of_late (goesLate_idle trivial)
  | _ => exact of_late (goesLate_of trivial)

end Late

section Over

variable [DecidableEq Tid]

/-- The channel is closed, nobody sends, and everything claimed up to the tail
is taken. -/
structure Over (cfg : Config Tid) (tail : ℕ) (s : ChannelMachine.State Tid V) : Prop where
  closed : s.shared.closed = true
  senders : NoSenders s
  drained : Drained cfg.size s.shared.queue
  tail_eq : s.shared.queue.tail.index = tail

variable {tail : ℕ} {g : QueueCoherence.Ghost Tid V}

omit [DecidableEq Tid] in
/-- An agent that does not send is in no push. -/
theorem not_push {k : QueueK V} {pc : Pc V} (hf : Fits k pc) (hs : k.side ≠ some .senders) :
    ∀ p, pc ≠ .push p := by
  rintro p rfl
  cases hf
  exact hs rfl

/-- It stays over. -/
theorem Over.step (h : Over cfg tail s) (hg : QueueLocal.Inv cfg (queueState s) g)
    (hok : AgentOk cfg t (s.pc t)) (hs : ChannelMachine.Step cfg s (t, l) s') :
    Over cfg tail s' := by
  refine ⟨step_closed cfg hs h.closed, h.senders.step hok hs, ?_, ?_⟩ <;>
    rcases ChannelMachine.step_cases cfg hs with ⟨op, c, n, hst, -, -, rfl⟩ |
      ⟨k, pc, fail, o, hpc, ho, -, rfl⟩ | ⟨fail, c, n, hex, -, rfl⟩
  · exact (start_arrives hst).2.1.symm ▸ h.drained
  · obtain ⟨g', hg', -⟩ := queue_access hg hpc ho
    rw [hpc] at hok
    have hside := h.senders.2 t
    rw [hpc] at hside
    have htail := exec_tail ho (not_push hok.inside hside)
    exact (Drained.access h.drained hg' htail).2
  · exact (exec_arrives hex).2.1.symm ▸ h.drained
  · exact (congrArg (fun q => q.tail.index) (start_arrives hst).2.1).trans h.tail_eq
  · rw [hpc] at hok
    have hside := h.senders.2 t
    rw [hpc] at hside
    exact (congrArg Tail.index (exec_tail ho (not_push hok.inside hside))).trans h.tail_eq
  · exact (congrArg (fun q => q.tail.index) (exec_arrives hex).2.1).trans h.tail_eq

/-- An access of a late operation. -/
theorem late_access (h : Over cfg tail s) (hg : QueueLocal.Inv cfg (queueState s) g)
    (hok : AgentOk cfg t (s.pc t)) {k : QueueK V} {pc : Pc V} (hpc : s.pc t = .queue k pc)
    (hl : Late cfg.size tail (s.pc t)) {fail : Bool} {o : Outcome V (Pc V) (QueueMachine.Ret V)}
    (ho : pc.exec cfg (sampledCount s.shared pc) fail s.shared.queue = some o) :
    GoesLate cfg.size tail (k.next cfg o.2.1) := by
  obtain ⟨g', hg', hacc, -⟩ := queue_access hg hpc ho
  have hside := h.senders.2 t
  have hlocal := hg.assertion t
  rw [show (queueState s).pc t = pc by simp [queueState, hpc, queuePc]] at hlocal
  rw [hpc] at hok hside hl
  obtain ⟨hk, hin, hempty⟩ := hl
  have htail := exec_tail ho (not_push hok.inside hside)
  obtain ⟨htakes, -⟩ := Drained.access h.drained hg' htail
  rw [hin, htakes] at hacc
  obtain ⟨hrec, hin'⟩ := List.append_eq_nil_iff.mp hacc.symm
  obtain ⟨hgoto, hret⟩ := exec_fits hok.inside ho
  cases hn : o.2.1 with
  | goto pc' =>
    rw [hn] at hin'
    refine goesLate_of ⟨hk, hin', ?_⟩
    rintro head rfl
    have hfits : Fits k pc := hok.inside
    cases hgoto _ hn with
    | emptyTail k' =>
      cases hfits with
      | emptyHead =>
        obtain rfl := Option.some.inj ho
        obtain rfl : s.shared.queue.head.index = head := by
          simpa [ReadPc.exec, Next.map] using hn
        rw [← h.tail_eq]
        exact Drained.items h.drained
      | emptyTail _ head' =>
        obtain rfl := Option.some.inj ho
        cases hn
  | ret r =>
    refine late_finish (hret r hn) hk ?_ ?_ ?_
    · rw [hn] at hrec
      simpa [nextRet] using hrec
    · rintro rfl
      have hfits : Fits k pc := hok.inside
      cases hret _ hn with
      | isEmpty k' =>
        cases hfits with
        | emptyHead =>
          obtain rfl := Option.some.inj ho
          cases hn
        | emptyTail _ head =>
          obtain rfl := Option.some.inj ho
          have hz : ¬itemsBetween cfg.size head s.shared.queue.tail.index = 0 := by
            simpa [ReadPc.exec, Next.map] using hn
          rw [h.tail_eq] at hz
          exact hz (hempty head rfl)
      | claimsBelow => exact hk.elim
    · rintro rfl
      have hfits : Fits k pc := hok.inside
      cases hret _ hn with
      | unwound many =>
        cases hfits with
        | batch _ pc hb =>
          obtain rfl := Option.some.inj ho
          obtain ⟨r, hr, he⟩ := nextRet_map.mp (congrArg nextRet hn)
          obtain rfl := QueueMachine.Ret.single.inj he
          obtain ⟨max, head, block, rfl⟩ := unwound_exec hr
          obtain ⟨-, ⟨hhead, -⟩, hpub, -⟩ := hlocal
          exact (Drained.not_published h.drained hg.coherent (le_of_eq hhead)) hpub
  | fault => exact absurd hn hg'.sound

/-- A step of an operation that began late keeps it late, and a receive that
began late reports closed. -/
theorem late_step (h : Over cfg tail s) (hg : QueueLocal.Inv cfg (queueState s) g)
    (hok : AgentOk cfg t (s.pc t)) (hs : ChannelMachine.Step cfg s (t, l) s')
    (hl : Late cfg.size tail (s.pc t) ∨ l.call ≠ none) :
    Late cfg.size tail (s'.pc t) ∧
      ∀ r ∈ l.ret, LateRet r ∨ s.pc t = .receiving none (some 0) := by
  rcases ChannelMachine.step_cases cfg hs with ⟨op, c, n, hst, ha, rfl, rfl⟩ |
    ⟨k, pc, fail, o, hpc, ho, rfl, rfl⟩ | ⟨fail, c, n, hex, rfl, rfl⟩
  · simp only [Function.update_self]
    refine late_start hst (fun hop => ?_) (h.senders.2 t)
    exact absurd (ha.1 .senders hop) (by rw [h.senders.1]; omega)
  · simp only [Function.update_self]
    obtain ⟨h1, h2⟩ := late_access h hg hok hpc (hl.resolve_right fun hc => hc rfl) ho
    exact ⟨h1, fun r hr => .inl (h2 r hr)⟩
  · simp only [Function.update_self]
    obtain ⟨h1, h2⟩ := late_exec h.closed hex (hl.resolve_right fun hc => hc rfl)
    exact ⟨h1, fun r hr => .inl (h2 r hr)⟩

/-- The agent has been asked for an operation in this part of a run. -/
def Began (τ : List (Tid × ChannelMachine.Label V)) (u : Tid) : Prop :=
  ∃ x ∈ τ, x.1 = u ∧ x.2.call ≠ none

/-- From a point where the channel is over, it stays over, and operations that
began since are late. -/
theorem late_run {m : ChannelMachine.State Tid V} {τ' : List (Tid × ChannelMachine.Label V)}
    (hm : ChannelMachine.Reach cfg τ m) (ho : Over cfg tail m)
    (h : Run (ChannelMachine.Step cfg) m τ' s) :
    Over cfg tail s ∧ ∀ u, Began τ' u → Late cfg.size tail (s.pc u) := by
  refine h.invariant (P := fun τ' s => Over cfg tail s ∧
    ∀ u, Began τ' u → Late cfg.size tail (s.pc u)) ⟨ho, ?_⟩ ?_
  · rintro u ⟨x, hx, -⟩
    cases hx
  · rintro τ' s ⟨t, l⟩ s' hr ⟨hover, hlate⟩ hs
    obtain ⟨hq, hok⟩ := reach_queue (hm.append hr)
    obtain ⟨g, hg⟩ := QueueInvariant.reach_inv hq
    refine ⟨hover.step hg (hok t) hs, ?_⟩
    rintro u ⟨x, hx, hxu, hcall⟩
    by_cases hu : u = t
    · subst hu
      refine (late_step hover hg (hok u) hs ?_).1
      rcases List.mem_append.mp hx with hx | hx
      · exact .inl (hlate u ⟨x, hx, hxu, hcall⟩)
      · obtain rfl := List.mem_singleton.mp hx
        exact .inr hcall
    · rw [step_others cfg hs hu]
      rcases List.mem_append.mp hx with hx | hx
      · exact hlate u ⟨x, hx, hxu, hcall⟩
      · obtain rfl := List.mem_singleton.mp hx
        exact absurd hxu.symm hu

end Over

section Claim

variable [DecidableEq Tid]

/-- An unbounded channel of small blocks whose exclusive receiver is thread 1. -/
def exclusive : Config (Fin 2) := ⟨.small, none, Config.unbounded_pos, some 1⟩

end Claim

end Rapidfire.ChannelDrained
