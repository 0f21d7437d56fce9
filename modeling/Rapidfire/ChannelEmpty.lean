import Rapidfire.ChannelQueue
import Rapidfire.QueuePairing

/-!
# Empty receives

`try_recv` reports an empty channel after its pop returned nothing. The moment
at which that pop was stalled lies between the call of `try_recv` and its
return.
-/

namespace Rapidfire.ChannelEmpty

open Positions QueueMemory QueuePop QueueMachine ChannelState ChannelMachine ChannelQueue
  QueuePairing Runs

variable {Tid V : Type} {cfg : Config Tid} {t u : Tid}

/-- A program point at which an agent has seen nothing of the queue: a queue
operation stands at its entry. -/
def Begins (cfg : Config Tid) : AgentPc Tid V → Prop
  | .queue k pc => pc = (k.op cfg).entry cfg.capacity
  | .recvState _ => False
  | _ => True

/-- The result reports an empty channel. -/
def reportsEmpty : Option (ChannelMachine.Ret V) → Bool
  | some (.tryRecv .empty) => true
  | _ => false

/-- The result is that of a `recv_many` whose buffer failed to grow. -/
def unwinds : Option (ChannelMachine.Ret V) → Bool
  | some (.unwound _ _) => true
  | _ => false

/-- Where an agent goes on with nothing seen, and neither reports an empty
channel nor unwinds. -/
structure Fresh (cfg : Config Tid) (n : Goes Tid V) : Prop where
  begins : Begins cfg n.1
  not_empty : reportsEmpty n.2 = false
  calm : unwinds n.2 = false

section Begin

theorem fresh_manyLoop (m : Many V) : Fresh cfg (manyLoop cfg m) := by
  unfold manyLoop
  split
  · exact ⟨rfl, rfl, rfl⟩
  · exact ⟨trivial, rfl, rfl⟩

theorem fresh_manyGot (got : ℕ) (m : Many V) : Fresh cfg (manyGot cfg got m) := by
  unfold manyGot
  split
  · split
    · exact ⟨rfl, rfl, rfl⟩
    · exact ⟨trivial, rfl, rfl⟩
  · exact fresh_manyLoop m

theorem fresh_sendOk (k : SendK) : Fresh (V := V) cfg (sendOk k) := by
  cases k <;> exact ⟨trivial, rfl, rfl⟩

theorem fresh_sendClosed (v : V) (k : SendK) : Fresh cfg (sendClosed v k) := by
  cases k <;> exact ⟨trivial, rfl, rfl⟩

theorem fresh_sendFull (v : V) (k : SendK) : Fresh cfg (sendFull v k) := by
  cases k <;> exact ⟨trivial, rfl, rfl⟩

theorem fresh_recvReady (v : Option V) (m : Option ℕ) : Fresh cfg (recvReady v m) := by
  cases m <;> cases v <;> exact ⟨trivial, rfl, rfl⟩

theorem fresh_recvOk (v : V) (k : RecvK) : Fresh cfg (recvOk v k) := by
  cases k with
  | first m => exact fresh_recvReady (some v) m
  | _ => exact ⟨trivial, rfl, rfl⟩

theorem fresh_recvClosed (k : RecvK) : Fresh (V := V) cfg (recvClosed k) := by
  cases k with
  | first m => exact fresh_recvReady none m
  | _ => exact ⟨trivial, rfl, rfl⟩

theorem fresh_recvAgain (id tail wait : ℕ) (m : Option ℕ) :
    Fresh (V := V) cfg (recvAgain cfg id tail wait m) := by
  unfold recvAgain
  split
  · exact ⟨rfl, rfl, rfl⟩
  · exact ⟨trivial, rfl, rfl⟩

theorem fresh_recvBusy (k : RecvK) : Fresh (V := V) cfg (recvBusy cfg k) := by
  cases k with
  | call => exact ⟨rfl, rfl, rfl⟩
  | first m => exact ⟨trivial, rfl, rfl⟩
  | second id tail wait m => exact fresh_recvAgain id tail wait m

theorem begins_recvEmpty (k : RecvK) : Begins (V := V) cfg (recvEmpty cfg k).1 := by
  cases k with
  | second id tail wait m => exact rfl
  | _ => trivial

theorem fresh_resume (k : Kont V) : Fresh cfg (resume cfg k) := by
  cases k with
  | recvFirst m => exact ⟨rfl, rfl, rfl⟩
  | sent k => exact fresh_sendOk k
  | received k v => exact fresh_recvOk v k
  | batched got m => exact fresh_manyGot got m
  | recvReady v m => exact fresh_recvReady v m
  | closeDone who => cases who <;> exact ⟨trivial, rfl, rfl⟩
  | _ => exact ⟨trivial, rfl, rfl⟩

theorem fresh_wakeAll (wakers : List (Waker Tid)) (k : Kont V) :
    Fresh cfg (wakeAll cfg wakers k) := by
  cases wakers with
  | nil => exact fresh_resume k
  | cons w wakers => exact ⟨trivial, rfl, rfl⟩

theorem fresh_popped (k : RecvK) (v : V) (wake : Bool) : Fresh cfg (popped k v wake) := by
  cases wake with
  | true => exact ⟨trivial, rfl, rfl⟩
  | false => exact fresh_recvOk v k

/-- Only a pop that returned nothing has something to remember, only a batch
unwinds, and no queue operation by itself reports an empty channel. -/
theorem fresh_finish {k : QueueK V} {r : QueueMachine.Ret V} (h : FitsRet k r) :
    (r ≠ .pop .nothing → r ≠ .single .nothing → Begins cfg (k.finish cfg r).1) ∧
      reportsEmpty (k.finish cfg r).2 = false ∧
      (r ≠ .single .unwound → unwinds (k.finish cfg r).2 = false) := by
  have hfresh {n : Goes Tid V} (h : Fresh cfg n) :
      (r ≠ .pop .nothing → r ≠ .single .nothing → Begins cfg n.1) ∧
        reportsEmpty n.2 = false ∧ (r ≠ .single .unwound → unwinds n.2 = false) :=
    ⟨fun _ _ => h.begins, h.not_empty, fun _ => h.calm⟩
  cases h with
  | pushed k v tail wake =>
    cases wake with
    | true => exact hfresh ⟨trivial, rfl, rfl⟩
    | false => exact hfresh (fresh_sendOk k)
  | full k v w => exact hfresh (fresh_sendFull w k)
  | popped k head v wake | poppedSingle k head v wake => exact hfresh (fresh_popped k v wake)
  | nothing k => exact ⟨fun h _ => absurd rfl h, rfl, fun _ => rfl⟩
  | nothingSingle k => exact ⟨fun _ h => absurd rfl h, rfl, fun _ => rfl⟩
  | receiverParked id many tail => exact hfresh ⟨rfl, rfl, rfl⟩
  | isEmpty k empty =>
    cases empty with
    | true => exact hfresh (fresh_recvClosed k)
    | false => exact hfresh (fresh_recvBusy k)
  | claimsBelow id tail wait many below =>
    cases below with
    | true => exact hfresh (fresh_recvAgain id tail wait many)
    | false => exact hfresh ⟨trivial, rfl, rfl⟩
  | batch many head values wake =>
    rw [finish_batch]
    split
    · exact hfresh ⟨trivial, rfl, rfl⟩
    · exact hfresh (fresh_manyGot _ _)
  | unwound many => exact ⟨fun _ _ => trivial, rfl, fun h => absurd rfl h⟩
  | _ => exact hfresh ⟨trivial, rfl, rfl⟩

variable [DecidableEq Tid] {c c' : Shared Tid V} {n : Goes Tid V}

/-- An operation of the channel begins with nothing seen. -/
theorem fresh_start {pc : AgentPc Tid V} {op : ChannelMachine.Op V}
    (h : Starts cfg c t pc op c' n) : Fresh cfg n := by
  cases h with
  | tryRecv | len => exact ⟨rfl, rfl, rfl⟩
  | pollRecv many =>
    cases many with
    | none => exact ⟨rfl, rfl, rfl⟩
    | some limit =>
      simp only [firstPoll]
      split
      · exact ⟨trivial, rfl, rfl⟩
      · exact ⟨rfl, rfl, rfl⟩
  | _ => exact ⟨trivial, rfl, rfl⟩

/-- Outside the queue an agent sees nothing of it. It reports an empty channel
only right after it looked at the flag, and unwinds only when it appends. -/
theorem fresh_exec {pc : AgentPc Tid V} {fail : Bool}
    (h : pc.exec cfg c t fail = some (c', n)) :
    Fresh cfg n ∨ (∃ k, pc = .recvState k) ∧ Begins cfg n.1 ∧ unwinds n.2 = false ∨
      (∃ v limit, pc = .append v limit) ∧ Begins cfg n.1 ∧ reportsEmpty n.2 = false := by
  cases pc with
  | recvState k =>
    cases h
    refine .inr (.inl ⟨⟨k, rfl⟩, ?_⟩)
    split
    · exact ⟨rfl, rfl⟩
    · exact ⟨begins_recvEmpty k, by cases k <;> rfl⟩
  | trySend k v =>
    cases h
    split
    · exact .inl (fresh_sendClosed v k)
    · exact .inl ⟨rfl, rfl, rfl⟩
  | unregister side id k =>
    cases h
    split
    · exact .inl (fresh_resume k)
    · exact .inl ⟨trivial, rfl, rfl⟩
  | unregisterLocked side id forward k =>
    simp only [AgentPc.exec] at h
    split at h
    · cases h
      exact .inl (fresh_resume k)
    · cases h
      split
      · exact .inl ⟨trivial, rfl, rfl⟩
      · exact .inl (fresh_resume k)
  | registerSender v | registerReceiver many =>
    cases h
    exact .inl ⟨rfl, rfl, rfl⟩
  | notify side limit k =>
    cases limit with
    | none | some limit =>
      cases h
      exact .inl (fresh_wakeAll _ k)
  | waking wakers k =>
    cases wakers with
    | nil =>
      cases h
      exact .inl (fresh_resume k)
    | cons w wakers =>
      cases h
      exact .inl (fresh_wakeAll wakers k)
  | wakeSelf id many =>
    cases h
    exact .inl ⟨trivial, rfl, rfl⟩
  | closeSwap who =>
    cases h
    split
    · cases who <;> exact .inl ⟨trivial, rfl, rfl⟩
    · exact .inl ⟨trivial, rfl, rfl⟩
  | append v limit =>
    cases h
    split
    · exact .inr (.inr ⟨⟨v, limit, rfl⟩, trivial, rfl⟩)
    · exact .inl (fresh_manyLoop _)
  | idle | fault | sending v id | receiving id many | queue k pc => cases h

end Begin

section Remember

variable [DecidableEq Tid] {s s' : ChannelMachine.State Tid V} {l : ChannelMachine.Label V}
  {τ : List (Tid × ChannelMachine.Label V)}

/-- The agent is asked for an operation. -/
def asks (t : Tid) (l : Tid × ChannelMachine.Label V) : Prop := l.1 = t ∧ l.2.call ≠ none

/-- Since the agent was last asked, the queue was in such a state. -/
def Lately (cfg : Config Tid) (t : Tid)
    (Q : List (Tid × QueueMachine.Label V) → QueueMachine.State Tid V → Prop) :
    List (Tid × ChannelMachine.Label V) → ChannelMachine.State Tid V → Prop :=
  Since (ChannelMachine.Step cfg) (ChannelMachine.State.init Tid V) (asks t)
    fun τ m => Q (queueLog τ) (queueState m)

/-- What an agent remembers of its pops. -/
def Remembers (cfg : Config Tid) (t : Tid) (τ : List (Tid × ChannelMachine.Label V))
    (s : ChannelMachine.State Tid V) : AgentPc Tid V → Prop
  | .queue (.pop _) (.pop pc) =>
    Seen (fun head => Lately cfg t (AtIndex t head) τ s)
      (fun head => Lately cfg t (SlotSeen cfg t head) τ s) pc
  | .recvState _ => Lately cfg t (PopStalled cfg t) τ s
  | _ => True

/-- A step of another agent, or one that asks for nothing, keeps what was seen. -/
theorem Remembers.tail {pc : AgentPc Tid V} (h : Remembers cfg t τ s pc)
    (hs : ChannelMachine.Step cfg s (u, l) s') (hl : ¬asks t (u, l)) :
    Remembers cfg t (τ ++ [(u, l)]) s' pc := by
  cases pc with
  | queue k pc =>
    cases k with
    | pop k =>
      cases pc with
      | pop pc => exact Seen.imp h (fun _ hp => hp.tail hs hl) fun _ hp => hp.tail hs hl
      | _ => trivial
    | _ => trivial
  | recvState k => exact Since.tail h hs hl
  | _ => trivial

/-- Where an agent begins it has nothing to remember. -/
theorem Begins.remembers {pc : AgentPc Tid V} (h : Begins cfg pc) : Remembers cfg t τ s pc := by
  cases pc with
  | queue k pc =>
    cases k with
    | pop k =>
      obtain rfl : pc = (popOp cfg).entry cfg.capacity := h
      unfold popOp
      split <;> trivial
    | _ => trivial
  | recvState k => exact h.elim
  | _ => trivial

/-- Operations other than a pop leave nothing to remember. -/
theorem remembers_next {k : QueueK V} {n : Next (Pc V) (QueueMachine.Ret V)}
    (hk : ∀ j, k ≠ .pop j) (hret : ∀ r, n = .ret r → FitsRet k r) (hf : n ≠ .fault) :
    Remembers cfg t τ s (k.next cfg n).1 := by
  cases n with
  | goto pc =>
    cases k with
    | pop k => exact absurd rfl (hk k)
    | _ => trivial
  | ret r =>
    have hr := hret r rfl
    refine ((fresh_finish hr).1 ?_ ?_).remembers <;>
    · rintro rfl
      cases hr
      exact hk _ rfl
  | fault => exact absurd rfl hf

/-- Along a run of the channel the head index never moves back. -/
theorem channel_head {τ' : List (Tid × ChannelMachine.Label V)} (h : ChannelMachine.Reach cfg τ s)
    (hr : Run (ChannelMachine.Step cfg) s τ' s') :
    s.shared.queue.head.index ≤ s'.shared.queue.head.index := by
  induction hr with
  | refl => exact le_rfl
  | @tail τ' m s' l hr hs ih =>
    obtain ⟨t, l⟩ := l
    obtain ⟨hreach, hok⟩ := reach_queue (h.append hr)
    obtain ⟨g, hg⟩ := QueueInvariant.reach_inv hreach
    exact ih.trans (run_head hg (step_sim hg hok hs).1)

/-- An access of the queue is remembered. -/
theorem remembers_access (h : ChannelMachine.Reach cfg τ s) (hx : cfg.exclusive = none)
    (ih : Remembers cfg t τ s (s.pc t)) {k : QueueK V} {pc : Pc V} (hpc : s.pc t = .queue k pc)
    {flag : ℕ} {fail : Bool} {o : Outcome V (Pc V) (QueueMachine.Ret V)}
    (ho : pc.exec cfg flag fail s.shared.queue = some o)
    (hs : ChannelMachine.Step cfg s (t, l) s') (hl : l.call = none) (hf : o.2.1 ≠ .fault) :
    Remembers cfg t (τ ++ [(t, l)]) s' (k.next cfg o.2.1).1 := by
  have hnot : ¬asks t (t, l) := fun ha => ha.2 hl
  have now {Q : List (Tid × QueueMachine.Label V) → QueueMachine.State Tid V → Prop}
      (hq : Q (queueLog τ) (queueState s)) : Lately cfg t Q (τ ++ [(t, l)]) s' :=
    (Since.now h hq).tail hs hnot
  obtain ⟨hreach, hok⟩ := reach_queue h
  obtain ⟨g, hg⟩ := QueueHistory.reach_history hreach
  have hin : Fits k pc := by
    have hin := (hok t).inside
    rwa [hpc] at hin
  have hqpc : (queueState s).pc t = pc := by simp [queueState, hpc, queuePc]
  have hfits := exec_fits hin ho
  rw [hpc] at ih
  cases hin with
  | pop k pc =>
    rw [Pc.exec, Option.some.injEq] at ho
    subst ho
    cases hn : (pc.exec cfg.size cfg.capacity flag fail s.shared.queue).2.1 with
    | goto pc' =>
      exact seen_next hg hqpc hn (fun _ => now) fun _ => now
    | ret r =>
      cases r with
      | popped head v wake => exact (fresh_popped k v wake).begins.remembers
      | nothing =>
        rcases pop_nothing ih hn with ⟨head, hseen, hv⟩ | hseen
        · refine Since.tail (hseen.imp fun τ₁ τ₂ m hm _ hi => ?_) hs hnot
          exact stalled_of_index (reach_queue hm).1 hi hv
        · refine Since.tail (hseen.imp fun τ₁ τ₂ m hm hrun hi => ?_) hs hnot
          exact stalled_of_slot hi (channel_head hm hrun)
    | fault => exact absurd (congrArg (Next.map Pc.pop QueueMachine.Ret.pop) hn) hf
  | single k pc hb =>
    have hl := hg.inv.assertion t
    rw [hqpc] at hl
    cases hx.symm.trans hl.1
  | _ => exact remembers_next (by simp) hfits.2 hf

/-- What an agent remembers is true in every run. -/
theorem remembers_run (h : ChannelMachine.Reach cfg τ s) (hx : cfg.exclusive = none) (t : Tid) :
    Remembers cfg t τ s (s.pc t) := by
  refine h.invariant (P := fun τ s => Remembers cfg t τ s (s.pc t)) ?_ ?_
  · trivial
  rintro τ s ⟨u, l⟩ s' hr ih hs
  by_cases hu : u = t
  · subst hu
    rcases ChannelMachine.step_cases cfg hs with ⟨op, c, n, hstart, -, rfl, rfl⟩ |
      ⟨k, pc, fail, o, hpc, ho, rfl, rfl⟩ | ⟨fail, c, n, hexec, rfl, rfl⟩
    · simp only [Function.update_self]
      exact (fresh_start hstart).begins.remembers
    · obtain ⟨g, hg⟩ := QueueInvariant.reach_inv (reach_queue hr).1
      obtain ⟨g', hg', -⟩ := queue_access hg hpc ho
      simp only [Function.update_self]
      exact remembers_access hr hx ih hpc ho hs rfl hg'.sound
    · simp only [Function.update_self]
      rcases fresh_exec hexec with hf | ⟨-, hb, -⟩ | ⟨-, hb, -⟩
      · exact hf.begins.remembers
      · exact hb.remembers
      · exact hb.remembers
  · rw [step_others cfg hs (Ne.symm hu)]
    exact ih.tail hs fun ha => hu ha.1

/-- An agent that reports an empty channel has looked at the flag after its pop. -/
theorem recvState_of_empty (h : ChannelMachine.Reach cfg τ s)
    (hs : ChannelMachine.Step cfg s (t, l) s') (hr : reportsEmpty l.ret = true) :
    ∃ k, s.pc t = .recvState k := by
  rcases ChannelMachine.step_cases cfg hs with ⟨op, c, n, hstart, -, rfl, -⟩ |
    ⟨k, pc, fail, o, hpc, ho, rfl, -⟩ | ⟨fail, c, n, hexec, rfl, -⟩
  · exact absurd hr (by simp [(fresh_start hstart).not_empty])
  · have hin := ((reach_queue h).2 t).inside
    rw [hpc] at hin
    have hret := (exec_fits hin ho).2
    cases hn : o.2.1 with
    | ret r =>
      simp only [hn, QueueK.next] at hr
      exact absurd hr (by simp [(fresh_finish (hret r hn)).2.1])
    | goto pc' | fault =>
      simp only [hn, QueueK.next] at hr
      cases hr
  · rcases fresh_exec hexec with hf | ⟨hk, -⟩ | ⟨-, -, hf⟩
    · exact absurd hr (by simp [hf.not_empty])
    · exact hk
    · exact absurd hr (by simp [hf])

/-- An empty receive of a shared receiver had its pop stalled since it was called. -/
theorem empty_stalled (h : ChannelMachine.Reach cfg τ s) (hx : cfg.exclusive = none)
    (hs : ChannelMachine.Step cfg s (t, l) s') (hr : l.ret = some (.tryRecv .empty)) :
    Lately cfg t (PopStalled cfg t) τ s := by
  obtain ⟨k, hpc⟩ := recvState_of_empty h hs (by rw [hr]; rfl)
  have hrem := remembers_run h hx t
  rwa [hpc] at hrem

end Remember

/-- `pop` in any run of a shared queue and `try_recv` in any run of its channel.
A compare-exchange that takes a position meets the live block of its lap and
the value its owner published, and nobody else ever takes the position. A pop
that returns nothing, and a `try_recv` that reports an empty channel, met an
unpublished slot at the head, or another consumer's block transition, at some
moment since they were called. -/
theorem pop_never_fooled [DecidableEq Tid] (hx : cfg.exclusive = none) :
    (∀ (τ : List (Tid × QueueMachine.Label V)) s t l s', QueueMachine.Reach cfg τ s →
      QueueMachine.Step cfg s (t, l) s' →
      (∀ head n, l.effect = some (.taken head n) → n = 1 ∧ s.queue.head.index = head ∧
        (∃ block wait, s.pc t = .pop (.claim head block wait) ∧ Claimable cfg τ s head block) ∧
        ∀ τ' s'', Run (QueueMachine.Step cfg) s' τ' s'' →
          ∀ u, (u, head) ∉ QueueHistory.taken τ') ∧
      (l.result = some (.pop .nothing) →
        Since (QueueMachine.Step cfg) (QueueMachine.State.init Tid V) (calls t)
          (PopStalled cfg t) τ s)) ∧
    ∀ (τ : List (Tid × ChannelMachine.Label V)) s t l s', ChannelMachine.Reach cfg τ s →
      ChannelMachine.Step cfg s (t, l) s' → l.ret = some (.tryRecv .empty) →
      Lately cfg t (PopStalled cfg t) τ s :=
  ⟨fun _ _ _ _ _ h hs => ⟨fun _ _ he => claim_right h hx hs he, fun hr => nothing_stalled h hs hr⟩,
    fun _ _ _ _ _ h hs hr => empty_stalled h hx hs hr⟩

/-- Thread 0 publishes a value; thread 1 is about to claim it. -/
def pushAndAim : List (Fin 2 × QueueMachine.Choice ℕ) :=
  (0, .call (.push 7)) :: List.replicate 8 (0, .run 0 false) ++
  (1, .call .pop) :: List.replicate 3 (1, .run 0 false)

/-- Thread 1 tries to receive from a new channel and is about to report it empty. -/
def tryNew : List (Fin 2 × ChannelMachine.Choice ℕ) :=
  (1, .call .tryRecv) :: List.replicate 4 (1, .run false)

/-- In the first run the claim meets the value of thread 0; in the second the
report of an empty channel follows a moment with an unpublished head. -/
theorem pop_never_fooled_of_pushAndAim :
    (∃ (τ : List (Fin 2 × QueueMachine.Label ℕ)) (s : QueueMachine.State (Fin 2) ℕ) (b : BlockId),
      QueueMachine.Reach QueueBlocks.shared τ s ∧ Claimable QueueBlocks.shared τ s 0 b) ∧
    ∃ (τ : List (Fin 2 × ChannelMachine.Label ℕ)) (s : ChannelMachine.State (Fin 2) ℕ),
      ChannelMachine.Reach QueueBlocks.shared τ s ∧
        Lately QueueBlocks.shared 1 (PopStalled QueueBlocks.shared 1) τ s := by
  have hx : QueueBlocks.shared.exclusive = none := rfl
  obtain ⟨hqueue, hchannel⟩ := pop_never_fooled (V := ℕ) hx
  constructor
  · have h : ((QueueMachine.State.init (Fin 2) ℕ).runs QueueBlocks.shared pushAndAim).bind
        (fun r => (r.2.step QueueBlocks.shared 1 (.run 0 false)).map fun x => x.1.effect) =
          some (some (.taken 0 1)) := by
      decide +kernel
    obtain ⟨⟨τ, s⟩, hr, he⟩ := Option.bind_eq_some_iff.mp h
    obtain ⟨⟨l, s'⟩, hs, he⟩ := Option.map_eq_some_iff.mp he
    have hreach : QueueMachine.Reach QueueBlocks.shared τ s := QueueMachine.State.runs_run hr
    have hstep : QueueMachine.Step QueueBlocks.shared s (1, l) s' := ⟨_, hs⟩
    obtain ⟨-, -, ⟨block, wait, -, hclaim⟩, -⟩ := (hqueue τ s 1 l s' hreach hstep).1 0 1 he
    exact ⟨τ, s, block, hreach, hclaim⟩
  · have h : ((ChannelMachine.State.init (Fin 2) ℕ).runs QueueBlocks.shared tryNew).bind
        (fun r => (r.2.step QueueBlocks.shared 1 (.run false)).map fun x => x.1.ret) =
          some (some (.tryRecv .empty)) := by
      decide +kernel
    obtain ⟨⟨τ, s⟩, hr, he⟩ := Option.bind_eq_some_iff.mp h
    obtain ⟨⟨l, s'⟩, hs, he⟩ := Option.map_eq_some_iff.mp he
    have hreach : ChannelMachine.Reach QueueBlocks.shared τ s := ChannelMachine.State.runs_run _ hr
    have hstep : ChannelMachine.Step QueueBlocks.shared s (1, l) s' := ⟨_, hs, by simp⟩
    exact ⟨τ, s, hreach, hchannel τ s 1 l s' hreach hstep he⟩

end Rapidfire.ChannelEmpty
