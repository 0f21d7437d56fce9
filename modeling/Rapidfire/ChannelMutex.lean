import Rapidfire.ChannelWaiters

/-!
# Waiter lists under their lock

A section under the lock of a `WaiterList` touches the list and its counter in
two accesses. Here the sections are taken apart: between its two accesses an
agent holds the lock, and the other agents read the counter and go on.
-/

namespace Rapidfire.ChannelMutex

open Positions QueueMemory QueueMachine ChannelState ChannelMachine ChannelQueue ChannelWaiters
  Runs

variable {Tid V : Type} {cfg : Config Tid} {t u : Tid}

/-- What is left of a section after its first access: `register` adds to the
counter, `unregister` and the notifications of some entries subtract from it,
and `notify_all` drains the list. -/
inductive Half where
  | add
  | sub (n : ℕ)
  | drain
  deriving DecidableEq

/-- The second access of the section an agent is about to enter. -/
def half (c : Shared Tid V) : AgentPc Tid V → Option Half
  | .registerSender _ | .registerReceiver _ => some .add
  | .unregisterLocked side id _ _ => if c.parked side id then some (.sub 1) else none
  | .notify side (some limit) _ =>
    if (c.list side).isEmpty then none else some (.sub (min limit (c.list side).length))
  | .notify _ none _ => some .drain
  | _ => none

/-- The shared state between the accesses of a section that leads from `c` to `c'`. -/
def Half.between (half : Half) (side : Side) (c c' : Shared Tid V) : Shared Tid V :=
  match half with
  | .add | .sub _ => { c' with count := Function.update c'.count side (c.count side) }
  | .drain => { c' with list := Function.update c'.list side (c.list side) }

/-- The second access of a section. -/
def Half.finish (half : Half) (side : Side) (c : Shared Tid V) : Shared Tid V :=
  match half with
  | .add => { c with count := Function.update c.count side (c.count side + 1) }
  | .sub n => { c with count := Function.update c.count side (c.count side - n) }
  | .drain => { c with list := Function.update c.list side [] }

/-- A state of the channel, and who is inside the lock of which list. -/
structure FineState (Tid V : Type) where
  base : ChannelMachine.State Tid V
  inside : Side → Option (Tid × Half)

/-- A step that shows nothing. -/
def silent : ChannelMachine.Label V := ⟨[], none, none, none⟩

variable [DecidableEq Tid]

/-- Steps with the sections taken apart: a step that needs no lock, a section
without a second access, and the two accesses of the others. A lock is taken
only when it is free, and an agent inside a lock only leaves it. -/
inductive FineStep (cfg : Config Tid) :
    FineState Tid V → Tid × ChannelMachine.Label V → FineState Tid V → Prop where
  | plain {f : FineState Tid V} {t : Tid} {l : ChannelMachine.Label V}
      {s' : ChannelMachine.State Tid V} :
      (∀ side half, f.inside side ≠ some (t, half)) → lockOf (f.base.pc t) = none →
      ChannelMachine.Step cfg f.base (t, l) s' → FineStep cfg f (t, l) ⟨s', f.inside⟩
  | whole {f : FineState Tid V} {t : Tid} {l : ChannelMachine.Label V}
      {s' : ChannelMachine.State Tid V} {side : Side} :
      (∀ side half, f.inside side ≠ some (t, half)) → lockOf (f.base.pc t) = some side →
      f.inside side = none → half f.base.shared (f.base.pc t) = none →
      ChannelMachine.Step cfg f.base (t, l) s' → FineStep cfg f (t, l) ⟨s', f.inside⟩
  | enter {f : FineState Tid V} {t : Tid} {l : ChannelMachine.Label V}
      {s' : ChannelMachine.State Tid V} {side : Side} {h : Half} :
      (∀ side half, f.inside side ≠ some (t, half)) → lockOf (f.base.pc t) = some side →
      f.inside side = none → half f.base.shared (f.base.pc t) = some h →
      ChannelMachine.Step cfg f.base (t, l) s' →
      FineStep cfg f (t, l) ⟨⟨h.between side f.base.shared s'.shared, s'.pc⟩,
        Function.update f.inside side (some (t, h))⟩
  | leave {f : FineState Tid V} {t : Tid} {side : Side} {h : Half} :
      f.inside side = some (t, h) →
      FineStep cfg f (t, silent) ⟨⟨h.finish side f.base.shared, f.base.pc⟩,
        Function.update f.inside side none⟩

/-- Runs with the sections taken apart, from a new channel with free locks. -/
abbrev FineReach (cfg : Config Tid) :
    List (Tid × ChannelMachine.Label V) → FineState Tid V → Prop :=
  Run (FineStep cfg) ⟨ChannelMachine.State.init Tid V, fun _ => none⟩

section Queue

variable {f f' : FineState Tid V} {τ : List (Tid × ChannelMachine.Label V)}
  {l : ChannelMachine.Label V}

omit [DecidableEq Tid] in
theorem queue_between (half : Half) (side : Side) (c c' : Shared Tid V) :
    (half.between side c c').queue = c'.queue := by
  cases half <;> rfl

omit [DecidableEq Tid] in
theorem queue_finish (half : Half) (side : Side) (c : Shared Tid V) :
    (half.finish side c).queue = c.queue := by
  cases half <;> rfl

/-- The locks are nothing to the queue. -/
theorem fine_queue (h : FineReach cfg τ f) :
    QueueMachine.Reach cfg (queueLog τ) (queueState f.base) ∧
      ∀ u, AgentOk cfg u (f.base.pc u) := by
  refine h.invariant (P := fun τ f => QueueMachine.Reach cfg (queueLog τ) (queueState f.base) ∧
    ∀ u, AgentOk cfg u (f.base.pc u)) ⟨.refl, fun u => init_agentOk cfg u⟩ ?_
  rintro τ f ⟨t, l⟩ f' - ⟨hq, hok⟩ hs
  obtain ⟨g, hg⟩ := QueueInvariant.reach_inv hq
  have hstep : ∀ {s' : ChannelMachine.State Tid V}, ChannelMachine.Step cfg f.base (t, l) s' →
      QueueMachine.Reach cfg (queueLog (τ ++ [(t, l)])) (queueState s') ∧
        ∀ u, AgentOk cfg u (s'.pc u) := by
    intro s' hs
    obtain ⟨hrun, hok'⟩ := step_sim hg hok hs
    refine ⟨?_, hok'⟩
    rw [queueLog, List.flatMap_append, List.flatMap_singleton]
    exact hq.append hrun
  cases hs with
  | plain _ _ hs | whole _ _ _ _ hs => exact hstep hs
  | enter _ _ _ _ hs =>
    obtain ⟨hq', hok'⟩ := hstep hs
    refine ⟨?_, hok'⟩
    simpa only [queueState, queue_between] using hq'
  | leave _ =>
    have hlog : queueLog (τ ++ [(t, silent)]) = queueLog τ := by simp [queueLog, silent]
    refine ⟨?_, hok⟩
    rw [hlog]
    simpa only [queueState, queue_finish] using hq

end Queue

section Tidy

/-- The entry's future: the agent's present one, which is registered under the
entry's id, and has neither returned its output nor been dropped since it
stood before the section that made the entry. -/
structure Outstanding (cfg : Config Tid) (τ : List (Tid × ChannelMachine.Label V))
    (f : FineState Tid V) (side : Side) (e : Waiter Tid) : Prop where
  registered : registration (f.base.pc e.waker.agent) = some (side, e.id)
  current : f.base.shared.future e.waker.agent = e.waker.future
  since : Since (FineStep cfg) ⟨ChannelMachine.State.init Tid V, fun _ => none⟩
    (fun l => l.1 = e.waker.agent ∧ ends l.2.ret = true)
    (fun _ m => half m.base.shared (m.base.pc e.waker.agent) = some .add ∧
      m.base.shared.nextWaiterId = e.id) τ f

/-- A waiter list and its counter at any moment, by what is left of the section
under way. While a drain is under way its entries may have lost their futures. -/
structure Tidy (cfg : Config Tid) (τ : List (Tid × ChannelMachine.Label V))
    (f : FineState Tid V) (side : Side) : Prop where
  ids : ((f.base.shared.list side).map Waiter.id).Nodup
  drawn : ∀ e ∈ f.base.shared.list side, e.id < f.base.shared.nextWaiterId
  count : match f.inside side with
    | none => f.base.shared.count side = (f.base.shared.list side).length
    | some (_, .add) => f.base.shared.count side + 1 = (f.base.shared.list side).length
    | some (_, .sub n) => f.base.shared.count side = (f.base.shared.list side).length + n
    | some (_, .drain) => f.base.shared.count side = 0
  outstanding : (∀ t, f.inside side ≠ some (t, .drain)) →
    ∀ e ∈ f.base.shared.list side, Outstanding cfg τ f side e
  adder : ∀ t, f.inside side = some (t, .add) →
    ∃ e ∈ f.base.shared.list side, e.waker.agent = t

variable {f f' : FineState Tid V} {τ : List (Tid × ChannelMachine.Label V)}
  {l : ChannelMachine.Label V} {side : Side} {e : Waiter Tid}

/-- A step that neither takes back the registration nor ends the future. -/
theorem Outstanding.tail (h : Outstanding cfg τ f side e) (hs : FineStep cfg f (t, l) f')
    (hpc : ∀ u, u ≠ t → f'.base.pc u = f.base.pc u)
    (hc : e.waker.agent = t → Carries (registration (f.base.pc t)) (f'.base.pc t, l.ret))
    (hf : f'.base.shared.future e.waker.agent = f.base.shared.future e.waker.agent) :
    Outstanding cfg (τ ++ [(t, l)]) f' side e := by
  obtain ⟨hreg, hcur, hsince⟩ := h
  refine ⟨?_, hf.trans hcur, hsince.tail hs ?_⟩
  · by_cases ht : e.waker.agent = t
    · rw [ht, (hc ht).registration, ← ht, hreg]
    · rw [hpc _ ht, hreg]
  · rintro ⟨ht, hover⟩
    have hnone := (hc ht.symm).settled hover
    rw [show t = e.waker.agent from ht, hreg] at hnone
    cases hnone

/-- A list that a step leaves alone stays tidy. -/
theorem Tidy.keep (h : Tidy cfg τ f side)
    (hlist : f'.base.shared.list side = f.base.shared.list side)
    (hcount : f'.base.shared.count side = f.base.shared.count side)
    (hids : f.base.shared.nextWaiterId ≤ f'.base.shared.nextWaiterId)
    (hin : f'.inside side = f.inside side)
    (hout : ∀ e ∈ f.base.shared.list side, Outstanding cfg τ f side e →
      Outstanding cfg (τ ++ [(t, l)]) f' side e) : Tidy cfg (τ ++ [(t, l)]) f' side := by
  refine ⟨hlist ▸ h.ids, fun e he => ?_, ?_, fun hd e he => ?_, fun u hu => ?_⟩
  · rw [hlist] at he
    have := h.drawn e he
    omega
  · rw [hin, hcount, hlist]
    exact h.count
  · rw [hlist] at he
    rw [hin] at hd
    exact hout e he (h.outstanding hd e he)
  · rw [hin] at hu
    rw [hlist]
    exact h.adder u hu

/-- An agent whose `unregister` reads zero has no entry, whoever is inside the lock. -/
theorem Tidy.no_entry (h : Tidy cfg τ f side) (hc : f.base.shared.count side = 0)
    (ht : ∀ half, f.inside side ≠ some (t, half)) (hd : ∀ u, f.inside side ≠ some (u, .drain))
    (he : e ∈ f.base.shared.list side) : e.waker.agent ≠ t := by
  have hpos := List.length_pos_of_mem he
  have hcount := h.count
  cases hin : f.inside side with
  | none =>
    rw [hin] at hcount
    simp only at hcount
    omega
  | some w =>
    obtain ⟨u, half⟩ := w
    rw [hin] at hcount
    cases half with
    | add =>
      simp only at hcount
      obtain ⟨e', he', hu⟩ := h.adder u hin
      have hone : (f.base.shared.list side).length = 1 := by omega
      obtain ⟨e₀, hlist⟩ := List.length_eq_one_iff.mp hone
      rw [hlist, List.mem_singleton] at he he'
      rw [he, ← he', hu]
      rintro rfl
      exact ht .add hin
    | sub n =>
      simp only at hcount
      omega
    | drain => exact absurd hin (hd u)

end Tidy

section Steps

variable {f f' : FineState Tid V} {τ : List (Tid × ChannelMachine.Label V)}
  {l : ChannelMachine.Label V} {s' : ChannelMachine.State Tid V} {side other : Side}

theorem tidy_init : Tidy cfg [] ⟨ChannelMachine.State.init Tid V, fun _ => none⟩ side :=
  ⟨List.nodup_nil, by simp [ChannelMachine.State.init, Shared.new], rfl,
    fun _ => by simp [ChannelMachine.State.init, Shared.new], by simp⟩

/-- A step without a lock keeps the lists tidy. -/
theorem tidy_plain (hr : FineReach cfg τ f) (h : Tidy cfg τ f side)
    (ht : ∀ side half, f.inside side ≠ some (t, half)) (hl : lockOf (f.base.pc t) = none)
    (hs : ChannelMachine.Step cfg f.base (t, l) s') :
    Tidy cfg (τ ++ [(t, l)]) ⟨s', f.inside⟩ side := by
  obtain ⟨hq, hok⟩ := fine_queue hr
  have hu := unlocked_step hq hok hs hl
  have hstep := FineStep.plain ht hl hs
  by_cases hd : ∃ u, f.inside side = some (u, .drain)
  · obtain ⟨u, hd⟩ := hd
    refine ⟨?_, ?_, ?_, fun hn => absurd hd (hn u), fun v hv => ?_⟩
    · rw [hu.lists]
      exact h.ids
    · rw [hu.lists, hu.ids]
      exact h.drawn
    · rw [hu.lists, hu.counts]
      exact h.count
    · rw [show f.inside side = some (v, .add) from hv] at hd
      cases hd
  · push Not at hd
    refine h.keep (congrFun hu.lists side) (congrFun hu.counts side) hu.ids.ge rfl
      fun e he ho => ho.tail hstep (fun v hv => step_others cfg hs hv) (fun hte => ?_) ?_
    · rcases hu.carries with hc | ⟨side', id, k, hpc, hzero, -⟩
      · exact hc
      · have hreg := ho.registered
        rw [hte, hpc] at hreg
        obtain ⟨rfl, -⟩ := Prod.mk.inj (Option.some.inj hreg)
        exact absurd hte (h.no_entry hzero (ht side') hd he)
    · refine hu.future _ ?_
      rw [ho.registered]
      simp

/-- A section on one list keeps the other one tidy. -/
theorem tidy_other (h : Tidy cfg τ f other) (hs : FineStep cfg f (t, l) f')
    {c : Shared Tid V} {n : Goes Tid V}
    (hl : Locked cfg f.base.shared t side (f.base.pc t) c n) (ho : other ≠ side)
    (hpc : f'.base.pc = Function.update f.base.pc t n.1) (hret : l.ret = n.2)
    (hlist : f'.base.shared.list other = c.list other)
    (hcount : f'.base.shared.count other = c.count other)
    (hids : f'.base.shared.nextWaiterId = c.nextWaiterId)
    (hfuture : f'.base.shared.future = c.future) (hin : f'.inside other = f.inside other) :
    Tidy cfg (τ ++ [(t, l)]) f' other := by
  obtain ⟨hlist', hcount'⟩ := hl.frame ho
  obtain ⟨hids', hfuture'⟩ := hl.ids
  refine h.keep (hlist.trans hlist') (hcount.trans hcount') (hids ▸ hids') hin fun e _ he =>
    he.tail hs (fun u hu => ?_) (fun hte => ?_) (by rw [hfuture, hfuture'])
  · rw [hpc, Function.update_of_ne hu]
  · rw [hpc, Function.update_self, hret]
    exact hl.carries (hte ▸ he.registered) (.inl ho)

/-- `register` between its accesses. -/
theorem tidy_add (hr : FineReach cfg τ f) (h : Tidy cfg τ f side) (hs : FineStep cfg f (t, l) f')
    (hfree : f.inside side = none) (hin : f'.inside side = some (t, .add))
    (hnone : registration (f.base.pc t) = none)
    (hhalf : half f.base.shared (f.base.pc t) = some .add)
    (hpc : ∀ u, u ≠ t → f'.base.pc u = f.base.pc u) (hret : ends l.ret = false)
    (hreg : registration (f'.base.pc t) = some (side, f.base.shared.nextWaiterId))
    (hlist : f'.base.shared.list side = f.base.shared.list side ++
      [⟨f.base.shared.nextWaiterId, f.base.shared.waker t⟩])
    (hcount : f'.base.shared.count side = f.base.shared.count side)
    (hids : f'.base.shared.nextWaiterId = f.base.shared.nextWaiterId + 1)
    (hfuture : f'.base.shared.future = f.base.shared.future) :
    Tidy cfg (τ ++ [(t, l)]) f' side := by
  have hcount' := h.count
  rw [hfree] at hcount'
  have hout := h.outstanding (by simp [hfree])
  refine ⟨?_, fun e he => ?_, ?_, fun _ e he => ?_, fun u hu => ?_⟩
  · rw [hlist, List.map_append, List.nodup_append]
    refine ⟨h.ids, List.nodup_singleton _, ?_⟩
    rintro _ hx _ hy rfl
    obtain ⟨e, he, rfl⟩ := List.mem_map.mp hx
    have hlt := h.drawn e he
    have heq : e.id = f.base.shared.nextWaiterId := List.mem_singleton.mp hy
    omega
  · rw [hlist, List.mem_append, List.mem_singleton] at he
    rcases he with he | rfl
    · have hlt := h.drawn e he
      omega
    · simp [hids]
  · rw [hin]
    simp only at hcount' ⊢
    rw [hlist, hcount, hcount', List.length_append, List.length_singleton]
  · rw [hlist, List.mem_append, List.mem_singleton] at he
    rcases he with he | rfl
    · have hne : e.waker.agent ≠ t := by
        rintro rfl
        rw [(hout e he).registered] at hnone
        cases hnone
      exact (hout e he).tail hs hpc (fun ht => absurd ht hne) (by rw [hfuture])
    · refine ⟨hreg, congrFun hfuture t, ?_⟩
      refine Since.tail (Since.now hr ⟨hhalf, rfl⟩) hs fun hover => ?_
      rw [show l.ret = (t, l).2.ret from rfl, hover.2] at hret
      cases hret
  · rw [hin] at hu
    cases hu
    exact ⟨⟨_, _⟩, hlist ▸ List.mem_append_right _ (List.mem_singleton_self _), rfl⟩

/-- A section that takes entries out, between its accesses or as a whole. -/
theorem tidy_shrink (h : Tidy cfg τ f side) (hs : FineStep cfg f (t, l) f')
    (hfree : f.inside side = none) (hpc : ∀ u, u ≠ t → f'.base.pc u = f.base.pc u)
    (hsub : (f'.base.shared.list side).Sublist (f.base.shared.list side))
    (hcount : match f'.inside side with
      | none => f.base.shared.count side = (f'.base.shared.list side).length ∧
          f'.base.shared.count side = f.base.shared.count side
      | some (_, .sub n) => f.base.shared.count side = (f'.base.shared.list side).length + n ∧
          f'.base.shared.count side = f.base.shared.count side
      | some _ => False)
    (hids : f'.base.shared.nextWaiterId = f.base.shared.nextWaiterId)
    (hfuture : f'.base.shared.future = f.base.shared.future)
    (hcarries : ∀ e ∈ f'.base.shared.list side, e.waker.agent = t →
      registration (f.base.pc t) = some (side, e.id) →
      Carries (registration (f.base.pc t)) (f'.base.pc t, l.ret)) :
    Tidy cfg (τ ++ [(t, l)]) f' side := by
  have hout := h.outstanding (by simp [hfree])
  refine ⟨h.ids.sublist (hsub.map _), fun e he => ?_, ?_, fun _ e he => ?_, fun u hu => ?_⟩
  · rw [hids]
    exact h.drawn e (hsub.subset he)
  · split at hcount <;> rename_i hin
    · rw [hin]
      exact hcount.2.trans hcount.1
    · rw [hin]
      exact hcount.2.trans hcount.1
    · exact hcount.elim
  · have ho := hout e (hsub.subset he)
    exact ho.tail hs hpc (fun ht => hcarries e he ht (ht ▸ ho.registered)) (by rw [hfuture])
  · rw [hu] at hcount
    exact hcount.elim

/-- A section keeps its own list tidy, as a whole or up to its first access. -/
theorem tidy_section (hr : FineReach cfg τ f) (h : Tidy cfg τ f side) {pc : AgentPc Tid V}
    (hpc : f.base.pc t = pc) (hfree : f.inside side = none) {c : Shared Tid V} {n : Goes Tid V}
    (hl : Locked cfg f.base.shared t side pc c n) (hret : l.ret = n.2) :
    (half f.base.shared pc = none →
      FineStep cfg f (t, l) ⟨⟨c, Function.update f.base.pc t n.1⟩, f.inside⟩ →
      Tidy cfg (τ ++ [(t, l)]) ⟨⟨c, Function.update f.base.pc t n.1⟩, f.inside⟩ side) ∧
    ∀ hf, half f.base.shared pc = some hf →
      FineStep cfg f (t, l) ⟨⟨hf.between side f.base.shared c, Function.update f.base.pc t n.1⟩,
        Function.update f.inside side (some (t, hf))⟩ →
      Tidy cfg (τ ++ [(t, l)])
        ⟨⟨hf.between side f.base.shared c, Function.update f.base.pc t n.1⟩,
          Function.update f.inside side (some (t, hf))⟩ side := by
  have hcount : f.base.shared.count side = (f.base.shared.list side).length := by
    have hc := h.count
    rwa [hfree] at hc
  have hothers : ∀ u, u ≠ t → Function.update f.base.pc t n.1 u = f.base.pc u :=
    fun u hu => Function.update_of_ne hu _ _
  subst hpc
  generalize hpc : f.base.pc t = pc at hl
  cases hl with
  | registerSender v | registerReceiver many =>
    refine ⟨nofun, fun hf hh hs => ?_⟩
    obtain rfl := Option.some.inj hh
    refine tidy_add hr h hs hfree (by simp) (by rw [hpc]; rfl) (by rw [hpc]; rfl)
      hothers (by rw [hret]; rfl) (by simp only [Function.update_self]; rfl) ?_ ?_ rfl rfl
    · simp [Half.between, Shared.register, Shared.setList]
    · simp [Half.between, Shared.register, Shared.setList]
  | remove side id forward k hp =>
    have hhalf : half f.base.shared (.unregisterLocked side id forward k) = some (.sub 1) :=
      if_pos hp
    rw [hhalf]
    refine ⟨nofun, fun hf hh hs => ?_⟩
    obtain rfl := Option.some.inj hh
    obtain ⟨e₀, he₀, hid₀⟩ : ∃ e ∈ f.base.shared.list side, e.id = id := by
      simpa [Shared.parked] using hp
    have hlist : (Half.between (.sub 1) side f.base.shared (f.base.shared.remove side id)).list side =
        (f.base.shared.list side).eraseP fun e => e.id = id := by
      simp [Half.between, Shared.remove, Shared.setList]
    refine tidy_shrink h hs hfree hothers ?_ ?_ rfl rfl fun e he ht hreg => ?_
    · rw [hlist]
      exact List.eraseP_sublist
    · simp only [Function.update_self]
      have hlen : ((f.base.shared.list side).eraseP fun e => e.id = id).length + 1 =
          (f.base.shared.list side).length := by
        rw [List.length_eraseP_of_mem he₀ (by simpa using hid₀)]
        have hpos := List.length_pos_of_mem he₀
        omega
      rw [hlist]
      exact ⟨by omega, by simp [Half.between]⟩
    · rw [hlist] at he
      rw [hpc] at hreg
      obtain ⟨-, hid⟩ := Prod.mk.inj (Option.some.inj hreg)
      exact absurd hid.symm (ne_of_mem_eraseP h.ids he)
  | absent side id forward k hp =>
    have hhalf : half f.base.shared (.unregisterLocked side id forward k) = none :=
      if_neg (by simp [hp])
    rw [hhalf]
    refine ⟨fun _ hs => ?_, nofun⟩
    refine tidy_shrink h hs hfree hothers (List.Sublist.refl _) ?_ rfl rfl fun e he ht hreg => ?_
    · rw [hfree]
      exact ⟨hcount, rfl⟩
    · rw [hpc] at hreg
      obtain ⟨-, hid⟩ := Prod.mk.inj (Option.some.inj hreg)
      have hnot : ¬f.base.shared.parked side id = true := by simp [hp]
      exact absurd (List.any_eq_true.mpr ⟨e, he, by simpa using hid.symm⟩) hnot
  | notifyMany side limit k =>
    have hlist : (f.base.shared.notifyMany side limit).1.list side =
        (f.base.shared.list side).drop (min limit (f.base.shared.list side).length) := by
      simp [Shared.notifyMany, Shared.setList]
    have hcount' : (f.base.shared.notifyMany side limit).1.count side =
        f.base.shared.count side - min limit (f.base.shared.list side).length := by
      simp [Shared.notifyMany, Shared.setList]
    have hcarries : Carries (registration (f.base.pc t)) (Function.update f.base.pc t
        (wakeAll cfg (f.base.shared.notifyMany side limit).2 k).1 t, l.ret) := by
      rw [hpc, Function.update_self, hret]
      exact carries_wakeAll _ k
    constructor
    · intro hh hs
      have hempty : f.base.shared.list side = [] := by
        by_contra hne
        rw [half, if_neg (by simpa using hne)] at hh
        cases hh
      refine tidy_shrink h hs hfree hothers ?_ ?_ rfl rfl fun _ _ _ _ => hcarries
      · exact hlist ▸ List.drop_sublist _ _
      · rw [hfree]
        simp only [hlist, hcount', hcount, hempty]
        simp
    · intro hf hh hs
      obtain ⟨-, rfl⟩ : ¬(f.base.shared.list side).isEmpty = true ∧
          Half.sub (min limit (f.base.shared.list side).length) = hf := by
        rw [half] at hh
        split at hh
        · cases hh
        · exact ⟨by assumption, Option.some.inj hh⟩
      have hlist' : (Half.between (.sub (min limit (f.base.shared.list side).length)) side
          f.base.shared (f.base.shared.notifyMany side limit).1).list side =
            (f.base.shared.list side).drop (min limit (f.base.shared.list side).length) := hlist
      refine tidy_shrink h hs hfree hothers ?_ ?_ rfl rfl fun _ _ _ _ => hcarries
      · exact hlist' ▸ List.drop_sublist _ _
      · simp only [Function.update_self]
        rw [hlist', List.length_drop]
        exact ⟨by omega, by simp [Half.between]⟩
  | notifyAll side k =>
    refine ⟨nofun, fun hf hh hs => ?_⟩
    obtain rfl := Option.some.inj hh
    have hlist : (Half.between .drain side f.base.shared (f.base.shared.notifyAll side).1).list side =
        f.base.shared.list side := by simp [Half.between]
    refine ⟨?_, ?_, ?_, fun hd => absurd (Function.update_self ..) (hd t), fun u hu => ?_⟩
    · exact hlist ▸ h.ids
    · exact hlist ▸ h.drawn
    · simp [Half.between, Shared.notifyAll, Shared.setList]
    · simp at hu

/-- The second access of a section keeps the lists tidy. -/
theorem tidy_leave (h : ∀ side, Tidy cfg τ f side) {hf : Half} (hin : f.inside side = some (t, hf)) :
    Tidy cfg (τ ++ [(t, silent)]) ⟨⟨hf.finish side f.base.shared, f.base.pc⟩,
      Function.update f.inside side none⟩ other := by
  have hs : FineStep cfg f (t, silent) _ := FineStep.leave hin
  have hfuture : (hf.finish side f.base.shared).future = f.base.shared.future := by
    cases hf <;> rfl
  have hids : (hf.finish side f.base.shared).nextWaiterId = f.base.shared.nextWaiterId := by
    cases hf <;> rfl
  have hout : ∀ e ∈ f.base.shared.list other, Outstanding cfg τ f other e →
      Outstanding cfg (τ ++ [(t, silent)]) ⟨⟨hf.finish side f.base.shared, f.base.pc⟩,
        Function.update f.inside side none⟩ other e := fun e _ he =>
    he.tail hs (fun _ _ => rfl) (fun _ => ⟨rfl, nofun⟩) (by rw [hfuture])
  by_cases ho : other = side
  · subst ho
    have hcount := (h other).count
    rw [hin] at hcount
    by_cases hd : hf = .drain
    · subst hd
      have hlist : (Half.finish .drain other f.base.shared).list other = [] := by
        simp [Half.finish]
      refine ⟨?_, ?_, ?_, fun _ => ?_, fun u hu => ?_⟩
      · rw [hlist]
        exact List.nodup_nil
      · rw [hlist]
        exact fun e he => absurd he List.not_mem_nil
      · simpa [Half.finish] using hcount
      · rw [hlist]
        exact fun e he => absurd he List.not_mem_nil
      · simp at hu
    · have hlist : (hf.finish other f.base.shared).list other = f.base.shared.list other := by
        cases hf <;> first
          | rfl
          | exact absurd rfl hd
      have hin' : ∀ u, f.inside other ≠ some (u, .drain) := by
        intro u hu
        rw [hin] at hu
        exact hd (Prod.mk.inj (Option.some.inj hu)).2
      refine ⟨hlist ▸ (h other).ids, ?_, ?_, fun _ e he => ?_, fun u hu => ?_⟩
      · rw [hlist, hids]
        exact (h other).drawn
      · simp only [Function.update_self, hlist]
        cases hf with
        | add => simpa [Half.finish] using hcount
        | sub n =>
          simp only at hcount
          simp [Half.finish, hcount]
        | drain => exact absurd rfl hd
      · rw [hlist] at he
        exact hout e he ((h other).outstanding hin' e he)
      · simp at hu
  · refine (h other).keep ?_ ?_ hids.ge (Function.update_of_ne ho _ _) hout
    · cases hf <;> first
        | rfl
        | exact Function.update_of_ne ho _ _
    · cases hf <;> first
        | rfl
        | exact Function.update_of_ne ho _ _

/-- Every step keeps the waiter lists tidy. -/
theorem tidy_step (hr : FineReach cfg τ f) (h : ∀ side, Tidy cfg τ f side)
    (hs : FineStep cfg f (t, l) f') (other : Side) : Tidy cfg (τ ++ [(t, l)]) f' other := by
  cases hs with
  | plain ht hl hs => exact tidy_plain hr (h other) ht hl hs
  | @whole _ _ s' side ht hl hfree hh hs =>
    have hfine := FineStep.whole ht hl hfree hh hs
    obtain ⟨c, n, hlocked, rfl, rfl⟩ := locked_step hs hl
    by_cases ho : other = side
    · subst ho
      exact (tidy_section hr (h other) rfl hfree hlocked rfl).1 hh hfine
    · exact tidy_other (h other) hfine hlocked ho rfl rfl rfl rfl rfl rfl rfl
  | @enter _ _ s' side hf ht hl hfree hh hs =>
    have hfine := FineStep.enter ht hl hfree hh hs
    obtain ⟨c, n, hlocked, rfl, rfl⟩ := locked_step hs hl
    by_cases ho : other = side
    · subst ho
      exact (tidy_section hr (h other) rfl hfree hlocked rfl).2 hf hh hfine
    · refine tidy_other (h other) hfine hlocked ho rfl rfl ?_ ?_ ?_ ?_
        (Function.update_of_ne ho _ _)
      · cases hf <;> first
          | rfl
          | exact Function.update_of_ne ho _ _
      · cases hf <;> first
          | rfl
          | exact Function.update_of_ne ho _ _
      · cases hf <;> rfl
      · cases hf <;> rfl
  | leave hin => exact tidy_leave h hin

/-- The waiter lists are tidy in every run. -/
theorem tidy_run (h : FineReach cfg τ f) (side : Side) : Tidy cfg τ f side := by
  refine h.invariant (P := fun τ f => ∀ side, Tidy cfg τ f side) (fun side => tidy_init) ?_ side
  rintro τ f ⟨t, l⟩ f' hr ih hs
  exact tidy_step hr ih hs

end Steps

section Whole

variable {s s' : ChannelMachine.State Tid V} {l : ChannelMachine.Label V}
  {τ : List (Tid × ChannelMachine.Label V)} {side : Side}

omit [DecidableEq Tid] in
/-- The two accesses of a section are together the section. -/
theorem finish_between {c c' : Shared Tid V} {n : Goes Tid V} {pc : AgentPc Tid V} {hf : Half}
    (hl : Locked cfg c t side pc c' n) (hh : half c pc = some hf) : hf.finish side (hf.between side c c') = c' := by
  cases hl with
  | registerSender v | registerReceiver many =>
    obtain rfl := Option.some.inj hh
    simp [Half.finish, Half.between, Shared.register, Shared.setList]
  | remove side id forward k hp =>
    rw [half, if_pos hp] at hh
    obtain rfl := Option.some.inj hh
    simp [Half.finish, Half.between, Shared.remove, Shared.setList]
  | absent side id forward k hp =>
    rw [half, if_neg (by simp [hp])] at hh
    cases hh
  | notifyMany side limit k =>
    rw [half] at hh
    split at hh
    · cases hh
    · obtain rfl := Option.some.inj hh
      simp [Half.finish, Half.between, Shared.notifyMany, Shared.setList]
  | notifyAll side k =>
    obtain rfl := Option.some.inj hh
    simp [Half.finish, Half.between, Shared.notifyAll, Shared.setList]

/-- A run in which every section is one step is a run with the sections taken apart. -/
theorem fine_of_reach (h : ChannelMachine.Reach cfg τ s) :
    ∃ σ, FineReach cfg σ ⟨s, fun _ => none⟩ := by
  induction h with
  | refl => exact ⟨[], .refl⟩
  | @tail τ s s' l hr hs ih =>
    obtain ⟨σ, hσ⟩ := ih
    obtain ⟨t, l⟩ := l
    have hfree : ∀ (side : Side) (hf : Half),
        (fun _ => none : Side → Option (Tid × Half)) side ≠ some (t, hf) := fun _ _ => by simp
    cases hl : lockOf (s.pc t) with
    | none => exact ⟨_, hσ.tail (.plain hfree hl hs)⟩
    | some side =>
      cases hh : half s.shared (s.pc t) with
      | none => exact ⟨_, hσ.tail (.whole hfree hl rfl hh hs)⟩
      | some hf =>
        obtain ⟨c, n, hlocked, -, rfl⟩ := locked_step hs hl
        have henter := hσ.tail (FineStep.enter hfree hl rfl hh hs)
        have hleave := henter.tail (FineStep.leave (Function.update_self ..))
        have hinside : Function.update (Function.update (fun _ => none) side (some (t, hf))) side
            none = fun _ => none := by
          rw [Function.update_idem]
          exact Function.update_eq_self side _
        simp only [finish_between hlocked hh, hinside] at hleave
        exact ⟨_, hleave⟩

end Whole

/-- Waiter lists in any run of a channel, with the sections taken apart. While
a list's lock is free its counter is the length of the list, the ids in it are
distinct, every entry belongs to a future that is registered and has neither
been dropped nor returned Ready since, and no future has two entries, in this
list or in both; without registered futures list and counter are empty. No
counter is ever decremented below zero. -/
theorem bookkeeping {τ : List (Tid × ChannelMachine.Label V)} {f : FineState Tid V}
    (h : FineReach cfg τ f) :
    (∀ side, f.inside side = none →
      f.base.shared.count side = (f.base.shared.list side).length ∧
      ((f.base.shared.list side).map Waiter.id).Nodup ∧
      (∀ e ∈ f.base.shared.list side, Outstanding cfg τ f side e) ∧
      ((f.base.shared.list side).map Waiter.waker).Nodup ∧
      ((∀ t id, registration (f.base.pc t) ≠ some (side, id)) →
        f.base.shared.list side = [] ∧ f.base.shared.count side = 0)) ∧
    ((∀ side, f.inside side = none) → ∀ e ∈ f.base.shared.list .senders,
      ∀ e' ∈ f.base.shared.list .receivers, e.waker ≠ e'.waker) ∧
    ∀ side t n, f.inside side = some (t, .sub n) → n ≤ f.base.shared.count side := by
  have hfree : ∀ side, f.inside side = none →
      f.base.shared.count side = (f.base.shared.list side).length ∧
        ∀ e ∈ f.base.shared.list side, Outstanding cfg τ f side e := by
    intro side hside
    have htidy := tidy_run h side
    have hcount := htidy.count
    rw [hside] at hcount
    exact ⟨hcount, htidy.outstanding (by simp [hside])⟩
  refine ⟨fun side hside => ?_, fun hside e he e' he' hw => ?_, fun side t n hin => ?_⟩
  · obtain ⟨hcount, hout⟩ := hfree side hside
    have hids := (tidy_run h side).ids
    refine ⟨hcount, hids, hout, ?_, fun hnone => ?_⟩
    · rw [List.Nodup, List.pairwise_map] at hids ⊢
      refine hids.imp_of_mem fun {e e'} he he' hne hw => hne ?_
      have hreg := (hout e he).registered
      rw [hw, (hout e' he').registered] at hreg
      exact (Prod.mk.inj (Option.some.inj hreg)).2.symm
    · have hempty : f.base.shared.list side = [] :=
        List.eq_nil_iff_forall_not_mem.mpr fun e he => hnone _ _ (hout e he).registered
      rw [hcount, hempty]
      exact ⟨rfl, rfl⟩
  · have hreg := ((hfree .senders (hside _)).2 e he).registered
    rw [hw, ((hfree .receivers (hside _)).2 e' he').registered] at hreg
    cases hreg
  · have hcount := (tidy_run h side).count
    rw [hin] at hcount
    simp only at hcount
    omega

/-- A channel of two agents. -/
def shared : Config (Fin 2) := ⟨.small, none, Config.unbounded_pos, none⟩

/-- Agent 0 waits in its receive. -/
def waitForValue : List (Fin 2 × ChannelMachine.Choice ℕ) :=
  (0, .call .recv) :: (0, .call .poll) :: List.replicate 10 (0, .run false)

/-- The one waiting receive is counted, and its future is the agent's. -/
theorem bookkeeping_of_waitForValue :
    ∃ (τ : List (Fin 2 × ChannelMachine.Label ℕ)) (f : FineState (Fin 2) ℕ) (e : Waiter (Fin 2)),
      FineReach shared τ f ∧ f.base.shared.list .receivers = [e] ∧
        f.base.shared.count .receivers = 1 ∧ Outstanding shared τ f .receivers e := by
  have h : ((ChannelMachine.State.init (Fin 2) ℕ).runs shared waitForValue).map (fun a =>
      a.2.shared.list .receivers) = some [⟨1, ⟨0, 1⟩⟩] := by
    decide +kernel
  obtain ⟨⟨τ, s⟩, hrun, hlist⟩ := Option.map_eq_some_iff.mp h
  obtain ⟨σ, hσ⟩ := fine_of_reach (ChannelMachine.State.runs_run shared hrun)
  obtain ⟨hcount, -, hout, -⟩ := (bookkeeping hσ).1 .receivers rfl
  refine ⟨σ, _, ⟨1, ⟨0, 1⟩⟩, hσ, hlist, ?_, hout _ ?_⟩
  · rw [hcount]
    exact congrArg List.length hlist
  · exact hlist ▸ List.mem_singleton_self _

end Rapidfire.ChannelMutex
