import Rapidfire.ChannelBalance

/-!
# Receivers that wait for a message

A receive that finds nothing registers, looks once more and waits. If at that
look no claimed value is left, then from there on every value that a push claims
is covered by a wake which nobody loses before it is used. If a claimed value is
left that cannot be taken yet, the account breaks, and a receiver may sleep
beside a message.
-/

namespace Rapidfire.ChannelParking

open Positions QueueMemory QueuePush QueuePop QueueSingle QueueMachine QueueHistory QueueLocal
  QueueAlone ChannelState ChannelMachine ChannelQueue ChannelWaiters ChannelTurns ChannelWakes
  ChannelClose ChannelSleeper ChannelBalance Runs Balance

variable {Tid V : Type} {cfg : Config Tid} {t u : Tid} {z : BlockSize} {flag : ℕ} {fail : Bool}
  {q : Queue V}

section Owing

/-- While a receiver is in line, a push owes a wake for the value it claims. -/
theorem push_owes {k : SendK} {v : V} {pc : PushPc V} (hflag : flag ≠ 0)
    (hf : (pc.exec z flag fail q).2.1 ≠ .fault) :
    (claims (pc.exec z flag fail q).2.2).length +
        valueSupply z (.queue (.push k v) (.push pc) : AgentPc Tid V) ≤
      valueSupply z ((QueueK.push k v).next cfg
        ((pc.exec z flag fail q).2.1.map Pc.push QueueMachine.Ret.push)).1 := by
  have hclaim := congrArg List.length (push_accounts hf).claim
  have hone : ∀ pc' : PushPc V, (claimOf z (.push pc')).length ≤ 1 := by
    intro pc'
    unfold claimOf
    cases writes z (.push pc') with
    | none | some p => simp
  obtain ⟨hgoto, hret⟩ := wakeOf_exec z flag fail q pc
  have hsampled : claims (pc.exec z flag fail q).2.2 ≠ [] →
      ∃ pc', (pc.exec z flag fail q).2.1 = .goto pc' ∧ wakeOf pc' = none := by
    intro hne
    obtain ⟨p, hp⟩ := List.exists_mem_of_ne_nil _ hne
    obtain ⟨pc', hpc', hnone, -⟩ := wakeOf_claim (List.mem_map_of_mem hp)
    exact ⟨pc', hpc', hnone⟩
  have hnow : ∀ pc' : PushPc V, valueSupply z (.queue (.push k v) (.push pc') : AgentPc Tid V) =
      if claimOf z (.push pc') ≠ [] ∧ wakeOf pc' ≠ some false then 1 else 0 := fun _ => rfl
  have hmine := hone pc
  rw [hnow]
  cases hn : (pc.exec z flag fail q).2.1 with
  | fault => exact absurd hn hf
  | goto pc' =>
    have hthen := hone pc'
    rw [hn] at hclaim
    simp only [Next.map, nextRet, nextPc, Option.toList, List.flatMap_nil, List.nil_append,
      List.length_append, List.length_map] at hclaim
    change _ ≤ valueSupply z (.queue (.push k v) (.push pc') : AgentPc Tid V)
    rw [hnow]
    by_cases hnew : claims (pc.exec z flag fail q).2.2 = []
    · rw [hnew, List.length_nil] at hclaim ⊢
      by_cases hown : claimOf z (.push pc) ≠ [] ∧ wakeOf pc ≠ some false
      · have hkept : claimOf z (.push pc') ≠ [] := by
          have hpos := List.length_pos_of_ne_nil hown.1
          exact List.ne_nil_of_length_pos (by omega)
        have hstill : wakeOf pc' ≠ some false := by
          rcases hgoto pc' hn with hsame | ⟨-, htrue⟩
          · rw [hsame]
            exact hown.2
          · simp [htrue, hflag]
        rw [if_pos hown, if_pos ⟨hkept, hstill⟩]
      · rw [if_neg hown]
        exact Nat.zero_le _
    · obtain ⟨pc'', hpc'', hnone⟩ := hsampled hnew
      obtain rfl := Next.goto.inj (hn.symm.trans hpc'')
      have hpos := List.length_pos_of_ne_nil hnew
      have hempty : claimOf z (.push pc) = [] := List.eq_nil_of_length_eq_zero (by omega)
      have hkept : claimOf z (.push pc') ≠ [] := List.ne_nil_of_length_pos (by omega)
      rw [if_neg fun hown => hown.1 hempty, if_pos ⟨hkept, by simp [hnone]⟩]
      omega
  | ret r =>
    have hnew : claims (pc.exec z flag fail q).2.2 = [] := by
      by_contra hne
      obtain ⟨pc', hpc', -⟩ := hsampled hne
      rw [hn] at hpc'
      cases hpc'
    rw [hnew, List.length_nil, Nat.zero_add]
    by_cases hown : claimOf z (.push pc) ≠ [] ∧ wakeOf pc ≠ some false
    · rw [if_pos hown]
      cases r with
      | full w =>
        rw [hn, hnew, List.map_nil, List.append_nil] at hclaim
        have hzero : (claimOf z (.push pc)).length = 0 := hclaim
        have hpos := List.length_pos_of_ne_nil hown.1
        omega
      | pushed tail wake =>
        have hwake := hret tail wake hn
        cases wake with
        | true => exact le_rfl
        | false => exact absurd hwake hown.2
    · rw [if_neg hown]
      exact Nat.zero_le _

/-- An attempt to receive that a poll makes. -/
def polled : RecvK → Bool
  | .call => false
  | .first _ | .second _ _ _ _ => true

/-- A receive uses its wake when it takes a value, or finds nothing. -/
theorem pop_uses (cfg : Config Tid) {j : RecvK} {pc : Pc V} {e : Option (Effect V)}
    {n : Next (Pc V) (QueueMachine.Ret V)}
    (haccounts : Accounts z pc e (nextRet n) (nextPc n))
    (hret : ∀ r, n = .ret r → FitsRet (.pop j) r)
    (hn : n ≠ .fault) :
    valueSupply z (.queue (.pop j) pc : AgentPc Tid V) ≤
        (takes e).length + valueSupply z ((QueueK.pop j).next cfg n).1 ∨
      polled j = true ∧ ((QueueK.pop j).next cfg n).1 = .recvState j := by
  cases j with
  | call | second id tail wait many => exact .inl (Nat.zero_le _)
  | first many =>
    have hnow : ∀ pc : Pc V, valueSupply z (.queue (.pop (.first many)) pc : AgentPc Tid V) =
        if inflight pc = [] then 1 else 0 := fun _ => rfl
    have hflight := haccounts.inflight
    rw [hnow]
    by_cases hmine : inflight pc = []
    · rw [if_pos hmine]
      by_cases htakes : takes e = []
      · rw [hmine, htakes] at hflight
        cases n with
        | fault => exact absurd rfl hn
        | goto pc' =>
          have hthen : inflight pc' = [] := hflight.symm
          change _ ≤ _ + valueSupply z (.queue (.pop (.first many)) pc' : AgentPc Tid V) ∨ _
          rw [hnow, if_pos hthen]
          exact .inl (Nat.le_add_left _ _)
        | ret r =>
          have hfits := hret r rfl
          cases hfits with
          | nothing | nothingSingle => exact .inr ⟨rfl, rfl⟩
          | popped j head v wake | poppedSingle j head v wake => cases hflight
      · have hpos := List.length_pos_of_ne_nil htakes
        left
        omega
    · rw [if_neg hmine]
      exact .inl (Nat.zero_le _)

end Owing

section Prompt

variable [DecidableEq Tid] {s s' : ChannelMachine.State Tid V} {l : ChannelMachine.Label V}
  {τ : List (Tid × ChannelMachine.Label V)}

/-- A step by which no poll finds nothing to receive beside a claimed value: a
value whose push has not published it, or that lies behind a head on its way to
the next block. -/
def Prompt (cfg : Config Tid) (s : ChannelMachine.State Tid V)
    (l : Tid × ChannelMachine.Label V) (s' : ChannelMachine.State Tid V) : Prop :=
  ChannelMachine.Step cfg s l s' ∧ ∀ k, polled k = true → s'.pc l.1 = .recvState k →
    items cfg.size s'.shared.queue = 0

/-- A prompt run is a run. -/
theorem reach_of_prompt (h : Run (Prompt cfg) (ChannelMachine.State.init Tid V) τ s) :
    ChannelMachine.Reach cfg τ s :=
  h.mono fun _ _ _ hs => hs.1

/-- The agent has looked once more after it registered, and found nothing. -/
def looked : AgentPc Tid V → Bool
  | .recvState (.second _ _ _ _) | .queue (.claimsBelow _ _ _ _) _ | .wakeSelf _ _
  | .receiving (some _) _ => true
  | _ => false

omit [DecidableEq Tid] in
theorem looked_resumes {k : Kont V} {n : Goes Tid V} (h : Resumes cfg k n) :
    looked n.1 = false := by
  induction h with
  | receivedFirst many v n _ ih => exact ih
  | _ => rfl

omit [DecidableEq Tid] in
theorem looked_wakeAll (wakers : List (Waker Tid)) (k : Kont V) :
    looked (wakeAll cfg wakers k).1 = false := by
  rcases wakeAll_cases cfg wakers k with ⟨-, hr⟩ | ⟨-, hw⟩
  · exact looked_resumes hr
  · rw [hw]
    rfl

/-- An agent that has looked did so before, or finds nothing now. -/
theorem looked_before (h : ChannelMachine.Reach cfg τ s) (hs : ChannelMachine.Step cfg s (t, l) s')
    (hopen : s'.shared.closed = false) (hl : looked (s'.pc t) = true) :
    looked (s.pc t) = true ∨ ∃ k, polled k = true ∧ s'.pc t = .recvState k := by
  have hknows := unaware_of_open h (open_before hs hopen) t
  obtain ⟨hq, hok⟩ := reach_queue h
  have hno : ∀ {n : Goes Tid V} {P : Prop}, looked n.1 = true → looked n.1 = false → P :=
    fun hyes hno => by
      rw [hno] at hyes
      cases hyes
  rcases turns hq hok hs with ⟨op, c, n, hstart, -, rfl, rfl⟩ | ⟨c, n, hact, rfl, rfl⟩ |
    ⟨side, c, n, hlocked, rfl, rfl⟩ | ⟨k, pc, fail, o, hpc, -, rfl, rfl, hend⟩ <;>
    simp only [Function.update_self] at hl ⊢
  · generalize s.pc t = pc at hstart
    cases hstart with
    | pollRecv many =>
      cases many with
      | none => cases hl
      | some limit =>
        simp only [firstPoll] at hl
        split at hl <;> cases hl
    | _ => cases hl
  · generalize s.pc t = pc at hact
    cases hact with
    | readsZero side id k n _ hr | wokeNone k n hr | wokeLast w k n hr | appends v limit n hr =>
      exact hno hl (looked_resumes hr)
    | emptySecond id tail wait many _ | wokeSelf id many => exact .inl rfl
    | _ => cases hl
  · generalize s.pc t = pc at hlocked
    cases hlocked with
    | remove side id forward k _ => exact hno hl (looked_resumes (resumes_resume k))
    | absent side id forward k _ =>
      cases forward with
      | true => cases hl
      | false => exact hno hl (looked_resumes (resumes_resume k))
    | notifyMany side limit k | notifyAll side k => exact hno hl (looked_wakeAll _ k)
    | _ => cases hl
  · rw [hpc] at hknows ⊢
    rcases hend with ⟨pc', -, hgo⟩ | ⟨r, -, -, hf⟩
    · rw [hgo] at hl
      left
      cases k <;> first | rfl | cases hl
    · generalize k.next cfg o.2.1 = n at hf hl
      cases hf with
      | sent k v tail n hr | received k r v n _ hr | batch many head values n hr
      | drainedFirst many n hr => exact hno hl (looked_resumes hr)
      | nothing k r _ =>
        cases k with
        | call | first many => cases hl
        | second id tail wait many => exact .inr ⟨_, rfl, rfl⟩
      | busySecond id tail wait many n ha => cases hknows
      | claimsBelow id tail wait many n ha | trulyEmpty id tail wait many => exact .inl rfl
      | _ => cases hl

omit [DecidableEq Tid] in
/-- An agent that has looked is registered. -/
theorem registration_of_looked {pc : AgentPc Tid V} (h : looked pc = true) :
    registration pc ≠ none := by
  cases pc with
  | recvState k =>
    cases k with
    | second id tail wait many => exact Option.some_ne_none _
    | _ => cases h
  | queue k pc =>
    cases k with
    | claimsBelow id tail wait many => exact Option.some_ne_none _
    | _ => cases h
  | wakeSelf id many => exact Option.some_ne_none _
  | receiving id many =>
    cases id with
    | some id => exact Option.some_ne_none _
    | none => cases h
  | _ => cases h

/-- While a receiver is in line, an access changes what the agent holds with the
values that are claimed and untaken, or a poll finds nothing. -/
theorem value_access (h : ChannelMachine.Reach cfg τ s) (hcount : s.shared.count .receivers ≠ 0)
    {k : QueueK V} {pc : Pc V} {o : Outcome V (Pc V) (QueueMachine.Ret V)}
    (hpc : s.pc t = .queue k pc)
    (ho : pc.exec cfg (sampledCount s.shared pc) fail s.shared.queue = some o) :
    items cfg.size o.1 + valueSupply cfg.size (s.pc t) ≤
        items cfg.size s.shared.queue + valueSupply cfg.size (k.next cfg o.2.1).1 ∨
      ∃ j, polled j = true ∧ (k.next cfg o.2.1).1 = .recvState j := by
  obtain ⟨hq, hok⟩ := reach_queue h
  obtain ⟨g, hg⟩ := QueueInvariant.reach_inv hq
  obtain ⟨g', hg', haccounts⟩ := queue_access hg hpc ho
  have hitems := items_access h hpc ho
  have hin := (hok t).inside
  rw [hpc] at hin ⊢
  by_cases hpush : ∃ pp, pc = .push pp
  · obtain ⟨pp, rfl⟩ := hpush
    rw [Pc.exec, Option.some.injEq] at ho
    subst ho
    cases hin with
    | push k v _ =>
      have hf : (pp.exec cfg.size (s.shared.count .receivers) fail s.shared.queue).2.1 ≠ .fault :=
        fun hf => hg'.sound (by simp [sampledCount, hf, Next.map])
      refine .inl ((Nat.add_le_add_right (Nat.le_of_add_right_le hitems.le) _).trans ?_)
      rw [Nat.add_assoc]
      exact Nat.add_le_add_left (push_owes hcount hf) _
  · have hclaims : claims o.2.2 = [] := by
      have hoffer : offer cfg.size pc = [] := by
        cases pc with
        | push pp => exact absurd ⟨pp, rfl⟩ hpush
        | _ => rfl
      have hsub := haccounts.offer
      rw [hoffer, List.sublist_nil, List.append_eq_nil_iff] at hsub
      exact List.map_eq_nil_iff.mp hsub.1
    rw [hclaims, List.length_nil, Nat.add_zero] at hitems
    have hother : valueSupply cfg.size (.queue k pc : AgentPc Tid V) = 0 →
        items cfg.size o.1 + valueSupply cfg.size (.queue k pc : AgentPc Tid V) ≤
          items cfg.size s.shared.queue + valueSupply cfg.size (k.next cfg o.2.1).1 := by
      intro hzero
      omega
    cases k with
    | pop j =>
      rcases pop_uses cfg haccounts (exec_fits hin ho).2 hg'.sound with huses | hnothing
      · left
        omega
      · exact .inr ⟨j, hnothing⟩
    | push k v =>
      cases hin with
      | push k v pp => exact absurd ⟨pp, rfl⟩ hpush
    | _ => exact .inl (hother rfl)

/-- A receiver that waits in line has found no claimed value left, and each value
claimed since is covered by a wake. -/
theorem served_run (h : Run (Prompt cfg) (ChannelMachine.State.init Tid V) τ s)
    (hopen : s.shared.closed = false) (hl : looked (s.pc u) = true) (hu : u ∈ line s .receivers) :
    Served cfg.size .receivers s u (items cfg.size s.shared.queue) := by
  have hall : s.shared.closed = false → ∀ u, looked (s.pc u) = true → u ∈ line s .receivers →
      Served cfg.size .receivers s u (items cfg.size s.shared.queue) := by
    refine h.invariant (P := fun _ s => s.shared.closed = false → ∀ u, looked (s.pc u) = true →
      u ∈ line s .receivers → Served cfg.size .receivers s u (items cfg.size s.shared.queue))
      (fun _ u hl => by cases hl) ?_
    rintro τ s ⟨t, l⟩ s' hrun ih ⟨hs, hprompt⟩ hopen u hl hu
    have hr := reach_of_prompt hrun
    by_cases hfinds : ∃ k, polled k = true ∧ s'.pc t = .recvState k
    · obtain ⟨k, hk, hpc'⟩ := hfinds
      rw [hprompt k hk hpc']
      exact .inl (covered_zero _)
    have hbefore : looked (s.pc u) = true := by
      by_cases hut : u = t
      · subst hut
        exact (looked_before hr hs hopen hl).resolve_right hfinds
      · rwa [step_others cfg hs hut] at hl
    have hmine : u = t → registration (s.pc t) ≠ none := fun he =>
      registration_of_looked (he ▸ hbefore)
    obtain ⟨hline, -⟩ := line_before hr hs hu hmine
    have hserved := ih (open_before hs hopen) u hbefore hline
    rcases ChannelMachine.step_cases cfg hs with ⟨op, c, n, hstart, -, -, rfl⟩ |
      ⟨k, pc, fail, o, hqueue, ho, -, rfl⟩ | ⟨fail, c, n, hexec, -, rfl⟩
    · have hout : ∀ k pc, s.pc t ≠ .queue k pc := fun k pc he => by
        rw [he] at hstart
        cases hstart
      rw [(start_arrives hstart).2.1]
      exact served_outside hr hs hopen hout hu hmine hserved
    · have hcount := listed_count hr (mem_line.mp hline)
      rcases value_access hr hcount hqueue ho with hbalance | ⟨j, hj, hnext⟩
      · refine hserved.step hr hs hu hmine ?_ ?_
        · refine held_moves hr hs ?_ fun _ => ?_
          · simpa only [supply, Function.update_self] using hbalance
          · simpa only [Function.update_self] using registration_access hr hqueue ho
        · rw [hqueue]
          exact Nat.zero_le _
      · exact absurd ⟨j, hj, by simpa only [Function.update_self] using hnext⟩ hfinds
    · have hout : ∀ k pc, s.pc t ≠ .queue k pc := fun k pc he => by
        rw [he] at hexec
        cases hexec
      rw [(exec_arrives hexec).2.1]
      exact served_outside hr hs hopen hout hu hmine hserved
  exact hall hopen u hl hu

/-- A receive wake-up is lost only through an attempt that fails beside a claimed
value. In every run in which no poll finds nothing while a claimed value is
untaken, for the shared and the exclusive receiver, in every state of an open
channel in which a receive is asleep, either no claimed value is left or somebody
owes the receivers a step, and that agent can move or its receive was woken. -/
theorem receiver_not_stranded (h : Run (Prompt cfg) (ChannelMachine.State.init Tid V) τ s)
    (hopen : s.shared.closed = false) {id : ℕ}
    (hpending : pendingOn (s.pc u) = some (.receivers, id)) (hasleep : s.shared.woken u = false) :
    items cfg.size s.shared.queue = 0 ∨
      ∃ a, Owes cfg .receivers s a ∧ (moving (s.pc a) = true ∨
        ∃ id, pendingOn (s.pc a) = some (.receivers, id) ∧ s.shared.woken a = true) := by
  have hr := reach_of_prompt h
  have hl : looked (s.pc u) = true := by
    generalize s.pc u = pc at hpending
    cases pc with
    | receiving id' many =>
      cases id' with
      | none => cases hpending
      | some id' => rfl
    | sending v id' => cases id' <;> cases hpending
    | _ => cases hpending
  by_cases hempty : items cfg.size s.shared.queue = 0
  · exact .inl hempty
  · have howed : ∃ a, Owes cfg .receivers s a := by
      rcases asleep_in_line hr hpending hasleep with hline | howes
      · exact (served_run h hopen hl hline).owes hr (Nat.pos_of_ne_zero hempty)
      · exact howes
    obtain ⟨a, ha⟩ := howed
    exact .inr ⟨a, ha, ha.awake⟩

/-- The steps of a schedule are prompt. -/
def promptly (cfg : Config Tid) :
    ChannelMachine.State Tid V → List (Tid × ChannelMachine.Choice V) → Bool
  | _, [] => true
  | s, (t, c) :: rest =>
    match s.step cfg t c with
    | none => false
    | some (_, s') =>
      (match s'.pc t with
        | .recvState k => !polled k || items cfg.size s'.shared.queue == 0
        | _ => true) && promptly cfg s' rest

/-- A schedule that executes with prompt steps is a prompt run. -/
theorem prompt_runs [Fintype Tid] {sched : List (Tid × ChannelMachine.Choice V)}
    (h : s.runs cfg sched = some (τ, s')) (hp : promptly cfg s sched = true) :
    Run (Prompt cfg) s τ s' := by
  induction sched generalizing s τ with
  | nil =>
    obtain ⟨rfl, rfl⟩ := Prod.mk.inj (Option.some.inj h)
    exact .refl
  | cons head rest ih =>
    obtain ⟨t, c⟩ := head
    simp only [ChannelMachine.State.runs] at h
    split at h
    · rename_i ha
      cases hs : s.step cfg t c with
      | none => simp [hs] at h
      | some r =>
        obtain ⟨l, m⟩ := r
        simp only [hs] at h
        simp only [promptly, hs, Bool.and_eq_true] at hp
        obtain ⟨hfinds, hrest⟩ := hp
        cases hr : m.runs cfg rest with
        | none => simp [hr] at h
        | some r' =>
          obtain ⟨τ', m'⟩ := r'
          simp only [hr, Option.some.injEq, Prod.mk.injEq] at h
          obtain ⟨rfl, rfl⟩ := h
          have hstep : ChannelMachine.Step cfg s (t, l) m := by
            refine ⟨c, hs, fun op hop => ?_⟩
            subst hop
            exact ha
          have hprompt : Prompt cfg s (t, l) m := by
            refine ⟨hstep, fun k hk hpc => ?_⟩
            change m.pc t = .recvState k at hpc
            simpa [hpc, hk] using hfinds
          exact (Run.single hprompt).append (ih hr hrest)
    · cases h

end Prompt

/-- Agent 0 waits for a message; agent 1 claims a position and pauses. -/
def waitThenPush : List (Fin 2 × ChannelMachine.Choice ℕ) :=
  (0, .call .recv) :: (0, .call .poll) :: List.replicate 13 (0, .run false) ++
  (1, .call (.trySend 7)) :: List.replicate 4 (1, .run false)

/-- In that run the receive is asleep beside a claimed value, and is owed a step. -/
theorem receiver_not_stranded_of_waitThenPush :
    ∃ (τ : List (Fin 2 × ChannelMachine.Label ℕ)) (s : ChannelMachine.State (Fin 2) ℕ),
      Run (Prompt ChannelMutex.shared) (ChannelMachine.State.init (Fin 2) ℕ) τ s ∧
        pendingOn (s.pc 0) = some (.receivers, 1) ∧ s.shared.woken 0 = false ∧
        items .small s.shared.queue = 1 ∧ ∃ a, Owes ChannelMutex.shared .receivers s a := by
  have h : ((ChannelMachine.State.init (Fin 2) ℕ).runs ChannelMutex.shared waitThenPush).map
      (fun a => (pendingOn (a.2.pc 0), a.2.shared.woken 0, a.2.shared.closed,
        items .small a.2.shared.queue)) = some (some (.receivers, 1), false, false, 1) := by
    decide +kernel
  have hprompt : promptly ChannelMutex.shared (ChannelMachine.State.init (Fin 2) ℕ)
      waitThenPush = true := by
    decide +kernel
  obtain ⟨⟨τ, s⟩, hrun, h⟩ := Option.map_eq_some_iff.mp h
  simp only [Prod.mk.injEq] at h
  obtain ⟨hpending, hwoken, hopen, hitems⟩ := h
  have hreach : Run (Prompt ChannelMutex.shared) (ChannelMachine.State.init (Fin 2) ℕ) τ s :=
    prompt_runs hrun hprompt
  refine ⟨τ, s, hreach, hpending, hwoken, hitems, ?_⟩
  rcases receiver_not_stranded hreach hopen hpending hwoken with hempty | ⟨a, ha, -⟩
  · have hone : items .small s.shared.queue = 0 := hempty
    omega
  · exact ⟨a, ha⟩

/-- An unbounded channel of full blocks, shared by five agents. -/
def crowd : Config (Fin 5) := ⟨.full, none, Config.unbounded_pos, none⟩

/-- An agent polls its receive and runs on. -/
def pollFor (t : Fin 5) (n : ℕ) : List (Fin 5 × ChannelMachine.Choice ℕ) :=
  (t, .call .poll) :: List.replicate n (t, .run false)

/-- Agents 2, 3 and 4 wait. The push of 7 claims and pauses, that of 8 wakes agent
2, which fails behind 7, registers again behind the others, fails again and pauses
before it compares the head with its snapshot. The push of 9 wakes agent 3, that
of 7 goes on and wakes agent 4, and these two take 7 and 8. Then agent 2 finds
that the values of its snapshot are gone. -/
def failBehindClaim : List (Fin 5 × ChannelMachine.Choice ℕ) :=
  (2, .call .recv) :: pollFor 2 13 ++ (3, .call .recv) :: pollFor 3 13 ++
  (4, .call .recv) :: pollFor 4 13 ++
  (0, .call (.trySend 7)) :: List.replicate 5 (0, .run false) ++
  (1, .call (.trySend 8)) :: List.replicate 11 (1, .run false) ++ pollFor 2 14 ++
  (1, .call (.trySend 9)) :: List.replicate 11 (1, .run false) ++
  List.replicate 6 (0, .run false) ++ pollFor 4 8 ++ pollFor 3 8 ++ [(2, .run false)]

/-- Without the condition the wake-up is lost: in that run the receive of agent 2
sleeps beside a message, all other agents are done and nobody owes it a step. -/
theorem receiver_stranded :
    ∃ (τ : List (Fin 5 × ChannelMachine.Label ℕ)) (s : ChannelMachine.State (Fin 5) ℕ),
      ChannelMachine.Reach crowd τ s ∧ s.shared.closed = false ∧
        pendingOn (s.pc 2) = some (.receivers, 4) ∧ s.shared.woken 2 = false ∧
        items .full s.shared.queue = 1 ∧ ∀ a, ¬Owes crowd .receivers s a := by
  have h : ((ChannelMachine.State.init (Fin 5) ℕ).runs crowd failBehindClaim).map
      (fun a => (pendingOn (a.2.pc 2), a.2.shared.closed, items .full a.2.shared.queue,
        decide (∀ t, moving (a.2.pc t) = false ∧
          ((pendingOn (a.2.pc t)).isSome = true → a.2.shared.woken t = false)))) =
      some (some (.receivers, 4), false, 1, true) := by
    decide +kernel
  obtain ⟨⟨τ, s⟩, hrun, h⟩ := Option.map_eq_some_iff.mp h
  simp only [Prod.mk.injEq, decide_eq_true_eq] at h
  obtain ⟨hpending, hopen, hitems, hrest⟩ := h
  have hasleep : s.shared.woken 2 = false := (hrest 2).2 (by rw [hpending]; rfl)
  refine ⟨τ, s, ChannelMachine.State.runs_run _ hrun, hopen, hpending, hasleep, hitems, ?_⟩
  intro a ha
  rcases ha.awake with hmoving | ⟨id, hid, hwoken⟩
  · rw [(hrest a).1] at hmoving
    cases hmoving
  · rw [(hrest a).2 (by rw [hid]; rfl)] at hwoken
    cases hwoken

end Rapidfire.ChannelParking
