import Rapidfire.ChannelClose

/-!
# The sleeping exclusive receiver

A push samples the waiter counter after its claim. A receiver that registered
before the claim is seen by the push, and a receiver that registers later waits
for the claimed value itself.
-/

namespace Rapidfire.ChannelSleeper

open Positions QueueMemory QueuePush QueueMachine QueueHistory ChannelState ChannelMachine
  ChannelQueue ChannelDrained ChannelWaiters ChannelTurns ChannelWakes ChannelSolo ChannelClose Runs

variable {Tid V : Type} {cfg : Config Tid} {t u : Tid} {z : BlockSize}

section Sampling

/-- The flag a push has sampled. -/
def wakeOf : PushPc V → Option Bool
  | .findBlock c | .findStart c _ | .slowBlock c | .slowStart c _ | .slowPrev c _
  | .takeSpare c _ | .takePool c _ | .resetMark c _ _ _ | .resetStart c _ _ | .allocate c _
  | .storePrev c _ _ | .storeNext c _ _ | .storeStart c _ _ | .linkNext c _ _
  | .storeTail c _ _ | .writeValue c _ | .publish c _ => some c.wake
  | _ => none

/-- A push samples its flag once, and returns it. -/
theorem wakeOf_exec (z : BlockSize) (flag : ℕ) (fail : Bool) (q : Queue V) (pc : PushPc V) :
    (∀ pc', (pc.exec z flag fail q).2.1 = .goto pc' →
      wakeOf pc' = wakeOf pc ∨ wakeOf pc = none ∧ wakeOf pc' = some (decide (flag ≠ 0))) ∧
    ∀ tail wake, (pc.exec z flag fail q).2.1 = .ret (.pushed tail wake) → wakeOf pc = some wake := by
  cases pc with
  | takePool c block =>
    simp only [PushPc.exec, takeBlockSlow]
    split <;> simp [wakeOf]
  | loadContended v | fetchAdd v expected | fetchAddContend v tail | casTry v tail failed
  | casLevel v tail failed | boundedCached v cap tail | boundedHead v cap tail
  | findStart c block | slowStart c block | slowPrev c block | takeSpare c block
  | resetMark c block next i =>
    simp only [PushPc.exec, found]
    (repeat' split) <;> simp [wakeOf]
  | boundedLoad v cap | boundedSkip v cap tail | boundedTry v cap tail =>
    simp only [PushPc.exec, boundedLoop]
    (repeat' split) <;> simp [wakeOf]
  | _ => simp [PushPc.exec, wakeOf]

/-- A push that claims has not sampled yet. -/
theorem wakeOf_claim {pc : PushPc V} {q : Queue V} {flag : ℕ} {fail : Bool} {p : ℕ}
    (h : p ∈ (claims (pc.exec z flag fail q).2.2).map Prod.fst) :
    ∃ pc', (pc.exec z flag fail q).2.1 = .goto pc' ∧ wakeOf pc' = none ∧ wakeOf pc = none := by
  cases pc with
  | fetchAdd v expected | casTry v tail failed | boundedTry v cap tail =>
    revert h
    simp only [PushPc.exec]
    (repeat' split) <;> simp [claims, wakeOf]
  | takePool c block =>
    revert h
    simp only [PushPc.exec, takeBlockSlow]
    split <;> simp [claims]
  | boundedSkip v cap tail | boundedHead v cap tail | casLevel v tail failed
  | slowStart c block | slowPrev c block | takeSpare c block =>
    revert h
    simp only [PushPc.exec]
    (repeat' split) <;> simp [claims]
  | _ => cases h

end Sampling

section Owing

/-- The agent has claimed the position, and has not sampled the flag or sampled
that a receiver waits. -/
def Pushing (z : BlockSize) (p : ℕ) (pc : AgentPc Tid V) : Prop :=
  ∃ k v pp, pc = .queue (.push k v) (.push pp) ∧ p ∈ claimOf z (.push pp) ∧
    wakeOf pp ≠ some false

/-- The agent has pushed a value and is about to notify a receiver. -/
def Notifying (pc : AgentPc Tid V) : Prop :=
  ∃ k, pc = .notify .receivers (some 1) (.sent k)

/-- Somebody still has to notify a receiver of the value at the position. -/
def Owed (z : BlockSize) (p : ℕ) (s : ChannelMachine.State Tid V) : Prop :=
  ∃ u, Pushing z p (s.pc u) ∨ Notifying (s.pc u)

/-- A push owes a notification of its position until it goes on to notify. -/
theorem pushing_exec {k : SendK} {v : V} {pc : PushPc V} {q : Queue V} {flag : ℕ} {fail : Bool}
    {p : ℕ} (hf : (pc.exec z flag fail q).2.1 ≠ .fault) (hflag : flag ≠ 0)
    (h : Pushing z p (.queue (.push k v) (.push pc) : AgentPc Tid V)) :
    (∃ pc', (pc.exec z flag fail q).2.1 = .goto pc' ∧
      Pushing z p (.queue (.push k v) (.push pc') : AgentPc Tid V)) ∨
      ∃ tail, (pc.exec z flag fail q).2.1 = .ret (.pushed tail true) := by
  obtain ⟨k', v', pp, heq, hp, hw⟩ := h
  obtain ⟨-, hpp⟩ := AgentPc.queue.inj heq
  obtain rfl := Pc.push.inj hpp
  have haccounts := (push_accounts hf).claim
  obtain ⟨hgoto, hret⟩ := wakeOf_exec z flag fail q pc
  have hmem := List.mem_append_left ((claims (pc.exec z flag fail q).2.2).map Prod.fst) hp
  rw [haccounts] at hmem
  cases hn : (pc.exec z flag fail q).2.1 with
  | goto pc' =>
    refine .inl ⟨pc', rfl, k, v, pc', rfl, ?_, ?_⟩
    · rw [hn] at hmem
      simpa [Next.map, nextRet, nextPc] using hmem
    · rcases hgoto pc' hn with hs | ⟨-, hs⟩
      · rwa [hs]
      · simp [hs, hflag]
  | ret r =>
    cases r with
    | pushed tail wake =>
      have hwake := hret tail wake hn
      cases wake with
      | true => exact .inr ⟨tail, rfl⟩
      | false => exact absurd hwake hw
    | full w =>
      rw [hn] at hmem
      simp [Next.map, nextRet, nextPc, acceptedRet, claimOf, QueueLocal.writes] at hmem
  | fault => exact absurd hn hf

/-- A position an access claims is owed by the push that claims it. -/
theorem pushing_claim {k : SendK} {v : V} {pc : PushPc V} {q : Queue V} {flag : ℕ} {fail : Bool}
    {p : ℕ} (hf : (pc.exec z flag fail q).2.1 ≠ .fault)
    (h : p ∈ (claims (pc.exec z flag fail q).2.2).map Prod.fst) :
    ∃ pc', (pc.exec z flag fail q).2.1 = .goto pc' ∧
      Pushing z p (.queue (.push k v) (.push pc') : AgentPc Tid V) := by
  obtain ⟨pc', hn, hw, -⟩ := wakeOf_claim h
  have hmem := List.mem_append_right (claimOf z (.push pc)) h
  rw [(push_accounts hf).claim, hn] at hmem
  refine ⟨pc', hn, k, v, pc', rfl, ?_, by simp [hw]⟩
  simpa [Next.map, nextRet, nextPc] using hmem

end Owing

section Vigil

variable [DecidableEq Tid] {s s' : ChannelMachine.State Tid V} {l : ChannelMachine.Label V}
  {τ : List (Tid × ChannelMachine.Label V)}

/-- While a receiver is registered, an access makes owed what it claims, and
leaves the agent owing what it owed. -/
theorem owed_access {g : QueueCoherence.Ghost Tid V} (hg : QueueLocal.Inv cfg (queueState s) g)
    {k : QueueK V} {pc : Pc V} (hin : Fits k pc) (hpc : s.pc t = .queue k pc) {fail : Bool}
    {o : Outcome V (Pc V) (QueueMachine.Ret V)}
    (ho : pc.exec cfg (sampledCount s.shared pc) fail s.shared.queue = some o)
    (hcount : s.shared.count .receivers ≠ 0) {p : ℕ} (hv : IsValue cfg.size p)
    (howes : s.shared.queue.tail.index ≤ p ∧ p < o.1.tail.index ∨ Pushing cfg.size p (s.pc t)) :
    Pushing cfg.size p (k.next cfg o.2.1).1 ∨ Notifying (k.next cfg o.2.1).1 := by
  obtain ⟨g', hg', -⟩ := queue_access hg hpc ho
  cases pc with
  | push pp =>
    cases hin with
    | push k v _ =>
      rw [Pc.exec, Option.some.injEq] at ho
      subst ho
      have hf : (pp.exec cfg.size (s.shared.count .receivers) fail s.shared.queue).2.1 ≠
          .fault := fun hf => hg'.sound (by simp [sampledCount, hf, Next.map])
      have hgoes : (∃ pc', (pp.exec cfg.size (s.shared.count .receivers) fail s.shared.queue).2.1 =
          .goto pc' ∧ Pushing cfg.size p (.queue (.push k v) (.push pc') : AgentPc Tid V)) ∨
          ∃ tail, (pp.exec cfg.size (s.shared.count .receivers) fail s.shared.queue).2.1 =
            .ret (.pushed tail true) := by
        rcases howes with ⟨hle, hlt⟩ | hpush
        · refine .inl (pushing_claim hf ?_)
          have hmem : p ∈ valuePositions cfg.size s.shared.queue.tail.index ++ _ :=
            hg'.records.claims ▸ mem_valuePositions.mpr ⟨hlt, hv⟩
          rcases List.mem_append.mp hmem with hmem | hmem
          · have := (mem_valuePositions.mp hmem).1
            omega
          · exact hmem
        · exact pushing_exec hf hcount (hpc ▸ hpush)
      rcases hgoes with ⟨pc', hn, hpush⟩ | ⟨tail, hn⟩
      · left
        simpa only [sampledCount, hn, Next.map, QueueK.next] using hpush
      · right
        simp only [sampledCount, hn, Next.map, QueueK.next]
        exact ⟨k, rfl⟩
  | _ =>
    rcases howes with ⟨hle, hlt⟩ | ⟨k', v, pp, hpush, -⟩
    · rw [exec_tail ho (by simp)] at hlt
      omega
    · rw [hpc] at hpush
      cases hpush

/-- While a receiver is registered, a step other than a notification leaves owed
what was owed, and makes owed what it claims. -/
theorem owed_step (h : ChannelMachine.Reach cfg τ s) (hs : ChannelMachine.Step cfg s (t, l) s')
    (hcount : s.shared.count .receivers ≠ 0) {p : ℕ} (hv : IsValue cfg.size p)
    (hp : p < s'.shared.queue.tail.index)
    (ho : s.shared.queue.tail.index ≤ p ∨ Owed cfg.size p s) :
    Owed cfg.size p s' ∨ Notifying (s.pc t) := by
  obtain ⟨hq, hok⟩ := reach_queue h
  obtain ⟨g, hg⟩ := QueueInvariant.reach_inv hq
  have hstays : (Pushing cfg.size p (s.pc t) → Owed cfg.size p s') →
      Owed cfg.size p s → Owed cfg.size p s' ∨ Notifying (s.pc t) := by
    rintro hmine ⟨u, howes⟩
    by_cases hu : u = t
    · subst hu
      exact howes.imp hmine id
    · exact .inl ⟨u, by rwa [step_others cfg hs hu]⟩
  have hquiet : s'.shared.queue = s.shared.queue → (∀ k pc, s.pc t ≠ .queue k pc) →
      Owed cfg.size p s' ∨ Notifying (s.pc t) := by
    intro hqueue hne
    rcases ho with hle | ho
    · rw [hqueue] at hp
      omega
    · exact hstays (fun ⟨k, v, pp, hpc, _⟩ => absurd hpc (hne _ _)) ho
  rcases turns hq hok hs with ⟨op, c, n, hstart, -, -, rfl⟩ | ⟨c, n, hact, -, rfl⟩ |
    ⟨side, c, n, hlocked, -, rfl⟩ | ⟨k, pc, fail, o, hpc, ho', -, rfl, hend⟩
  · refine hquiet (start_arrives hstart).2.1 fun k pc hpc => ?_
    rw [hpc] at hstart
    cases hstart
  · refine hquiet hact.queue fun k pc hpc => ?_
    rw [hpc] at hact
    cases hact
  · refine hquiet (queue_of_locked hlocked).1 fun k pc hpc => ?_
    rw [hpc] at hlocked
    cases hlocked
  · have hin := (hok t).inside
    rw [hpc] at hin
    have hmine : s.shared.queue.tail.index ≤ p ∨ Pushing cfg.size p (s.pc t) →
        Owed cfg.size p ⟨{ s.shared with queue := o.1 },
          Function.update s.pc t (k.next cfg o.2.1).1⟩ := by
      intro hm
      refine ⟨t, ?_⟩
      simp only [Function.update_self]
      exact owed_access hg hin hpc ho' hcount hv (hm.imp (fun hle => ⟨hle, hp⟩) id)
    rcases ho with hle | ho
    · exact .inl (hmine (.inl hle))
    · exact hstays (fun hm => hmine (.inr hm)) ho

/-- An agent comes to wait for a value by a poll that returns `Pending`. -/
theorem parked_step (h : ChannelMachine.Reach cfg τ s) (hs : ChannelMachine.Step cfg s (t, l) s')
    {id : ℕ} {many : Option ℕ} (hpc' : s'.pc t = .receiving (some id) many) :
    polling (s.pc t) = true ∧ l.ret = some .pending := by
  obtain ⟨hq, hok⟩ := reach_queue h
  have hresumes : ∀ {k : Kont V} {n : Goes Tid V}, Resumes cfg k n →
      n.1 ≠ .receiving (some id) many := by
    intro k n hr
    induction hr with
    | receivedFirst many v n _ ih => exact ih
    | _ => simp [enter]
  have hwaking : ∀ {wakers : List (Waker Tid)} {k : Kont V},
      (wakeAll cfg wakers k).1 ≠ .receiving (some id) many := by
    intro wakers k
    rcases wakeAll_cases cfg wakers k with ⟨-, hr⟩ | ⟨-, hw⟩
    · exact hresumes hr
    · simp [hw]
  rcases turns hq hok hs with ⟨op, c, n, hstart, -, rfl, rfl⟩ | ⟨c, n, hact, rfl, rfl⟩ |
    ⟨side, c, n, hlocked, rfl, rfl⟩ | ⟨k, pc, fail, o, hpc, ho, rfl, rfl, hend⟩ <;>
    simp only [Function.update_self] at hpc' ⊢
  · generalize s.pc t = pc at hstart
    cases hstart with
    | pollRecv many =>
      cases many with
      | none => cases hpc'
      | some limit =>
        simp only [firstPoll] at hpc'
        split at hpc' <;> cases hpc'
    | _ => cases hpc'
  · generalize s.pc t = pc at hact
    cases hact with
    | readsZero side id' k n _ hr | wokeNone k n hr | wokeLast w k n hr | appends v limit n hr =>
      exact absurd hpc' (hresumes hr)
    | wokeSelf id' many' => exact ⟨rfl, rfl⟩
    | recvClosed k _ => cases hpc'
    | _ => cases hpc'
  · generalize s.pc t = pc at hlocked
    cases hlocked with
    | remove side id' forward k _ => exact absurd hpc' (hresumes (resumes_resume k))
    | absent side id' forward k _ =>
      cases forward with
      | false => exact absurd hpc' (hresumes (resumes_resume k))
      | true => cases hpc'
    | notifyMany side limit k | notifyAll side k => exact absurd hpc' hwaking
    | _ => cases hpc'
  · rw [hpc]
    rcases hend with ⟨pc', -, hgo⟩ | ⟨r, -, -, hf⟩
    · rw [hgo] at hpc'
      cases hpc'
    · generalize k.next cfg o.2.1 = n at hf hpc'
      cases hf with
      | received k r v n _ hr | drainedFirst many n hr | batch many head values n hr
      | sent k v tail n hr => exact absurd hpc' (hresumes hr)
      | busySecond id' tail wait many' n ha | claimsBelow id' tail wait many' n ha =>
        cases ha <;> cases hpc'
      | trulyEmpty id' tail wait many' => exact ⟨rfl, rfl⟩
      | _ => cases hpc'

omit [DecidableEq Tid] in
theorem polling_of_snapshot {pc : AgentPc Tid V} {tail : ℕ} (h : snapshot pc = some tail) :
    polling pc = true := by
  unfold snapshot at h
  split at h <;> first | rfl | cases h

/-- A registered future is one of the list's side. -/
theorem side_of_registration (h : ChannelMachine.Reach cfg τ s) {side : Side} {id : ℕ}
    (hr : registration (s.pc t) = some (side, id)) : (s.pc t).side = some side := by
  have htame := tame_run h t
  generalize s.pc t = pc at hr htame
  have hkont : ∀ {k : Kont V}, Kont.registration k = some (side, id) → k.side = some side := by
    intro k hk
    cases k with
    | sent k | received k v =>
      cases k <;> cases hk
      rfl
    | _ => cases hk
  cases pc with
  | sending v id' | receiving id' many =>
    cases id' <;> cases hr
    rfl
  | queue k pc =>
    cases k with
    | push k v | pop k | isEmpty k =>
      cases k <;> cases hr
      rfl
    | parkSender id' v | parkReceiver id' many | claimsBelow id' tail wait many =>
      cases hr
      rfl
    | _ => cases hr
  | trySend k v | recvState k =>
    cases k <;> cases hr
    rfl
  | unregister side' id' k =>
    cases hr
    cases k with
    | sendFirst v | recvFirst many | sendReady r | recvReady v many =>
      cases side <;> first | rfl | cases htame
    | _ => cases side <;> cases htame
  | unregisterLocked side' id' forward k =>
    cases hr
    cases forward <;> cases k with
    | sendFirst v | recvFirst many | sendReady r | recvReady v many | dropped side' =>
      cases side <;> first | rfl | (cases side' <;> first | rfl | cases htame) | cases htame
    | _ => cases side <;> cases htame
  | notify side' limit k | waking wakers k => exact hkont hr
  | wakeSelf id' many =>
    cases hr
    rfl
  | _ => cases hr

/-- Only the exclusive receiver waits for values, with one entry. -/
theorem exclusive_list (h : ChannelMachine.Reach cfg τ s) {c : Tid} (hx : cfg.exclusive = some c) :
    (s.shared.list .receivers).length ≤ 1 := by
  have hlisting := listing_run h .receivers
  have howner : ∀ e ∈ s.shared.list .receivers,
      registration (s.pc c) = some (.receivers, e.id) := by
    intro e he
    have hreg := (hlisting.owner e he).1
    have hside := side_of_registration h hreg
    have hagent := (((reach_queue h).2 e.waker.agent).role.1 hside) c hx
    rwa [hagent] at hreg
  cases hlist : s.shared.list .receivers with
  | nil => simp
  | cons e rest =>
    cases rest with
    | nil => simp
    | cons e' rest =>
      have hids := hlisting.ids
      rw [hlist] at hids howner
      have he := howner e (by simp)
      have he' := howner e' (by simp)
      rw [he] at he'
      have hid : e.id = e'.id := by simpa using he'
      simp [hid] at hids

/-- A push that notifies empties the list of an exclusive receiver. -/
theorem notifying_step (h : ChannelMachine.Reach cfg τ s)
    (hs : ChannelMachine.Step cfg s (t, l) s') {c : Tid} (hx : cfg.exclusive = some c)
    (hn : Notifying (s.pc t)) : ¬Listed s' .receivers u := by
  rintro ⟨e, he, -⟩
  obtain ⟨k, hpc⟩ := hn
  obtain ⟨c', n, hlocked, -, rfl⟩ := locked_step hs (show lockOf (s.pc t) = some .receivers by rw [hpc]; rfl)
  rw [hpc] at hlocked
  cases hlocked with
  | notifyMany side limit k =>
    have hle := exclusive_list h hx
    simp only [Shared.notifyMany, Shared.setList, Function.update_self] at he
    rw [List.drop_eq_nil_of_le (by omega)] at he
    cases he

/-- Beside the exclusive receiver nobody moves the head. -/
theorem head_step (h : ChannelMachine.Reach cfg τ s) (hs : ChannelMachine.Step cfg s (t, l) s')
    {c : Tid} (hx : cfg.exclusive = some c) (ht : t ≠ c) :
    s'.shared.queue.head = s.shared.queue.head := by
  obtain ⟨hq, hok⟩ := reach_queue h
  rcases turns hq hok hs with ⟨op, c, n, hstart, -, -, rfl⟩ | ⟨c, n, hact, -, rfl⟩ |
    ⟨side, c, n, hlocked, -, rfl⟩ | ⟨k, pc, fail, o, hpc, ho, -, rfl, -⟩
  · exact congrArg Queue.head (start_arrives hstart).2.1
  · exact congrArg Queue.head hact.queue
  · exact congrArg Queue.head (queue_of_locked hlocked).1
  · have hin := (hok t).inside
    have hrole := (hok t).role.1
    rw [hpc] at hin hrole
    have hreceives : ∀ {P : Prop}, k.side = some .receivers → P :=
      fun hk => absurd (hrole hk c hx) ht
    cases pc with
    | push pp =>
      rw [Pc.exec, Option.some.injEq] at ho
      subst ho
      exact QueuePairing.push_head
    | read pc =>
      rw [Pc.exec, Option.some.injEq] at ho
      subst ho
      cases pc <;> rfl
    | pop pc | single pc => cases hin <;> exact hreceives rfl
    | idle | fault => cases ho

/-- From where on the receiver has seen no claimed value. -/
def horizon (q : Queue V) : AgentPc Tid V → Option ℕ
  | .receiving (some _) _ => some q.head.index
  | pc => snapshot pc

/-- While the receiver is listed and not woken, every value claimed from its
horizon on is owed to it. -/
def Vigil (cfg : Config Tid) (c : Tid) (s : ChannelMachine.State Tid V) : Prop :=
  ∀ B, horizon s.shared.queue (s.pc c) = some B →
    (snapshot (s.pc c) = none → s.shared.woken c = false) → Listed s .receivers c →
      ∀ p, IsValue cfg.size p → B ≤ p → p < s.shared.queue.tail.index → Owed cfg.size p s

theorem listed_count (h : ChannelMachine.Reach cfg τ s) {side : Side} (hl : Listed s side u) :
    s.shared.count side ≠ 0 := by
  obtain ⟨e, he, -⟩ := hl
  rw [(listing_run h side).count]
  exact Nat.ne_of_gt (List.length_pos_of_mem he)

/-- The steps of the others keep the vigil. -/
theorem vigil_others (h : ChannelMachine.Reach cfg τ s) (hs : ChannelMachine.Step cfg s (t, l) s')
    {c : Tid} (hx : cfg.exclusive = some c) (ht : c ≠ t) (ih : Vigil cfg c s) : Vigil cfg c s' := by
  intro B hB hwoken hl p hv hle hlt
  have hpc := step_others cfg hs ht
  have hlisted := listed_before hs h hl fun he => absurd he ht
  rw [hpc] at hB hwoken
  have hB₀ : horizon s.shared.queue (s.pc c) = some B := by
    rw [← hB]
    unfold horizon
    rw [head_step h hs hx (Ne.symm ht)]
  have hwoken₀ : snapshot (s.pc c) = none → s.shared.woken c = false := by
    intro hn
    rw [← Bool.not_eq_true]
    intro hw
    rw [woken_step h hs (fun he => absurd he ht) hw] at hwoken
    cases hwoken hn
  have howed : s.shared.queue.tail.index ≤ p ∨ Owed cfg.size p s := by
    rcases Nat.lt_or_ge p s.shared.queue.tail.index with hp | hp
    · exact .inr (ih B hB₀ hwoken₀ hlisted p hv hle hp)
    · exact .inl hp
  rcases owed_step h hs (listed_count h hlisted) hv hlt howed with ho | hn
  · exact ho
  · exact absurd hl (notifying_step h hs hx hn)

omit [DecidableEq Tid] in
theorem registration_of_snapshot {pc : AgentPc Tid V} {tail : ℕ} (h : snapshot pc = some tail) :
    registration pc ≠ none := by
  unfold snapshot at h
  split at h
  case h_5 => cases h
  all_goals simp [registration, QueueK.registration, RecvK.registration]

omit [DecidableEq Tid] in
theorem snapshot_of_notifying {pc : AgentPc Tid V} (h : Notifying pc) : snapshot pc = none := by
  obtain ⟨k, rfl⟩ := h
  rfl

/-- The receiver's own steps keep the vigil: it waits only after it has seen every
position below the tail it noted taken. -/
theorem vigil_own (h : ChannelMachine.Reach cfg τ s) (hs : ChannelMachine.Step cfg s (t, l) s')
    (ih : Vigil cfg t s) : Vigil cfg t s' := by
  intro B hB hwoken hl p hv hle hlt
  have hnoted : ∀ tail, snapshot (s.pc t) = some tail → tail ≤ p → Owed cfg.size p s' := by
    intro tail hn htail
    have hlisted := listed_before hs h hl fun _ => registration_of_snapshot hn
    have hp : p < s.shared.queue.tail.index := by
      rwa [← tail_step h hs (polling_of_snapshot hn)]
    have hB₀ : horizon s.shared.queue (s.pc t) = some tail := by
      unfold horizon
      split
      · rename_i id many hpc
        rw [hpc] at hn
        cases hn
      · exact hn
    have howed := ih tail hB₀ (fun hnone => by rw [hn] at hnone; cases hnone) hlisted p hv htail hp
    rcases owed_step h hs (listed_count h hlisted) hv hlt (.inr howed) with ho | hnotify
    · exact ho
    · rw [snapshot_of_notifying hnotify] at hn
      cases hn
  cases hsnap : snapshot (s'.pc t) with
  | some tail =>
    have hBt : B = tail := by
      unfold horizon at hB
      split at hB
      · rename_i id many hpc
        rw [hpc] at hsnap
        cases hsnap
      · exact Option.some.inj (hB.symm.trans hsnap)
    rcases snapshot_step h hs hsnap with hn | hn
    · exact hnoted tail hn (hBt ▸ hle)
    · omega
  | none =>
    obtain ⟨id, many, hpc'⟩ : ∃ id many, s'.pc t = .receiving (some id) many := by
      unfold horizon at hB
      split at hB
      · rename_i id many hpc
        exact ⟨id, many, hpc⟩
      · rw [hsnap] at hB
        cases hB
    have hhead : s'.shared.queue.head.index = B := by
      rw [hpc'] at hB
      exact Option.some.inj hB
    obtain ⟨hpolling, hret⟩ := parked_step h hs hpc'
    rcases pending_step h hs hpolling hret with hw | ⟨tail, hn, hitems, hqueue⟩
    · rw [hw] at hwoken
      cases hwoken hsnap
    · refine hnoted tail hn ?_
      by_contra hlow
      rw [hqueue] at hhead
      exact itemsBetween_eq_zero_iff.mp hitems p (by omega) (by omega) hv

/-- In every run, what is claimed beyond the horizon of the listed receiver is
owed to it. -/
theorem vigil_run (h : ChannelMachine.Reach cfg τ s) {c : Tid} (hx : cfg.exclusive = some c) :
    Vigil cfg c s := by
  refine h.invariant (P := fun _ s => Vigil cfg c s) ?_ ?_
  · intro B hB
    cases hB
  · rintro τ s ⟨t, l⟩ s' hr ih hs
    by_cases ht : c = t
    · subst ht
      exact vigil_own hr hs ih
    · exact vigil_others hr hs hx ht ih

end Vigil

section Claim

/-- The agent still has to notify a receiver: its push sampled that one waits, or
it closes the channel. -/
def rouses : AgentPc Tid V → Bool
  | .queue (.push _ _) (.push pp) => decide (wakeOf pp = some true)
  | .notify .receivers (some 1) (.sent _) | .notify .receivers none (.closeSenders _) => true
  | _ => false

/-- The agent's push has claimed a position and not sampled the flag. -/
def unsampled (z : BlockSize) : AgentPc Tid V → Bool
  | .queue (.push _ _) (.push pp) => !(claimOf z (.push pp)).isEmpty && decide (wakeOf pp = none)
  | _ => false

/-- Some push or close took out the entry of the agent and is about to invoke
its waker. -/
def Delivers (s : ChannelMachine.State Tid V) (u : Tid) : Prop :=
  ∃ a wakers k, s.pc a = .waking wakers k ∧ s.shared.waker u ∈ wakers ∧
    ((∃ j, k = .sent j) ∨ ∃ who, k = .closeSenders who)

theorem rouses_or_unsampled {p : ℕ} {pc : AgentPc Tid V} (h : Pushing z p pc ∨ Notifying pc) :
    rouses pc = true ∨ unsampled z pc = true := by
  rcases h with ⟨k, v, pp, rfl, hp, hw⟩ | ⟨k, rfl⟩
  · cases hwake : wakeOf pp with
    | none => exact .inr (by simp [unsampled, hwake, List.ne_nil_of_mem hp])
    | some wake =>
      cases wake with
      | true => exact .inl (by simp [rouses, hwake])
      | false => exact absurd hwake hw
  · exact .inl rfl

variable [DecidableEq Tid] {s : ChannelMachine.State Tid V}
  {τ : List (Tid × ChannelMachine.Label V)}

/-- Wakes of the exclusive receiver are delivered by pushes and closes. -/
theorem delivers_of_inFlight (h : ChannelMachine.Reach cfg τ s) {c : Tid}
    (hx : cfg.exclusive = some c) (hpc : moving (s.pc c) = false) (hf : InFlight s .receivers c) :
    Delivers s c := by
  obtain ⟨a, wakers, k, ha, hmem, hk⟩ := hf
  have hside : k.side ≠ some .receivers := by
    intro hside
    have hac : a = c := ((reach_queue h).2 a).role.1 (by rw [ha]; exact hside) c hx
    rw [← hac, ha] at hpc
    cases hpc
  refine ⟨a, wakers, k, ha, hmem, ?_⟩
  cases k with
  | sent k => exact .inl ⟨k, rfl⟩
  | closeSenders who => exact .inr ⟨who, rfl⟩
  | recvReady v many => exact absurd rfl hside
  | dropped side =>
    cases side with
    | receivers => exact absurd rfl hside
    | senders => cases hk
  | _ => cases hk

/-- While the exclusive receiver is asleep and a claimed value waits, its entry is
in the list and some push will notify it or has not sampled the flag, or its
waker is about to be invoked; so some agent has a step to take. -/
theorem asleep_is_owed (h : ChannelMachine.Reach cfg τ s) {c : Tid}
    (hx : cfg.exclusive = some c) {id : ℕ} (hpending : pendingOn (s.pc c) = some (.receivers, id))
    (hasleep : s.shared.woken c = false) (hu : Untaken cfg.size s.shared.queue) :
    (Listed s .receivers c ∧ ∃ u, rouses (s.pc u) = true ∨ unsampled cfg.size (s.pc u) = true) ∨
      Delivers s c := by
  obtain ⟨p, hv, hle, hlt⟩ := hu
  obtain ⟨-, hawaiting⟩ := exposed_of_pendingOn hpending
  obtain ⟨many, hpc⟩ : ∃ many, s.pc c = .receiving (some id) many := by
    generalize s.pc c = pc at hpending
    cases pc with
    | receiving id' many =>
      cases id' <;> cases hpending
      exact ⟨many, rfl⟩
    | sending v id' => cases id' <;> cases hpending
    | _ => cases hpending
  rcases held_run h hawaiting with hl | hw | hf
  · have howed := vigil_run h hx s.shared.queue.head.index (by rw [hpc]; rfl) (fun _ => hasleep) hl
      p hv hle hlt
    obtain ⟨u, howes⟩ := howed
    exact .inl ⟨hl, u, rouses_or_unsampled howes⟩
  · rw [hw] at hasleep
    cases hasleep
  · exact .inr (delivers_of_inFlight h hx (by rw [hpc]; rfl) hf)

omit [DecidableEq Tid] in
theorem moving_of_rouses {pc : AgentPc Tid V} (h : rouses pc = true ∨ unsampled z pc = true) :
    moving pc = true := by
  cases pc <;> first | rfl | simp [rouses, unsampled] at h

/-- The exclusive receiver never misses a message while asleep: while its future
is pending and not woken and a claimed value is not taken, its entry is in the
list and some push or close will still notify it, or some push has claimed and
not sampled the flag; or a push or close is about to invoke its waker. In
particular some agent is in the middle of an operation. -/
theorem exclusive_never_misses (h : ChannelMachine.Reach cfg τ s) {c : Tid}
    (hx : cfg.exclusive = some c) {id : ℕ} (hpending : pendingOn (s.pc c) = some (.receivers, id))
    (hasleep : s.shared.woken c = false) (hu : Untaken cfg.size s.shared.queue) :
    ((Listed s .receivers c ∧ ∃ u, rouses (s.pc u) = true ∨ unsampled cfg.size (s.pc u) = true) ∨
      Delivers s c) ∧ ∃ u, moving (s.pc u) = true := by
  have howed := asleep_is_owed h hx hpending hasleep hu
  refine ⟨howed, ?_⟩
  rcases howed with ⟨-, u, hu⟩ | ⟨a, wakers, k, ha, -⟩
  · exact ⟨u, moving_of_rouses hu⟩
  · exact ⟨a, by rw [ha]; rfl⟩

/-- The receiver, agent 1, waits; agent 0 claims a position and pauses. -/
def waitThenClaim : List (Fin 2 × ChannelMachine.Choice ℕ) :=
  (1, .call .recv) :: (1, .call .poll) :: List.replicate 11 (1, .run false) ++
  (0, .call (.trySend 7)) :: List.replicate 4 (0, .run false)

theorem waitThenClaim_runs :
    ∃ (τ : List (Fin 2 × ChannelMachine.Label ℕ)) (s : ChannelMachine.State (Fin 2) ℕ),
      ChannelMachine.Reach ChannelDrained.exclusive τ s ∧
        pendingOn (s.pc 1) = some (.receivers, 1) ∧ s.shared.woken 1 = false ∧
        Untaken .small s.shared.queue ∧ unsampled .small (s.pc 0) = true ∧
        rouses (s.pc 0) = false ∧ rouses (s.pc 1) = false := by
  have h : ((ChannelMachine.State.init (Fin 2) ℕ).runs ChannelDrained.exclusive waitThenClaim).map
      (fun a => (pendingOn (a.2.pc 1), a.2.shared.woken 1,
        (a.2.shared.queue.head.index, a.2.shared.queue.tail.index),
        unsampled .small (a.2.pc 0), rouses (a.2.pc 0), rouses (a.2.pc 1))) =
      some (some (.receivers, 1), false, (0, 1), true, false, false) := by
    decide +kernel
  obtain ⟨⟨τ, s⟩, hrun, h⟩ := Option.map_eq_some_iff.mp h
  simp only [Prod.mk.injEq] at h
  obtain ⟨hpending, hwoken, ⟨hhead, htail⟩, hunsampled, hzero, hone⟩ := h
  refine ⟨τ, s, ChannelMachine.State.runs_run _ hrun, hpending, hwoken, ⟨0, by decide, ?_, ?_⟩,
    hunsampled, hzero, hone⟩
  · omega
  · omega

/-- A push that has claimed and not sampled the flag: the receiver sleeps, a
claimed value waits, and nobody has sampled that the receiver waits. -/
theorem claimed_before_sample :
    ∃ (τ : List (Fin 2 × ChannelMachine.Label ℕ)) (s : ChannelMachine.State (Fin 2) ℕ),
      ChannelMachine.Reach ChannelDrained.exclusive τ s ∧
        pendingOn (s.pc 1) = some (.receivers, 1) ∧ s.shared.woken 1 = false ∧
        Untaken .small s.shared.queue ∧
        ¬((Listed s .receivers 1 ∧ ∃ u, rouses (s.pc u) = true) ∨ Delivers s 1) := by
  obtain ⟨τ, s, h, hpending, hwoken, hu, hunsampled, hzero, hone⟩ := waitThenClaim_runs
  refine ⟨τ, s, h, hpending, hwoken, hu, ?_⟩
  rintro (⟨-, u, hrouses⟩ | ⟨a, wakers, k, ha, -⟩)
  · match u with
    | 0 => exact absurd hrouses (by simp [hzero])
    | 1 => exact absurd hrouses (by simp [hone])
  · match a with
    | 0 =>
      rw [ha] at hunsampled
      cases hunsampled
    | 1 =>
      rw [ha] at hpending
      cases hpending

/-- In that run the push that claimed is the one that still owes a notification. -/
theorem exclusive_never_misses_of_waitThenClaim :
    ∃ (τ : List (Fin 2 × ChannelMachine.Label ℕ)) (s : ChannelMachine.State (Fin 2) ℕ),
      ChannelMachine.Reach ChannelDrained.exclusive τ s ∧ ∃ u, moving (s.pc u) = true := by
  obtain ⟨τ, s, h, hpending, hwoken, hu, -⟩ := waitThenClaim_runs
  exact ⟨τ, s, h, (exclusive_never_misses h rfl hpending hwoken hu).2⟩

end Claim

end Rapidfire.ChannelSleeper
