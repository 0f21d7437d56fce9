import Rapidfire.Balance
import Rapidfire.QueueAlone
import Rapidfire.ChannelSleeper

/-!
# Wakes and what they stand for

A wake stands for a free slot or for a message. The agent that made room, or
brought the message, owes it to the waiters; the waiter whose entry was taken
out holds it, until an attempt of its next poll uses it or it is handed on. A
waiter is served while the wakes that are held cover what it waits for.
-/

namespace Rapidfire.ChannelBalance

open Positions QueueMemory QueuePush QueuePop QueueSingle QueueMachine QueueHistory QueueAlone
  ChannelState ChannelMachine ChannelQueue ChannelWaiters ChannelTurns ChannelWakes ChannelClose
  ChannelSleeper Runs Balance

variable {Tid V : Type} {cfg : Config Tid} {t u : Tid} {side : Side}

section Holding

/-- The flag a pop has sampled. -/
def popWake : PopPc V → Bool
  | .readValue k | .markRead k _ | .loadNext k _ | .storeBlock k _ _ | .swapIndex k _
  | .readersDone k _ _ | .retire k _ | .resetMark k _ _ | .resetStart k _ | .recycleSpare k _
  | .recyclePool k _ => k.wake
  | _ => false

/-- The number of senders to notify that an exclusive receive has sampled. -/
def singleWake : SinglePc V → ℕ
  | .leave batch (.resetStart _ wake) | .leave batch (.recycleSpare _ wake)
  | .leave batch (.recyclePool _ wake) => if batch then wake else min wake 1
  | _ => 0

/-- The number of senders to notify that a receive has sampled. -/
def sampledWakes : Pc V → ℕ
  | .pop pc => (popWake pc).toNat
  | .single pc => singleWake pc
  | _ => 0

/-- Slots a receive has freed and not yet sampled for. -/
def unsampledSlots : Pc V → ℕ
  | .pop (.sample _ _) => 1
  | .single (.leave _ (.sample r)) => r.values.length
  | _ => 0

/-- Wakes of the senders at a program point: a first attempt that has not
claimed a slot may use one, and a receive owes those of the slots it freed. -/
def slotSupply (z : BlockSize) : AgentPc Tid V → ℕ
  | .trySend .first _ => 1
  | .queue (.push .first _) (.push pc) => if claimOf z (.push pc) = [] then 1 else 0
  | .queue _ pc => sampledWakes pc + unsampledSlots pc
  | .notify .senders (some limit) _ => limit
  | _ => 0

/-- Wakes of the receivers at a program point: a first attempt that has not taken
a value may use one, and a push owes that of the value it claimed a slot for. -/
def valueSupply (z : BlockSize) : AgentPc Tid V → ℕ
  | .queue (.pop (.first _)) pc => if inflight pc = [] then 1 else 0
  | .queue (.push _ _) (.push pc) =>
    if claimOf z (.push pc) ≠ [] ∧ wakeOf pc ≠ some false then 1 else 0
  | .notify .receivers (some limit) _ => limit
  | _ => 0

/-- Wakes of a side that an agent may use, or owes, at its program point. -/
def supply (z : BlockSize) : Side → AgentPc Tid V → ℕ
  | .senders => slotSupply z
  | .receivers => valueSupply z

/-- Entries of a list that an agent is about to take out. -/
def promises : Side → AgentPc Tid V → ℕ
  | .senders, .queue _ pc => sampledWakes pc
  | .senders, .notify .senders (some limit) _ => limit
  | .receivers, .notify .receivers (some limit) _ => limit
  | _, _ => 0

/-- The agent's future is registered on this side. -/
def enrolled (side : Side) (pc : AgentPc Tid V) : Bool :=
  (registration pc).any fun r => r.1 = side

/-- The agents whose futures wait in a list, in its order. -/
def line (s : ChannelMachine.State Tid V) (side : Side) : List Tid :=
  (s.shared.list side).map fun e => e.waker.agent

variable [DecidableEq Tid]

/-- Wakes of a side that an agent holds: what its program point tells, and one
for an entry of its future that was taken out. -/
def held (z : BlockSize) (side : Side) (s : ChannelMachine.State Tid V) (u : Tid) : ℕ :=
  supply z side (s.pc u) + if enrolled side (s.pc u) = true ∧ u ∉ line s side then 1 else 0

/-- The wakes that are held cover an amount, or somebody is about to take out the
entry of the agent together with all before it. -/
def Served (z : BlockSize) (side : Side) (s : ChannelMachine.State Tid V) (u : Tid) (n : ℕ) :
    Prop :=
  Covered n (held z side s) ∨ ∃ a, (line s side).idxOf u < promises side (s.pc a)

end Holding

section Line

variable [DecidableEq Tid] {s s' : ChannelMachine.State Tid V} {l : ChannelMachine.Label V}
  {τ : List (Tid × ChannelMachine.Label V)}

omit [DecidableEq Tid] in
theorem enrolled_iff {pc : AgentPc Tid V} :
    enrolled side pc = true ↔ ∃ id, registration pc = some (side, id) := by
  unfold enrolled
  cases h : registration pc with
  | none => simp
  | some r =>
    obtain ⟨other, id⟩ := r
    simp

omit [DecidableEq Tid] in
theorem mem_line : u ∈ line s side ↔ Listed s side u := List.mem_map

/-- The agents of a list are registered. -/
theorem enrolled_of_line (h : ChannelMachine.Reach cfg τ s) (hu : u ∈ line s side) :
    enrolled side (s.pc u) = true := by
  obtain ⟨e, he, rfl⟩ := mem_line.mp hu
  exact enrolled_iff.mpr ⟨e.id, ((listing_run h side).owner e he).1⟩

/-- No agent waits twice in a list. -/
theorem line_nodup (h : ChannelMachine.Reach cfg τ s) (side : Side) : (line s side).Nodup := by
  have hlisting := listing_run h side
  have hids : (s.shared.list side).map Waiter.id =
      (line s side).map fun a => ((registration (s.pc a)).map Prod.snd).getD 0 := by
    rw [line, List.map_map]
    refine List.map_congr_left fun e he => ?_
    simp [(hlisting.owner e he).1]
  have hnodup := hlisting.ids
  rw [hids] at hnodup
  exact hnodup.of_map _

/-- An entry whose id is registered belongs to the agent that registered it. -/
theorem line_of_parked (h : ChannelMachine.Reach cfg τ s) {id : ℕ}
    (hr : registration (s.pc t) = some (side, id)) (hp : s.shared.parked side id = true) :
    t ∈ line s side := by
  obtain ⟨e, he, hid⟩ := List.any_eq_true.mp hp
  have hid' : e.id = id := by simpa using hid
  have howner := ((listing_run h side).owner e he).1
  rw [hid'] at howner
  exact mem_line.mpr ⟨e, he, (enrolled_run h).unique _ _ _ _ _ howner hr⟩

/-- In a part of a list without repetitions an element stands no further back. -/
theorem idxOf_le_of_sublist {l l' : List Tid} (hsub : l'.Sublist l) (hl : l.Nodup) (hu : u ∈ l') :
    l'.idxOf u ≤ l.idxOf u := by
  induction hsub with
  | slnil => cases hu
  | cons a hsub ih =>
    obtain ⟨ha, hl⟩ := List.nodup_cons.mp hl
    have hne : a ≠ u := fun he => ha (he ▸ hsub.subset hu)
    rw [List.idxOf_cons_ne _ hne]
    exact (ih hl hu).trans (Nat.le_succ _)
  | cons_cons a hsub ih =>
    obtain ⟨ha, hl⟩ := List.nodup_cons.mp hl
    by_cases he : a = u
    · rw [he, List.idxOf_cons_self]
      exact Nat.zero_le _
    · rw [List.idxOf_cons_ne _ he, List.idxOf_cons_ne _ he]
      have hmem := (List.mem_cons.mp hu).resolve_left (Ne.symm he)
      exact Nat.succ_le_succ (ih hl hmem)

/-- A step adds its agent at the end of a list when it registers, and otherwise
only takes entries out. -/
theorem line_step (h : ChannelMachine.Reach cfg τ s) (hs : ChannelMachine.Step cfg s (t, l) s')
    (side : Side) : line s' side = line s side ++ [t] ∧ registration (s.pc t) = none ∨
      (line s' side).Sublist (line s side) := by
  have hsame : s'.shared.list side = s.shared.list side → (line s' side).Sublist (line s side) :=
    fun hlist => by rw [line, line, hlist]
  cases hlock : lockOf (s.pc t) with
  | none =>
    obtain ⟨hq, hok⟩ := reach_queue h
    exact .inr (hsame (by rw [(unlocked_step hq hok hs hlock).lists]))
  | some other =>
    obtain ⟨c, n, hlocked, -, rfl⟩ := locked_step hs hlock
    by_cases hother : side = other
    · subst hother
      generalize hpc : s.pc t = pc at hlocked
      cases hlocked with
      | registerSender v | registerReceiver many =>
        left
        simp [line, Shared.register, Shared.setList, Shared.waker, registration]
      | remove side id forward k _ =>
        right
        simp only [line, Shared.remove, Shared.setList, Function.update_self]
        exact (List.eraseP_sublist).map _
      | absent side id forward k _ => exact .inr (hsame rfl)
      | notifyMany side limit k =>
        right
        simp only [line, Shared.notifyMany, Shared.setList, Function.update_self]
        exact (List.drop_sublist _ _).map _
      | notifyAll side k =>
        right
        simp [line, Shared.notifyAll, Shared.setList]
    · exact .inr (hsame (hlocked.frame hother).1)

/-- An agent that waits after a step waited before, unless it has just
registered; and it has not moved back. -/
theorem line_before (h : ChannelMachine.Reach cfg τ s) (hs : ChannelMachine.Step cfg s (t, l) s')
    (hu : u ∈ line s' side) (hmine : u = t → registration (s.pc t) ≠ none) :
    u ∈ line s side ∧ (line s' side).idxOf u ≤ (line s side).idxOf u := by
  rcases line_step h hs side with ⟨hline, hnone⟩ | hsub
  · rw [hline] at hu ⊢
    rcases List.mem_append.mp hu with hu | hu
    · exact ⟨hu, (List.idxOf_append_of_mem hu).le⟩
    · exact absurd hnone (hmine (List.mem_singleton.mp hu))
  · exact ⟨hsub.subset hu, idxOf_le_of_sublist hsub (line_nodup h side) hu⟩

end Line

section Verdicts

/-- The agent goes on with what it learnt from the flag of a closed channel. -/
def knowsClosed : AgentPc Tid V → Bool
  | .unregister _ _ (.sendReady _) | .unregister _ _ (.recvReady _ _)
  | .unregisterLocked _ _ false (.sendReady _) | .unregisterLocked _ _ false (.recvReady _ _)
  | .queue (.isEmpty _) _ => true
  | _ => false

theorem knowsClosed_resumes {k : Kont V} {n : Goes Tid V} (h : Resumes cfg k n) :
    knowsClosed n.1 = false := by
  induction h with
  | receivedFirst many v n _ ih => exact ih
  | _ => rfl

theorem knowsClosed_wakeAll (wakers : List (Waker Tid)) (k : Kont V) :
    knowsClosed (wakeAll cfg wakers k).1 = false := by
  rcases wakeAll_cases cfg wakers k with ⟨-, hr⟩ | ⟨-, hw⟩
  · exact knowsClosed_resumes hr
  · rw [hw]
    rfl

variable [DecidableEq Tid] {s : ChannelMachine.State Tid V}
  {τ : List (Tid × ChannelMachine.Label V)}

/-- What an agent learnt of a closed channel, it learnt from the flag. -/
theorem knowsClosed_run (h : ChannelMachine.Reach cfg τ s) (hk : knowsClosed (s.pc t) = true) :
    s.shared.closed = true := by
  have hall : ∀ t, knowsClosed (s.pc t) = true → s.shared.closed = true := by
    refine h.invariant (P := fun _ s => ∀ t, knowsClosed (s.pc t) = true →
      s.shared.closed = true) (fun t ht => by cases ht) ?_
    rintro τ s ⟨u, l⟩ s' hr ih hs t ht
    by_cases hut : t = u
    · subst hut
      obtain ⟨hq, hok⟩ := reach_queue hr
      have hkeep : knowsClosed (s.pc t) = true → s'.shared.closed = true := fun hk =>
        step_closed cfg hs (ih t hk)
      rcases turns hq hok hs with ⟨op, c, n, hstart, -, -, rfl⟩ | ⟨c, n, hact, -, rfl⟩ |
        ⟨side, c, n, hlocked, -, rfl⟩ | ⟨k, pc, fail, o, hpc, -, -, rfl, hend⟩ <;>
        simp only [Function.update_self] at ht
      · generalize s.pc t = pc at hstart
        cases hstart with
        | pollRecv many =>
          cases many with
          | none => cases ht
          | some limit =>
            simp only [firstPoll] at ht
            split at ht <;> cases ht
        | _ => cases ht
      · generalize s.pc t = pc at hact hkeep
        cases hact with
        | readsZero side id k n _ hr | wokeNone k n hr | wokeLast w k n hr
        | appends v limit n hr => rw [knowsClosed_resumes hr] at ht; cases ht
        | sendClosedSecond id v hc | recvClosed k hc => exact hc
        | readsWaiters side id k _ => exact hkeep (by cases k <;> first | rfl | cases ht)
        | _ => cases ht
      · generalize s.pc t = pc at hlocked
        cases hlocked with
        | remove side id forward k _ =>
          rw [knowsClosed_resumes (resumes_resume k)] at ht
          cases ht
        | absent side id forward k _ =>
          cases forward with
          | true => cases ht
          | false =>
            rw [if_neg Bool.false_ne_true, knowsClosed_resumes (resumes_resume k)] at ht
            cases ht
        | notifyMany side limit k | notifyAll side k =>
          rw [knowsClosed_wakeAll] at ht
          cases ht
        | _ => cases ht
      · rw [hpc] at hkeep
        rcases hend with ⟨pc', -, hgo⟩ | ⟨r, -, -, hf⟩
        · rw [hgo] at ht
          exact hkeep (by cases k <;> first | rfl | cases ht)
        · generalize k.next cfg o.2.1 = n at hf ht
          cases hf with
          | sent k v tail n hr | received k r v n _ hr | batch many head values n hr =>
            rw [knowsClosed_resumes hr] at ht
            cases ht
          | drainedFirst many n hr =>
            rw [knowsClosed_resumes hr] at ht
            cases ht
          | drainedSecond id tail wait many => exact hkeep rfl
          | busySecond id tail wait many n ha | claimsBelow id tail wait many n ha =>
            cases ha <;> cases ht
          | _ => cases ht
    · rw [step_others cfg hs hut] at ht
      exact step_closed cfg hs (ih t ht)
  exact hall t hk

end Verdicts

section Outside

variable [DecidableEq Tid] {s s' : ChannelMachine.State Tid V} {l : ChannelMachine.Label V}
  {τ : List (Tid × ChannelMachine.Label V)} {z : BlockSize}

omit [DecidableEq Tid] in
theorem registration_resumes {k : Kont V} {n : Goes Tid V} (h : Resumes cfg k n) :
    registration n.1 = Kont.registration k := by
  induction h with
  | receivedFirst many v n _ ih => exact ih
  | _ => rfl

/-- An agent of the other side holds its supply. -/
theorem held_of_stranger (hne : enrolled side (s.pc t) = false) :
    held z side s t = supply z side (s.pc t) := by
  rw [held, hne, if_neg (by simp), Nat.add_zero]

theorem held_le_succ (s : ChannelMachine.State Tid V) (t : Tid) :
    held z side s t ≤ supply z side (s.pc t) + 1 := by
  rw [held]
  split <;> omega

/-- What an agent holds changes with its supply, while its entry stays out. -/
theorem held_balance {n n' : ℕ}
    (hsupply : n' + supply z side (s.pc u) ≤ n + supply z side (s'.pc u))
    (hout : enrolled side (s.pc u) = true → u ∉ line s side →
      enrolled side (s'.pc u) = true ∧ u ∉ line s' side) :
    n' + held z side s u ≤ n + held z side s' u := by
  rw [held, held]
  by_cases hyes : enrolled side (s.pc u) = true ∧ u ∉ line s side
  · rw [if_pos hyes, if_pos (hout hyes.1 hyes.2)]
    omega
  · rw [if_neg hyes]
    omega

/-- The others keep what they hold. -/
theorem held_others (h : ChannelMachine.Reach cfg τ s) (hs : ChannelMachine.Step cfg s (t, l) s')
    (hu : u ≠ t) : held z side s u ≤ held z side s' u := by
  have hpc := step_others cfg hs hu
  have hout : enrolled side (s.pc u) = true → u ∉ line s side →
      enrolled side (s'.pc u) = true ∧ u ∉ line s' side := fun henrolled hout =>
    ⟨by rw [hpc]; exact henrolled, fun hl => hout (line_before h hs hl fun he => absurd he hu).1⟩
  have hsame : 0 + supply z side (s.pc u) ≤ 0 + supply z side (s'.pc u) := by rw [hpc]
  have hbalance := held_balance hsame hout
  omega

/-- An agent that keeps its registration changes what it holds with its supply. -/
theorem held_moves {n n' : ℕ} (h : ChannelMachine.Reach cfg τ s)
    (hs : ChannelMachine.Step cfg s (t, l) s')
    (hsupply : n' + supply z side (s.pc t) ≤ n + supply z side (s'.pc t))
    (hreg : registration (s.pc t) ≠ none → registration (s'.pc t) = registration (s.pc t)) :
    n' + held z side s t ≤ n + held z side s' t := by
  refine held_balance hsupply fun henrolled hout => ?_
  obtain ⟨id, hid⟩ := enrolled_iff.mp henrolled
  have hsome : registration (s.pc t) ≠ none := by simp [hid]
  exact ⟨enrolled_iff.mpr ⟨id, (hreg hsome).trans hid⟩,
    fun hl => hout (line_before h hs hl fun _ => hsome).1⟩

/-- An agent that keeps its registration and its supply keeps what it holds. -/
theorem held_keeps (h : ChannelMachine.Reach cfg τ s) (hs : ChannelMachine.Step cfg s (t, l) s')
    (hsupply : supply z side (s.pc t) ≤ supply z side (s'.pc t))
    (hreg : registration (s.pc t) ≠ none → registration (s'.pc t) = registration (s.pc t)) :
    held z side s t ≤ held z side s' t := by
  have hsame : 0 + supply z side (s.pc t) ≤ 0 + supply z side (s'.pc t) := by omega
  have hmoves := held_moves h hs hsame hreg
  omega

omit [DecidableEq Tid] in
/-- A push that enters the queue has not claimed a slot. -/
theorem slotSupply_enter (v : V) :
    slotSupply cfg.size (enter cfg (.push .first v) : AgentPc Tid V) = 1 := by
  unfold enter
  cases hcap : cfg.capacity with
  | none | some cap => simp [slotSupply, QueueK.op, Op.entry, PushPc.entry, claimOf,
      QueueLocal.writes, QueueLocal.pushWrites]

omit [DecidableEq Tid] in
/-- A receive that enters the queue has not taken a value. -/
theorem valueSupply_enter (many : Option ℕ) :
    valueSupply cfg.size (enter cfg (.pop (.first many)) : AgentPc Tid V) = 1 := by
  unfold enter
  cases hx : cfg.exclusive with
  | none | some x => simp [valueSupply, QueueK.op, popOp, Op.entry, PopPc.entry, inflight,
      popInflight, singleInflight, hx]

omit [DecidableEq Tid] in
/-- An agent that may start an operation has no supply. -/
theorem supply_of_start [DecidableEq Tid] {c c' : Shared Tid V} {pc : AgentPc Tid V}
    {op : ChannelMachine.Op V} {n : Goes Tid V} (h : Starts cfg c t pc op c' n) :
    supply z side pc = 0 := by
  cases h <;> cases side <;> rfl

omit [DecidableEq Tid] in
/-- After its wake was absorbed a future goes on to its first attempt. -/
theorem supply_absorbs {k : Kont V} {n : Goes Tid V} {other : Side} {id : ℕ} {pc : AgentPc Tid V}
    (hpc : pc = .unregister side id k ∨ pc = .unregisterLocked side id false k)
    (htame : tame pc = true) (hopen : knowsClosed pc = false) (hr : Resumes cfg k n)
    (ho : other = side) : supply cfg.size other n.1 = 1 := by
  subst ho
  have habsorbs : absorbs other k = true ∧ ∀ r, k ≠ .sendReady r := by
    rcases hpc with rfl | rfl
    · exact ⟨htame, fun r hk => by rw [hk] at hopen; cases hopen⟩
    · exact ⟨htame, fun r hk => by rw [hk] at hopen; cases hopen⟩
  have hready : ∀ v many, k ≠ .recvReady v many := by
    rcases hpc with rfl | rfl
    · exact fun v many hk => by rw [hk] at hopen; cases hopen
    · exact fun v many hk => by rw [hk] at hopen; cases hopen
  cases hr with
  | sendFirst v =>
    cases other with
    | senders => rfl
    | receivers => cases habsorbs.1
  | recvFirst many =>
    cases other with
    | senders => cases habsorbs.1
    | receivers => exact valueSupply_enter many
  | sendReady r => exact absurd rfl (habsorbs.2 r)
  | recvReady v => exact absurd rfl (hready _ _)
  | recvClosed => exact absurd rfl (hready _ _)
  | append v limit => exact absurd rfl (hready _ _)
  | manyClosed limit => exact absurd rfl (hready _ _)
  | dropped other' => cases other <;> cases habsorbs.1
  | _ => cases other <;> cases habsorbs.1

/-- An agent that starts an operation keeps what it holds. -/
theorem held_start (h : ChannelMachine.Reach cfg τ s) (hs : ChannelMachine.Step cfg s (t, l) s')
    {op : ChannelMachine.Op V} {c : Shared Tid V} {n : Goes Tid V}
    (hstart : Starts cfg s.shared t (s.pc t) op c n) (hpc : s'.pc t = n.1) :
    held z side s t ≤ held z side s' t := by
  refine held_keeps h hs ?_ fun _ => ?_
  · rw [supply_of_start hstart]
    exact Nat.zero_le _
  · rw [hpc]
    exact (start_carries hstart).1.registration

/-- In an open channel nobody has learnt of a close. -/
theorem unaware_of_open (h : ChannelMachine.Reach cfg τ s) (hopen : s.shared.closed = false)
    (t : Tid) : knowsClosed (s.pc t) = false := by
  rw [← Bool.not_eq_true]
  intro hk
  rw [knowsClosed_run h hk] at hopen
  cases hopen

omit [DecidableEq Tid] in
theorem open_before [DecidableEq Tid] (hs : ChannelMachine.Step cfg s (t, l) s')
    (hopen : s'.shared.closed = false) : s.shared.closed = false := by
  rw [← Bool.not_eq_true]
  intro hclosed
  rw [step_closed cfg hs hclosed] at hopen
  cases hopen

/-- While the channel is open, an agent keeps what it holds in a turn outside
the queue that takes no lock. -/
theorem held_acts (h : ChannelMachine.Reach cfg τ s) {c : Shared Tid V} {n : Goes Tid V}
    (hs : ChannelMachine.Step cfg s (t, l) ⟨c, Function.update s.pc t n.1⟩)
    (hact : Acts cfg s.shared t (s.pc t) c n) (hopen : c.closed = false) :
    held cfg.size side s t ≤ held cfg.size side ⟨c, Function.update s.pc t n.1⟩ t := by
  have hopen₀ : s.shared.closed = false := open_before hs hopen
  have hknows := unaware_of_open h hopen₀ t
  have htame := tame_run h t
  have hkeeps : supply cfg.size side (s.pc t) ≤ supply cfg.size side n.1 →
      (registration (s.pc t) ≠ none → registration n.1 = registration (s.pc t)) →
      held cfg.size side s t ≤ held cfg.size side ⟨c, Function.update s.pc t n.1⟩ t :=
    fun hsupply hreg => held_keeps h hs (by simpa using hsupply) (by simpa using hreg)
  have hresumes : ∀ k, Resumes cfg k n → Kont.registration k = registration (s.pc t) →
      supply cfg.size side (s.pc t) = 0 →
      held cfg.size side s t ≤ held cfg.size side ⟨c, Function.update s.pc t n.1⟩ t :=
    fun k hr hk hzero => hkeeps (by omega) fun _ => (registration_resumes hr).trans hk
  have hsame : supply cfg.size side (s.pc t) = 0 → registration n.1 = registration (s.pc t) →
      held cfg.size side s t ≤ held cfg.size side ⟨c, Function.update s.pc t n.1⟩ t :=
    fun hzero hreg => hkeeps (by omega) fun _ => hreg
  have hle : held cfg.size side s t ≤ supply cfg.size side (s.pc t) + 1 := held_le_succ s t
  have hstranger : enrolled side (s.pc t) = false →
      held cfg.size side s t = supply cfg.size side (s.pc t) := held_of_stranger
  have hends : ∀ m, supply cfg.size side n.1 = m → held cfg.size side s t ≤ m →
      held cfg.size side s t ≤ held cfg.size side ⟨c, Function.update s.pc t n.1⟩ t := by
    intro m hm hbound
    simp only [held, Function.update_self] at hbound ⊢
    omega
  have hclosed : ∀ {P : Prop}, s.shared.closed = true → P := fun hc => by
    rw [hc] at hopen₀
    cases hopen₀
  clear hs
  generalize s.pc t = pc at hact hknows htame hkeeps hresumes hsame hle hstranger
  cases hact with
  | sendOpen k v _ =>
    refine hkeeps ?_ fun _ => rfl
    cases side with
    | receivers => exact Nat.zero_le _
    | senders =>
      cases k with
      | first => exact (slotSupply_enter v).ge
      | call | second id => exact Nat.zero_le _
  | emptyFirst many _ => exact hkeeps (by cases side <;> rfl) fun _ => rfl
  | emptyCall _ | emptySecond id tail wait many _ => exact hsame (by cases side <;> rfl) rfl
  | readsZero other id k n _ hr =>
    by_cases ho : side = other
    · refine hends 1 (supply_absorbs (.inl rfl) htame hknows hr ho) ?_
      have hzero : supply cfg.size side (.unregister other id k : AgentPc Tid V) = 0 := by
        cases side <;> rfl
      omega
    · refine hends _ rfl ?_
      rw [hstranger (by simpa [enrolled, registration] using Ne.symm ho)]
      cases side <;> exact Nat.zero_le _
  | readsWaiters other id k _ => exact hsame (by cases side <;> rfl) rfl
  | wokeNone k n hr => exact hresumes k hr rfl (by cases side <;> rfl)
  | wokeLast w k n hr => exact hresumes k hr rfl (by cases side <;> rfl)
  | woke w wakers k _ | wokeSelf id many => exact hsame (by cases side <;> rfl) rfl
  | unwinds v limit => exact hsame (by cases side <;> rfl) rfl
  | appends v limit n hr => exact hresumes _ hr rfl (by cases side <;> rfl)
  | flips who _ => cases hopen
  | closedCall hc | closedLast other hc | sendClosedCall v hc | sendClosedFirst v hc
  | sendClosedSecond id v hc | recvClosed k hc => exact hclosed hc

/-- While the channel is open, an agent keeps what it holds through a section of a
list, unless it takes out entries of this list. -/
theorem held_locked (h : ChannelMachine.Reach cfg τ s) {other : Side} {c : Shared Tid V}
    {n : Goes Tid V} (hs : ChannelMachine.Step cfg s (t, l) ⟨c, Function.update s.pc t n.1⟩)
    (hlocked : Locked cfg s.shared t other (s.pc t) c n) (hopen : s.shared.closed = false)
    (hnot : side = other → ∀ limit k, s.pc t ≠ .notify other limit k) :
    held cfg.size side s t ≤ held cfg.size side ⟨c, Function.update s.pc t n.1⟩ t := by
  have hknows := unaware_of_open h hopen t
  have htame := tame_run h t
  have hkeeps : supply cfg.size side (s.pc t) ≤ supply cfg.size side n.1 →
      (registration (s.pc t) ≠ none → registration n.1 = registration (s.pc t)) →
      held cfg.size side s t ≤ held cfg.size side ⟨c, Function.update s.pc t n.1⟩ t :=
    fun hsupply hreg => held_keeps h hs (by simpa using hsupply) (by simpa using hreg)
  have hle : held cfg.size side s t ≤ supply cfg.size side (s.pc t) + 1 := held_le_succ s t
  have hstranger : enrolled side (s.pc t) = false →
      held cfg.size side s t = supply cfg.size side (s.pc t) := held_of_stranger
  have hends : ∀ m, supply cfg.size side n.1 = m → held cfg.size side s t ≤ m →
      held cfg.size side s t ≤ held cfg.size side ⟨c, Function.update s.pc t n.1⟩ t := by
    intro m hm hbound
    simp only [held, Function.update_self] at hbound ⊢
    omega
  have hparked : ∀ id, registration (s.pc t) = some (side, id) →
      s.shared.parked side id = true → held cfg.size side s t = supply cfg.size side (s.pc t) := by
    intro id hr hp
    rw [held, if_neg fun hyes => hyes.2 (line_of_parked h hr hp), Nat.add_zero]
  clear hs
  generalize s.pc t = pc at hlocked hknows htame hkeeps hle hstranger hnot hparked
  have hquiet : ∀ id, registration pc = some (other, id) → supply cfg.size side pc = 0 →
      side ≠ other → held cfg.size side s t = 0 := by
    intro id hr hzero ho
    rw [hstranger (by simpa [enrolled, hr] using Ne.symm ho), hzero]
  have hwaking : ∀ k wakers, Kont.registration k = registration pc →
      supply cfg.size side pc = 0 → n = wakeAll cfg wakers k →
      held cfg.size side s t ≤ held cfg.size side ⟨c, Function.update s.pc t n.1⟩ t := by
    intro k wakers hk hzero hn
    refine hkeeps (by omega) fun _ => ?_
    rw [hn]
    exact (carries_wakeAll wakers k).registration.trans hk
  cases hlocked with
  | registerSender v => exact hkeeps (by cases side <;> exact Nat.zero_le _) fun hr => absurd rfl hr
  | registerReceiver many => exact hkeeps (by cases side <;> rfl) fun hr => absurd rfl hr
  | remove other id forward k hp =>
    refine hends _ rfl ?_
    by_cases ho : side = other
    · subst ho
      rw [hparked id rfl hp]
      cases side <;> exact Nat.zero_le _
    · rw [hquiet id rfl (by cases side <;> rfl) ho]
      exact Nat.zero_le _
  | absent other id forward k _ =>
    by_cases ho : side = other
    · refine hends 1 ?_ ?_
      · cases forward with
        | true =>
          subst ho
          cases side <;> rfl
        | false => exact supply_absorbs (.inr rfl) htame hknows (resumes_resume k) ho
      · have hzero : supply cfg.size side (.unregisterLocked other id forward k : AgentPc Tid V) =
            0 := by
          cases side <;> rfl
        omega
    · refine hends _ rfl ?_
      rw [hquiet id rfl (by cases side <;> rfl) ho]
      exact Nat.zero_le _
  | notifyMany other limit k =>
    by_cases ho : side = other
    · exact absurd rfl (hnot ho (some limit) k)
    · refine hwaking k _ rfl ?_ rfl
      cases side <;> cases other <;> first | rfl | exact absurd rfl ho
  | notifyAll other k =>
    by_cases ho : side = other
    · exact absurd rfl (hnot ho none k)
    · exact hwaking k _ rfl (by cases side <;> cases other <;> rfl) rfl

omit [DecidableEq Tid] in
/-- Who notifies a list is not registered in it. -/
theorem stranger_of_announces {limit : Option ℕ} {k : Kont V}
    (h : announces side limit k = true) : enrolled side (.notify side limit k : AgentPc Tid V) =
      false := by
  have hother : ∀ r, Kont.registration k = some r → r.1 ≠ side := by
    intro r hr hside
    have hwakes := wakes_of_announces h
    cases k with
    | sent k =>
      cases k with
      | second id =>
        obtain rfl := Option.some.inj hr
        rw [← hside] at hwakes
        cases hwakes
      | _ => cases hr
    | received k v =>
      cases k with
      | second id tail wait many =>
        obtain rfl := Option.some.inj hr
        rw [← hside] at hwakes
        cases hwakes
      | _ => cases hr
    | _ => cases hr
  rw [← Bool.not_eq_true]
  intro henrolled
  obtain ⟨id, hid⟩ := enrolled_iff.mp henrolled
  exact hother _ hid rfl

/-- An agent that takes out entries hands what it owes to the agents whose
entries they were, if some entry is left. -/
theorem covered_notify (h : ChannelMachine.Reach cfg τ s) {limit : ℕ} {k : Kont V} {n : ℕ}
    {pcs : Tid → AgentPc Tid V} (hpc : s.pc t = .notify side (some limit) k)
    (hs : ChannelMachine.Step cfg s (t, l) ⟨(s.shared.notifyMany side limit).1, pcs⟩)
    (hu : u ∈ line ⟨(s.shared.notifyMany side limit).1, pcs⟩ side)
    (hn : Covered n (held cfg.size side s)) :
    Covered n (held cfg.size side ⟨(s.shared.notifyMany side limit).1, pcs⟩) ∧
      limit ≤ (line s side).idxOf u := by
  have htame := tame_run h t
  rw [hpc] at htame
  have hstranger : enrolled side (.notify side (some limit) k : AgentPc Tid V) = false :=
    stranger_of_announces htame
  have hnodup := line_nodup h side
  have hafter : line ⟨(s.shared.notifyMany side limit).1, pcs⟩ side =
      (line s side).drop (min limit (s.shared.list side).length) := by
    simp [line, Shared.notifyMany, Shared.setList]
  have hsplit := List.take_append_drop (min limit (s.shared.list side).length) (line s side)
  rw [hafter] at hu
  have hlength : (line s side).length = (s.shared.list side).length := List.length_map ..
  have hroom : limit < (line s side).length := by
    have hpos := List.length_pos_of_mem hu
    rw [List.length_drop] at hpos
    omega
  have hmin : min limit (s.shared.list side).length = limit := by omega
  rw [hmin] at hu hafter hsplit
  rw [← hsplit] at hnodup
  obtain ⟨htake, -, hdisjoint⟩ := List.nodup_append.mp hnodup
  have hgone : ∀ a ∈ (line s side).take limit, a ∉ (line s side).drop limit := fun a ha hd =>
    hdisjoint a ha a hd rfl
  refine ⟨hn.handed (G := ((line s side).take limit).toFinset) (fun a ha => held_others h hs ha)
    ?_ ?_ ?_, ?_⟩
  · intro ht
    have hline := List.mem_of_mem_take (List.mem_toFinset.mp ht)
    have henrolled := enrolled_of_line h hline
    rw [hpc, hstranger] at henrolled
    cases henrolled
  · intro a ha
    have hmem := List.mem_toFinset.mp ha
    have hline := List.mem_of_mem_take hmem
    have henrolled := enrolled_of_line h hline
    have hat : a ≠ t := fun he => by
      rw [he, hpc, hstranger] at henrolled
      cases henrolled
    have hsame := step_others cfg hs hat
    have hin : ¬(enrolled side (s.pc a) = true ∧ a ∉ line s side) := fun hyes => hyes.2 hline
    have hout : enrolled side (pcs a) = true ∧
        a ∉ line ⟨(s.shared.notifyMany side limit).1, pcs⟩ side := by
      refine ⟨by rw [show pcs a = s.pc a from hsame]; exact henrolled, ?_⟩
      rw [hafter]
      exact hgone a hmem
    rw [held, held, if_neg hin, if_pos hout, hsame]
  · rw [List.toFinset_card_of_nodup htake, List.length_take, held_of_stranger (by rw [hpc]; exact
      hstranger), hpc]
    cases side <;> simp only [supply, slotSupply, valueSupply] <;> omega
  · have hidx : (line s side).idxOf u = limit + ((line s side).drop limit).idxOf u := by
      conv_lhs => rw [← hsplit]
      rw [List.idxOf_append_of_notMem fun ht => hgone u ht hu, List.length_take]
      omega
    omega

/-- A waiter that is still in line stays served, when what it waits for and what
the agent of the step holds change together. -/
theorem Served.step {n n' : ℕ} (h : ChannelMachine.Reach cfg τ s)
    (hs : ChannelMachine.Step cfg s (t, l) s') (hu : u ∈ line s' side)
    (hmine : u = t → registration (s.pc t) ≠ none) (hserved : Served cfg.size side s u n)
    (hbalance : n' + held cfg.size side s t ≤ n + held cfg.size side s' t)
    (hpromise : promises side (s.pc t) ≤ promises side (s'.pc t)) :
    Served cfg.size side s' u n' := by
  obtain ⟨-, hidx⟩ := line_before h hs hu hmine
  rcases hserved with hcovered | ⟨a, ha⟩
  · exact .inl (hcovered.transfer (fun a ha => held_others h hs ha) hbalance)
  · refine .inr ⟨a, ?_⟩
    by_cases hat : a = t
    · subst hat
      omega
    · rw [step_others cfg hs hat]
      omega

/-- Outside the queue, a waiter that is still in line stays served. -/
theorem served_outside {n : ℕ} (h : ChannelMachine.Reach cfg τ s)
    (hs : ChannelMachine.Step cfg s (t, l) s') (hopen : s'.shared.closed = false)
    (hqueue : ∀ k pc, s.pc t ≠ .queue k pc) (hu : u ∈ line s' side)
    (hmine : u = t → registration (s.pc t) ≠ none) (hserved : Served cfg.size side s u n) :
    Served cfg.size side s' u n := by
  have hopen₀ := open_before hs hopen
  have hkeeps : held cfg.size side s t ≤ held cfg.size side s' t → promises side (s.pc t) = 0 →
      Served cfg.size side s' u n := fun hheld hzero =>
    hserved.step h hs hu hmine (by omega) (by omega)
  obtain ⟨hq, hok⟩ := reach_queue h
  rcases turns hq hok hs with ⟨op, c, n', hstart, -, rfl, rfl⟩ | ⟨c, n', hact, rfl, rfl⟩ |
    ⟨other, c, n', hlocked, rfl, rfl⟩ | ⟨k, pc, fail, o, hpc, -⟩
  · refine hkeeps (held_start h hs hstart (Function.update_self ..)) ?_
    generalize s.pc t = pc at hstart
    cases hstart <;> cases side <;> rfl
  · refine hkeeps (held_acts h hs hact hopen) ?_
    generalize s.pc t = pc at hact
    cases hact <;> cases side <;> rfl
  · have hheld : (side = other → ∀ limit k, s.pc t ≠ .notify other limit k) →
        held cfg.size side s t ≤ held cfg.size side ⟨c, Function.update s.pc t n'.1⟩ t :=
      held_locked h hs hlocked hopen₀
    generalize hpc : s.pc t = pc at hlocked hheld hkeeps
    cases hlocked with
    | notifyMany other limit k =>
      by_cases ho : side = other
      · subst ho
        rcases hserved with hcovered | ⟨a, ha⟩
        · exact .inl (covered_notify h hpc hs hu hcovered).1
        · have hlimit := (covered_notify h hpc hs hu (covered_zero _)).2
          obtain ⟨-, hidx⟩ := line_before h hs hu hmine
          refine .inr ⟨a, ?_⟩
          by_cases hat : a = t
          · rw [hat, hpc] at ha
            cases side <;> simp only [promises] at ha <;> omega
          · rw [step_others cfg hs hat]
            omega
      · refine hkeeps (hheld fun he => absurd he ho) ?_
        cases side <;> cases other <;> first | rfl | exact absurd rfl ho
    | notifyAll other k =>
      by_cases ho : side = other
      · subst ho
        simp [line, Shared.notifyAll, Shared.setList] at hu
      · refine hkeeps (hheld fun he => absurd he ho) ?_
        cases side <;> cases other <;> rfl
    | registerSender v | registerReceiver many =>
      refine hkeeps (hheld fun _ limit k he => by cases he) ?_
      cases side <;> rfl
    | remove other id forward k _ | absent other id forward k _ =>
      refine hkeeps (hheld fun _ limit k he => by cases he) ?_
      cases side <;> rfl
  · exact absurd hpc (hqueue k pc)

end Outside

section Owing

/-- The agent owes the waiters of a side a step: it may still use a wake, or owes
one to them; it invokes their wakers; its future was woken and not polled since;
or the entry of its future was taken out and it has not passed the wake on. -/
inductive Owes [DecidableEq Tid] (cfg : Config Tid) (side : Side) (s : ChannelMachine.State Tid V)
    (a : Tid) : Prop where
  | supplies : 0 < supply cfg.size side (s.pc a) → Owes cfg side s a
  | wakes (wakers : List (Waker Tid)) (k : Kont V) : s.pc a = .waking wakers k → wakers ≠ [] →
      Kont.wakes k = some side → Owes cfg side s a
  | woken (id : ℕ) : pendingOn (s.pc a) = some (side, id) → s.shared.woken a = true →
      Owes cfg side s a
  | forwards : moving (s.pc a) = true → enrolled side (s.pc a) = true → a ∉ line s side →
      Owes cfg side s a

variable [DecidableEq Tid] {s : ChannelMachine.State Tid V}
  {τ : List (Tid × ChannelMachine.Label V)} {z : BlockSize}

omit [DecidableEq Tid] in
/-- Who is about to take out entries owes them a wake. -/
theorem promises_le_supply (side : Side) (pc : AgentPc Tid V) :
    promises side pc ≤ supply z side pc := by
  cases side with
  | receivers =>
    cases pc with
    | notify other limit k => cases other <;> cases limit <;> exact le_rfl
    | _ => exact Nat.zero_le _
  | senders =>
    cases pc with
    | notify other limit k => cases other <;> cases limit <;> exact le_rfl
    | queue k pc =>
      cases pc with
      | push pc => exact Nat.zero_le _
      | _ =>
        cases k with
        | push j v => cases j <;> exact Nat.le_add_right _ _
        | _ => exact Nat.le_add_right _ _
    | _ => exact Nat.zero_le _

omit [DecidableEq Tid] in
/-- Who has a supply of wakes can move. -/
theorem moving_of_supply {pc : AgentPc Tid V} (h : 0 < supply z side pc) : moving pc = true := by
  cases pc with
  | idle | fault | sending v id | receiving id many => cases side <;> cases h
  | _ => rfl

/-- A waiter whose waker is about to be invoked is owed that step. -/
theorem owes_of_inFlight (h : InFlight s side u) : ∃ a, Owes cfg side s a := by
  obtain ⟨a, wakers, k, ha, hw, hk⟩ := h
  exact ⟨a, .wakes wakers k ha (List.ne_nil_of_mem hw) hk⟩

/-- Who holds a wake of a side owes the waiters a step, or somebody is about to
invoke its waker. -/
theorem owes_of_held {a : Tid} (h : ChannelMachine.Reach cfg τ s)
    (ha : 0 < held cfg.size side s a) : ∃ b, Owes cfg side s b := by
  by_cases hout : enrolled side (s.pc a) = true ∧ a ∉ line s side
  · obtain ⟨id, hid⟩ := enrolled_iff.mp hout.1
    cases hm : moving (s.pc a) with
    | true => exact ⟨a, .forwards hm hout.1 hout.2⟩
    | false =>
      have hpending : pendingOn (s.pc a) = some (side, id) := by
        generalize s.pc a = pc at hid hm
        cases pc with
        | sending v id' | receiving id' many =>
          cases id' <;> cases hid
          rfl
        | idle | fault => cases hid
        | _ => cases hm
      rcases held_run h (exposed_of_pendingOn hpending).2 with hl | hw | hf
      · exact absurd (mem_line.mpr hl) hout.2
      · exact ⟨a, .woken id hpending hw⟩
      · exact owes_of_inFlight hf
  · rw [held, if_neg hout, Nat.add_zero] at ha
    exact ⟨a, .supplies ha⟩

/-- A waiter that is served is owed a step. -/
theorem Served.owes {n : ℕ} (h : ChannelMachine.Reach cfg τ s) (hn : 0 < n)
    (hserved : Served cfg.size side s u n) : ∃ a, Owes cfg side s a := by
  rcases hserved with hcovered | ⟨a, ha⟩
  · obtain ⟨a, ha⟩ := hcovered.holder hn
    exact owes_of_held h ha
  · have hle : promises side (s.pc a) ≤ supply cfg.size side (s.pc a) := promises_le_supply side _
    exact ⟨a, .supplies (by omega)⟩

/-- A future that is asleep waits in line, or is owed a step. -/
theorem asleep_in_line (h : ChannelMachine.Reach cfg τ s) {id : ℕ}
    (hpending : pendingOn (s.pc u) = some (side, id)) (hasleep : s.shared.woken u = false) :
    u ∈ line s side ∨ ∃ a, Owes cfg side s a := by
  rcases held_run h (exposed_of_pendingOn hpending).2 with hl | hw | hf
  · exact .inl (mem_line.mpr hl)
  · rw [hw] at hasleep
    cases hasleep
  · exact .inr (owes_of_inFlight hf)

/-- Who owes the waiters a step can take it, or is a woken future that waits for
its poll. -/
theorem Owes.awake {a : Tid} (h : Owes cfg side s a) : moving (s.pc a) = true ∨
    ∃ id, pendingOn (s.pc a) = some (side, id) ∧ s.shared.woken a = true := by
  cases h with
  | supplies hs => exact .inl (moving_of_supply hs)
  | wakes wakers k ha _ _ => exact .inl (by rw [ha]; rfl)
  | woken id hp hw => exact .inr ⟨id, hp, hw⟩
  | forwards hm _ _ => exact .inl hm

end Owing

section Access

variable [DecidableEq Tid] {s : ChannelMachine.State Tid V}
  {τ : List (Tid × ChannelMachine.Label V)}

/-- An access changes the number of queued values by what it claims and takes. -/
theorem items_access (h : ChannelMachine.Reach cfg τ s) {k : QueueK V} {pc : Pc V} {fail : Bool}
    {o : Outcome V (Pc V) (QueueMachine.Ret V)} (hpc : s.pc t = .queue k pc)
    (ho : pc.exec cfg (sampledCount s.shared pc) fail s.shared.queue = some o) :
    items cfg.size o.1 + (takes o.2.2).length =
      items cfg.size s.shared.queue + (claims o.2.2).length := by
  obtain ⟨g, hg⟩ := reach_history h
  have ho' : ((queueState s).pc t).exec cfg (sampledCount s.shared pc) fail
      (queueState s).queue = some o := by
    rw [show (queueState s).pc t = pc by simp [queueState, hpc, queuePc]]
    exact ho
  have hstep : QueueMachine.Step cfg (queueState s) (t, .access o.2.2 (nextRet o.2.1))
      ⟨o.1, Function.update (queueState s).pc t (nextPc o.2.1)⟩ := by
    refine ⟨.run (sampledCount s.shared pc) fail, ?_⟩
    simp only [QueueMachine.State.step, ho']
  obtain ⟨g', hg'⟩ := step_history hg hstep
  have hbefore := unread_length hg
  have hafter := unread_length hg'
  have hlength := congrArg List.length (unread_step hg hg')
  simp only [List.length_append, List.length_map] at hlength
  change _ = items cfg.size s.shared.queue at hbefore
  change _ = items cfg.size o.1 at hafter
  change _ + (claims o.2.2).length = (takes o.2.2).length + _ at hlength
  omega

/-- Inside the queue, an agent keeps its registration. -/
theorem registration_access (h : ChannelMachine.Reach cfg τ s) {k : QueueK V} {pc : Pc V}
    {o : Outcome V (Pc V) (QueueMachine.Ret V)} (hpc : s.pc t = .queue k pc)
    (ho : pc.exec cfg (sampledCount s.shared pc) fail s.shared.queue = some o) :
    registration (k.next cfg o.2.1).1 = registration (s.pc t) := by
  obtain ⟨hq, hok⟩ := reach_queue h
  obtain ⟨g, hg⟩ := QueueInvariant.reach_inv hq
  obtain ⟨g', hg', -⟩ := queue_access hg hpc ho
  have hin := (hok t).inside
  rw [hpc] at hin
  have hcarries : Carries _ (k.next cfg o.2.1) := carries_next (exec_fits hin ho).2 hg'.sound
  rw [hcarries.registration, hpc]
  rfl

end Access

end Rapidfire.ChannelBalance
