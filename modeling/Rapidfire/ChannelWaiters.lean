import Rapidfire.ChannelQueue

/-!
# Registrations

A future that registered in a waiter list keeps its waiter id until it
unregisters. The program point of its agent tells the registration, and a step
changes it only where the source calls `register` or `unregister`.
-/

namespace Rapidfire.ChannelWaiters

open Positions QueueMemory QueueMachine ChannelState ChannelMachine ChannelQueue Runs

variable {Tid V : Type} {cfg : Config Tid} {t u : Tid}

/-- Where keys are distinct, nothing with the erased key is left. -/
theorem ne_of_mem_eraseP {α β : Type} [DecidableEq β] {key : α → β} {k : β} {l : List α} {x : α}
    (h : (l.map key).Nodup) (hx : x ∈ l.eraseP fun y => key y = k) : key x ≠ k := by
  induction l with
  | nil => simp at hx
  | cons y l ih =>
    obtain ⟨hy, hl⟩ := List.nodup_cons.mp h
    by_cases hk : key y = k
    · rw [List.eraseP_cons_of_pos (by simpa using hk)] at hx
      rintro rfl
      exact hy (hk ▸ List.mem_map_of_mem hx)
    · rw [List.eraseP_cons_of_neg (by simpa using hk), List.mem_cons] at hx
      rcases hx with rfl | hx
      · exact hk
      · exact ih hl hx

/-- Registration of a send in its second attempt. -/
def SendK.registration : SendK → Option (Side × ℕ)
  | .second id => some (.senders, id)
  | .call | .first => none

/-- Registration of a receive in its second attempt. -/
def RecvK.registration : RecvK → Option (Side × ℕ)
  | .second id _ _ _ => some (.receivers, id)
  | .call | .first _ => none

/-- Registration an agent goes on with, after it unregistered or notified. -/
def Kont.registration : Kont V → Option (Side × ℕ)
  | .sent k => SendK.registration k
  | .received k _ => RecvK.registration k
  | _ => none

/-- Registration of an agent inside the queue. -/
def QueueK.registration : QueueK V → Option (Side × ℕ)
  | .push k _ => SendK.registration k
  | .parkSender id _ => some (.senders, id)
  | .pop k | .isEmpty k => RecvK.registration k
  | .parkReceiver id _ | .claimsBelow id _ _ _ => some (.receivers, id)
  | .batch _ | .len => none

/-- List and waiter id of an agent's future, from its registration until it
unregisters. -/
def registration : AgentPc Tid V → Option (Side × ℕ)
  | .sending _ id => id.map fun id => (.senders, id)
  | .receiving id _ => id.map fun id => (.receivers, id)
  | .trySend k _ => SendK.registration k
  | .queue k _ => QueueK.registration k
  | .recvState k => RecvK.registration k
  | .unregister side id _ | .unregisterLocked side id _ _ => some (side, id)
  | .notify _ _ k | .waking _ k => Kont.registration k
  | .wakeSelf id _ => some (.receivers, id)
  | .idle | .fault | .registerSender _ | .registerReceiver _ | .closeSwap _ | .append _ _ => none

/-- The result of a future that ended, or of a call. -/
def ends : Option (ChannelMachine.Ret V) → Bool
  | none | some .pending => false
  | some _ => true

/-- An agent goes on with this registration, and with none after its future
ended. -/
structure Carries (r : Option (Side × ℕ)) (n : Goes Tid V) : Prop where
  registration : registration n.1 = r
  settled : ends n.2 = true → r = none

section Carried

theorem carries_manyLoop (m : Many V) : Carries none (manyLoop cfg m) := by
  unfold manyLoop
  split <;> exact ⟨rfl, fun _ => rfl⟩

theorem carries_manyGot (got : ℕ) (m : Many V) : Carries none (manyGot cfg got m) := by
  unfold manyGot
  split
  · split <;> exact ⟨rfl, fun _ => rfl⟩
  · exact carries_manyLoop m

theorem carries_sendOk (k : SendK) :
    Carries (SendK.registration k) (sendOk k : Goes Tid V) := by
  cases k with
  | second id => exact ⟨rfl, nofun⟩
  | _ => exact ⟨rfl, fun _ => rfl⟩

theorem carries_sendClosed (v : V) (k : SendK) :
    Carries (SendK.registration k) (sendClosed v k : Goes Tid V) := by
  cases k with
  | second id => exact ⟨rfl, nofun⟩
  | _ => exact ⟨rfl, fun _ => rfl⟩

theorem carries_sendFull (v : V) (k : SendK) :
    Carries (SendK.registration k) (sendFull v k : Goes Tid V) := by
  cases k with
  | second id => exact ⟨rfl, nofun⟩
  | _ => exact ⟨rfl, fun _ => rfl⟩

theorem carries_recvReady (v : Option V) (m : Option ℕ) :
    Carries none (recvReady v m : Goes Tid V) := by
  cases m <;> cases v <;> exact ⟨rfl, fun _ => rfl⟩

theorem carries_recvOk (v : V) (k : RecvK) :
    Carries (RecvK.registration k) (recvOk v k : Goes Tid V) := by
  cases k with
  | call => exact ⟨rfl, fun _ => rfl⟩
  | first m => exact carries_recvReady (some v) m
  | second id tail wait m => exact ⟨rfl, nofun⟩

theorem carries_recvClosed (k : RecvK) :
    Carries (RecvK.registration k) (recvClosed k : Goes Tid V) := by
  cases k with
  | call => exact ⟨rfl, fun _ => rfl⟩
  | first m => exact carries_recvReady none m
  | second id tail wait m => exact ⟨rfl, nofun⟩

theorem carries_recvAgain (id tail wait : ℕ) (m : Option ℕ) :
    Carries (some (.receivers, id)) (recvAgain cfg id tail wait m : Goes Tid V) := by
  unfold recvAgain
  split <;> exact ⟨rfl, nofun⟩

theorem carries_recvBusy (k : RecvK) :
    Carries (RecvK.registration k) (recvBusy cfg k : Goes Tid V) := by
  cases k with
  | second id tail wait m => exact carries_recvAgain id tail wait m
  | _ => exact ⟨rfl, fun _ => rfl⟩

theorem carries_recvEmpty (k : RecvK) :
    Carries (RecvK.registration k) (recvEmpty cfg k : Goes Tid V) := by
  cases k with
  | second id tail wait m => exact ⟨rfl, nofun⟩
  | _ => exact ⟨rfl, fun _ => rfl⟩

theorem carries_resume (k : Kont V) : Carries (Kont.registration k) (resume cfg k) := by
  cases k with
  | sent k => exact carries_sendOk k
  | received k v => exact carries_recvOk v k
  | batched got m => exact carries_manyGot got m
  | recvReady v m => exact carries_recvReady v m
  | closeDone who => cases who <;> exact ⟨rfl, fun _ => rfl⟩
  | _ => exact ⟨rfl, fun _ => rfl⟩

theorem carries_wakeAll (wakers : List (Waker Tid)) (k : Kont V) :
    Carries (Kont.registration k) (wakeAll cfg wakers k) := by
  cases wakers with
  | nil => exact carries_resume k
  | cons w wakers => exact ⟨rfl, nofun⟩

theorem carries_popped (k : RecvK) (v : V) (wake : Bool) :
    Carries (RecvK.registration k) (popped k v wake : Goes Tid V) := by
  cases wake with
  | true => exact ⟨rfl, nofun⟩
  | false => exact carries_recvOk v k

/-- An operation of the queue leaves the registration alone. -/
theorem carries_finish {k : QueueK V} {r : QueueMachine.Ret V} (h : FitsRet k r) :
    Carries (QueueK.registration k) (k.finish cfg r) := by
  cases h with
  | pushed k v tail wake =>
    cases wake with
    | true => exact ⟨rfl, nofun⟩
    | false => exact carries_sendOk k
  | full k v w => exact carries_sendFull w k
  | senderParked id v head => exact ⟨rfl, nofun⟩
  | popped k head v wake | poppedSingle k head v wake => exact carries_popped k v wake
  | nothing k | nothingSingle k => exact ⟨rfl, nofun⟩
  | receiverParked id many tail => exact ⟨rfl, nofun⟩
  | isEmpty k empty =>
    cases empty with
    | true => exact carries_recvClosed k
    | false => exact carries_recvBusy k
  | claimsBelow id tail wait many below =>
    cases below with
    | true => exact carries_recvAgain id tail wait many
    | false => exact ⟨rfl, nofun⟩
  | batch many head values wake =>
    rw [finish_batch]
    split
    · exact ⟨rfl, fun _ => rfl⟩
    · exact carries_manyGot _ _
  | unwound many | len n => exact ⟨rfl, fun _ => rfl⟩

/-- An access inside the queue leaves the registration alone. -/
theorem carries_next {k : QueueK V} {n : Next (Pc V) (QueueMachine.Ret V)}
    (hret : ∀ r, n = .ret r → FitsRet k r) (hf : n ≠ .fault) :
    Carries (QueueK.registration k) (k.next cfg n) := by
  cases n with
  | goto pc => exact ⟨rfl, nofun⟩
  | ret r => exact carries_finish (hret r rfl)
  | fault => exact absurd rfl hf

end Carried

section Sections

variable [DecidableEq Tid] {c c' : Shared Tid V} {n : Goes Tid V} {pc : AgentPc Tid V}
  {fail : Bool}

/-- The waiter list whose lock an agent is about to take. -/
def lockOf : AgentPc Tid V → Option Side
  | .registerSender _ => some .senders
  | .registerReceiver _ => some .receivers
  | .unregisterLocked side _ _ _ | .notify side _ _ => some side
  | _ => none

/-- The sections of the waiter lists: the side whose lock is held, the shared
state after the section, and where the agent goes on. -/
inductive Locked (cfg : Config Tid) (c : Shared Tid V) (t : Tid) :
    Side → AgentPc Tid V → Shared Tid V → Goes Tid V → Prop where
  | registerSender (v : V) : Locked cfg c t .senders (.registerSender v)
      (c.register .senders none (c.waker t)).1 (enter cfg (.parkSender c.nextWaiterId v), none)
  | registerReceiver (many : Option ℕ) : Locked cfg c t .receivers (.registerReceiver many)
      (c.register .receivers none (c.waker t)).1
      (enter cfg (.parkReceiver c.nextWaiterId many), none)
  | remove (side : Side) (id : ℕ) (forward : Bool) (k : Kont V) : c.parked side id = true →
      Locked cfg c t side (.unregisterLocked side id forward k) (c.remove side id) (resume cfg k)
  | absent (side : Side) (id : ℕ) (forward : Bool) (k : Kont V) : c.parked side id = false →
      Locked cfg c t side (.unregisterLocked side id forward k) c
        (if forward then (.notify side (some 1) k, none) else resume cfg k)
  | notifyMany (side : Side) (limit : ℕ) (k : Kont V) :
      Locked cfg c t side (.notify side (some limit) k) (c.notifyMany side limit).1
        (wakeAll cfg (c.notifyMany side limit).2 k)
  | notifyAll (side : Side) (k : Kont V) :
      Locked cfg c t side (.notify side none k) (c.notifyAll side).1
        (wakeAll cfg (c.notifyAll side).2 k)

theorem locked_of_exec {side : Side} (h : pc.exec cfg c t fail = some (c', n))
    (hl : lockOf pc = some side) : Locked cfg c t side pc c' n := by
  cases pc with
  | registerSender v =>
    cases h
    cases hl
    exact .registerSender v
  | registerReceiver many =>
    cases h
    cases hl
    exact .registerReceiver many
  | unregisterLocked side' id forward k =>
    cases hl
    simp only [AgentPc.exec] at h
    split at h
    · rename_i hp
      cases h
      exact .remove side id forward k hp
    · rename_i hp
      have ha : c.parked side id = false := by simpa using hp
      cases h
      exact .absent side id forward k ha
  | notify side' limit k =>
    cases hl
    cases limit with
    | none =>
      cases h
      exact .notifyAll side k
    | some limit =>
      cases h
      exact .notifyMany side limit k
  | _ => cases hl

omit [DecidableEq Tid] in
/-- A section leaves the other list, and every future, alone. -/
theorem Locked.frame {side other : Side} (h : Locked cfg c t side pc c' n) (ho : other ≠ side) :
    c'.list other = c.list other ∧ c'.count other = c.count other := by
  cases h with
  | absent side id forward k _ => exact ⟨rfl, rfl⟩
  | _ => exact ⟨Function.update_of_ne ho _ _, Function.update_of_ne ho _ _⟩

omit [DecidableEq Tid] in
theorem Locked.ids {side : Side} (h : Locked cfg c t side pc c' n) :
    c.nextWaiterId ≤ c'.nextWaiterId ∧ c'.future = c.future := by
  cases h with
  | registerSender v | registerReceiver many => exact ⟨Nat.le_succ _, rfl⟩
  | _ => exact ⟨le_rfl, rfl⟩

omit [DecidableEq Tid] in
/-- A section carries the registration on, except that it takes one up in
`register` and gives up that of its own list in `unregister`. -/
theorem Locked.carries {side : Side} {r : Side × ℕ} (h : Locked cfg c t side pc c' n)
    (hr : registration pc = some r) (ho : r.1 ≠ side ∨ ∃ limit k, pc = .notify side limit k) :
    Carries (registration pc) n := by
  cases h with
  | registerSender v | registerReceiver many => cases hr
  | remove side id forward k _ | absent side id forward k _ =>
    obtain rfl := Option.some.inj hr
    rcases ho with ho | ⟨limit, k, ho⟩
    · exact absurd rfl ho
    · cases ho
  | notifyMany side limit k | notifyAll side k => exact carries_wakeAll _ k

/-- A step of an agent that is about to take a lock is that section. -/
theorem locked_step {s s' : ChannelMachine.State Tid V} {l : ChannelMachine.Label V} {side : Side}
    (h : ChannelMachine.Step cfg s (t, l) s') (hl : lockOf (s.pc t) = some side) :
    ∃ c n, Locked cfg s.shared t side (s.pc t) c n ∧ l = ⟨entered cfg n.1, none, n.2, none⟩ ∧
      s' = ⟨c, Function.update s.pc t n.1⟩ := by
  rcases ChannelMachine.step_cases cfg h with ⟨op, c, n, hstart, -, -, -⟩ |
    ⟨k, pc, fail, o, hpc, -, -, -⟩ | ⟨fail, c, n, hexec, rfl, rfl⟩
  · generalize s.pc t = pc at hstart hl
    cases hstart <;> cases hl
  · rw [hpc] at hl
    cases hl
  · refine ⟨c, n, locked_of_exec hexec hl, ?_, rfl⟩
    have hflip : (s.pc t).flip s.shared = none := by
      generalize s.pc t = pc at hl
      cases pc <;> first | rfl | cases hl
    rw [hflip]

/-- Starting an operation leaves the registration and the lists alone, and makes
a new future only where there was none. -/
theorem start_carries {op : ChannelMachine.Op V} (h : Starts cfg c t pc op c' n) :
    Carries (registration pc) n ∧ c'.list = c.list ∧ c'.count = c.count ∧
      c'.nextWaiterId = c.nextWaiterId ∧ (registration pc = none ∨ c'.future = c.future) ∧
      ∀ u, u ≠ t → c'.future u = c.future u := by
  cases h with
  | send v | recv | recvMany limit =>
    refine ⟨⟨rfl, nofun⟩, rfl, rfl, rfl, .inl rfl, fun u hu => ?_⟩
    exact Function.update_of_ne hu _ _
  | trySend v | tryRecv | close | dropLast side | len | pollSend v | clone side =>
    exact ⟨⟨rfl, nofun⟩, rfl, rfl, rfl, .inl rfl, fun _ _ => rfl⟩
  | dropHandle side | dropFreshSend v | dropFreshRecv many =>
    exact ⟨⟨rfl, fun _ => rfl⟩, rfl, rfl, rfl, .inl rfl, fun _ _ => rfl⟩
  | repollSend v id | repollRecv id many | dropSend v id | dropRecv id many =>
    exact ⟨⟨rfl, nofun⟩, rfl, rfl, rfl, .inr rfl, fun _ _ => rfl⟩
  | pollRecv many =>
    refine ⟨?_, rfl, rfl, rfl, .inl rfl, fun _ _ => rfl⟩
    cases many with
    | none => exact ⟨rfl, nofun⟩
    | some limit =>
      simp only [firstPoll]
      split <;> exact ⟨rfl, fun _ => rfl⟩

theorem wake_lists (c : Shared Tid V) (w : Waker Tid) :
    (c.wake w).list = c.list ∧ (c.wake w).count = c.count ∧
      (c.wake w).nextWaiterId = c.nextWaiterId ∧ (c.wake w).future = c.future := by
  unfold Shared.wake
  split <;> exact ⟨rfl, rfl, rfl, rfl⟩

/-- No step outside the queue makes a new future. -/
theorem exec_future (h : pc.exec cfg c t fail = some (c', n)) : c'.future = c.future := by
  cases pc with
  | unregisterLocked side id forward k =>
    simp only [AgentPc.exec] at h
    split at h <;> cases h <;> rfl
  | notify side limit k => cases limit <;> cases h <;> rfl
  | waking wakers k =>
    cases wakers with
    | nil =>
      cases h
      rfl
    | cons w wakers =>
      cases h
      exact (wake_lists c w).2.2.2
  | wakeSelf id many =>
    cases h
    exact (wake_lists c _).2.2.2
  | idle | fault | sending v id | receiving id many | queue k pc => cases h
  | _ =>
    cases h
    rfl

/-- A step that needs no lock leaves the lists alone. It leaves the registration
alone too, unless a counter that reads zero lets `unregister` end at once. -/
theorem exec_unlocked (h : pc.exec cfg c t fail = some (c', n)) (hl : lockOf pc = none) :
    (c'.list = c.list ∧ c'.count = c.count ∧ c'.nextWaiterId = c.nextWaiterId) ∧
      (Carries (registration pc) n ∨
        ∃ side id k, pc = .unregister side id k ∧ c.count side = 0 ∧
          Carries (Kont.registration k) n) := by
  cases pc with
  | trySend k v =>
    cases h
    refine ⟨⟨rfl, rfl, rfl⟩, .inl ?_⟩
    split
    · exact carries_sendClosed v k
    · cases k with
      | second id => exact ⟨rfl, nofun⟩
      | _ => exact ⟨rfl, fun _ => rfl⟩
  | recvState k =>
    cases h
    refine ⟨⟨rfl, rfl, rfl⟩, .inl ?_⟩
    split
    · exact ⟨rfl, nofun⟩
    · exact carries_recvEmpty k
  | unregister side id k =>
    cases h
    refine ⟨⟨rfl, rfl, rfl⟩, ?_⟩
    split
    · rename_i hc
      exact .inr ⟨side, id, k, rfl, hc, carries_resume k⟩
    · exact .inl ⟨rfl, nofun⟩
  | waking wakers k =>
    cases wakers with
    | nil =>
      cases h
      exact ⟨⟨rfl, rfl, rfl⟩, .inl (carries_resume k)⟩
    | cons w wakers =>
      cases h
      obtain ⟨hlist, hcount, hnext, -⟩ := wake_lists c w
      exact ⟨⟨hlist, hcount, hnext⟩, .inl (carries_wakeAll wakers k)⟩
  | wakeSelf id many =>
    cases h
    obtain ⟨hlist, hcount, hnext, -⟩ := wake_lists c (c.waker t)
    exact ⟨⟨hlist, hcount, hnext⟩, .inl ⟨rfl, nofun⟩⟩
  | closeSwap who =>
    cases h
    refine ⟨⟨rfl, rfl, rfl⟩, .inl ?_⟩
    split <;> exact ⟨rfl, fun _ => rfl⟩
  | append v limit =>
    cases h
    refine ⟨⟨rfl, rfl, rfl⟩, .inl ?_⟩
    split
    · exact ⟨rfl, fun _ => rfl⟩
    · exact carries_manyLoop _
  | registerSender v | registerReceiver many | unregisterLocked side id forward k
  | notify side limit k => cases hl
  | idle | fault | sending v id | receiving id many | queue k pc => cases h

/-- A step of an agent that takes no lock: the lists stay, a registered future
stays the same, and the registration goes on unless `unregister` ended at once. -/
structure Unlocked (s s' : ChannelMachine.State Tid V) (t : Tid) (l : ChannelMachine.Label V) :
    Prop where
  lists : s'.shared.list = s.shared.list
  counts : s'.shared.count = s.shared.count
  ids : s'.shared.nextWaiterId = s.shared.nextWaiterId
  future : ∀ u, registration (s.pc u) ≠ none → s'.shared.future u = s.shared.future u
  carries : Carries (registration (s.pc t)) (s'.pc t, l.ret) ∨
    ∃ side id k, s.pc t = .unregister side id k ∧ s.shared.count side = 0 ∧
      Carries (Kont.registration k) (s'.pc t, l.ret)

theorem unlocked_step {s s' : ChannelMachine.State Tid V} {l : ChannelMachine.Label V}
    {σ : List (Tid × QueueMachine.Label V)} (hq : QueueMachine.Reach cfg σ (queueState s))
    (hok : ∀ u, AgentOk cfg u (s.pc u)) (h : ChannelMachine.Step cfg s (t, l) s')
    (hl : lockOf (s.pc t) = none) : Unlocked s s' t l := by
  rcases ChannelMachine.step_cases cfg h with ⟨op, c, n, hstart, -, rfl, rfl⟩ |
    ⟨k, pc, fail, o, hpc, ho, rfl, rfl⟩ | ⟨fail, c, n, hexec, rfl, rfl⟩
  · obtain ⟨hcarries, hlist, hcount, hnext, hfuture, hothers⟩ := start_carries hstart
    refine ⟨hlist, hcount, hnext, fun u hu => ?_, .inl ?_⟩
    · by_cases hut : u = t
      · subst hut
        exact congrFun (hfuture.resolve_left hu) u
      · exact hothers u hut
    · simpa only [Function.update_self] using hcarries
  · obtain ⟨g, hg⟩ := QueueInvariant.reach_inv hq
    obtain ⟨g', hg', -⟩ := queue_access hg hpc ho
    have hin := (hok t).inside
    rw [hpc] at hin
    have hcarries : Carries _ (k.next cfg o.2.1) := carries_next (exec_fits hin ho).2 hg'.sound
    refine ⟨rfl, rfl, rfl, fun _ _ => rfl, .inl ?_⟩
    simpa only [Function.update_self, hpc, registration] using hcarries
  · obtain ⟨⟨hlist, hcount, hnext⟩, hcarries⟩ := exec_unlocked hexec hl
    refine ⟨hlist, hcount, hnext, fun u _ => congrFun (exec_future hexec) u, ?_⟩
    simpa only [Function.update_self] using hcarries

end Sections

end Rapidfire.ChannelWaiters
