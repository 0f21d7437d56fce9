import Rapidfire.ChannelWaiters

/-!
# Turns of an agent

Where an agent goes on to, in one list of cases for each kind of its steps: after
it unregistered or notified, after an operation of the queue, and by a step
outside the queue that takes no lock.
-/

namespace Rapidfire.ChannelTurns

open Positions QueueMemory QueuePop QueueMachine ChannelState ChannelMachine ChannelQueue
  ChannelWaiters Runs

variable {Tid V : Type} {cfg : Config Tid}

/-- Where an agent goes on to after it unregistered or notified. -/
inductive Resumes (cfg : Config Tid) : Kont V → Goes Tid V → Prop where
  | sendFirst (v : V) : Resumes cfg (.sendFirst v) (.trySend .first v, none)
  | recvFirst (many : Option ℕ) :
      Resumes cfg (.recvFirst many) (enter cfg (.pop (.first many)), none)
  | sentCall : Resumes cfg (.sent .call) (.idle, some (.trySend .ok))
  | sentFirst : Resumes cfg (.sent .first) (.idle, some (.send .ok))
  | sentSecond (id : ℕ) : Resumes cfg (.sent (.second id))
      (.unregisterLocked .senders id true (.sendReady .ok), none)
  | receivedCall (v : V) : Resumes cfg (.received .call v) (.idle, some (.tryRecv (.ok v)))
  | receivedFirst (many : Option ℕ) (v : V) (n : Goes Tid V) :
      Resumes cfg (.recvReady (some v) many) n → Resumes cfg (.received (.first many) v) n
  | receivedSecond (id tail wait : ℕ) (many : Option ℕ) (v : V) :
      Resumes cfg (.received (.second id tail wait many) v)
        (.unregisterLocked .receivers id true (.recvReady (some v) many), none)
  | awaits (many : Many V) : many.values = [] →
      Resumes cfg (.batched 0 many) (enter cfg (.pop (.first (some many.limit))), none)
  | more (got : ℕ) (many : Many V) : got ≠ 0 →
      Resumes cfg (.batched got many) (enter cfg (.batch many), none)
  | filled (got : ℕ) (many : Many V) :
      Resumes cfg (.batched got many) (.idle, some (.recvMany (some many.values)))
  | sendReady (r : SendResult V) : Resumes cfg (.sendReady r) (.idle, some (.send r))
  | recvReady (v : V) : Resumes cfg (.recvReady (some v) none) (.idle, some (.recv (.ok v)))
  | recvClosed : Resumes cfg (.recvReady none none) (.idle, some (.recv .closed))
  | append (v : V) (limit : ℕ) :
      Resumes cfg (.recvReady (some v) (some limit)) (.append v limit, none)
  | manyClosed (limit : ℕ) :
      Resumes cfg (.recvReady none (some limit)) (.idle, some (.recvMany none))
  | closeSenders (who : Closer) :
      Resumes cfg (.closeSenders who) (.notify .senders none (.closeDone who), none)
  | closeCall : Resumes cfg (.closeDone .call) (.idle, some (.closed true))
  | closeLast (side : Side) : Resumes cfg (.closeDone (.last side)) (.idle, some .dropped)
  | dropped (side : Side) : Resumes cfg (.dropped side) (.idle, some .dropped)

/-- The result of a pop, shared or exclusive, that took a value. -/
def Popped (r : QueueMachine.Ret V) (v : V) (wake : Bool) : Prop :=
  ∃ head, r = .pop (.popped head v wake) ∨ r = .single (.popped head v wake)

/-- The result of a pop that found nothing. -/
def FoundNothing (r : QueueMachine.Ret V) : Prop := r = .pop .nothing ∨ r = .single .nothing

/-- Another round of a registered receive, or the poll wakes itself and gives up. -/
inductive Again (cfg : Config Tid) (id tail wait : ℕ) (many : Option ℕ) : Goes Tid V → Prop where
  | round (wait' : ℕ) : snoozeBounded wait = some wait' →
      Again cfg id tail wait many (enter cfg (.pop (.second id tail wait' many)), none)
  | gaveUp : snoozeBounded wait = none → Again cfg id tail wait many (.wakeSelf id many, none)

/-- Where an agent goes on to after an operation of the queue. -/
inductive Finishes (cfg : Config Tid) : QueueK V → QueueMachine.Ret V → Goes Tid V → Prop where
  | sent (k : SendK) (v : V) (tail : ℕ) (n : Goes Tid V) : Resumes cfg (.sent k) n →
      Finishes cfg (.push k v) (.push (.pushed tail false)) n
  | sentWake (k : SendK) (v : V) (tail : ℕ) :
      Finishes cfg (.push k v) (.push (.pushed tail true))
        (.notify .receivers (some 1) (.sent k), none)
  | fullCall (v w : V) :
      Finishes cfg (.push .call v) (.push (.full w)) (.idle, some (.trySend (.full w)))
  | fullFirst (v w : V) :
      Finishes cfg (.push .first v) (.push (.full w)) (.registerSender w, none)
  | fullSecond (id : ℕ) (v w : V) :
      Finishes cfg (.push (.second id) v) (.push (.full w)) (.sending w (some id), some .pending)
  | senderParked (id : ℕ) (v : V) (head : ℕ) :
      Finishes cfg (.parkSender id v) (.read (.parked head)) (.trySend (.second id) v, none)
  | received (k : RecvK) (r : QueueMachine.Ret V) (v : V) (n : Goes Tid V) : Popped r v false →
      Resumes cfg (.received k v) n → Finishes cfg (.pop k) r n
  | receivedWake (k : RecvK) (r : QueueMachine.Ret V) (v : V) : Popped r v true →
      Finishes cfg (.pop k) r (.notify .senders (some 1) (.received k v), none)
  | nothing (k : RecvK) (r : QueueMachine.Ret V) : FoundNothing r →
      Finishes cfg (.pop k) r (.recvState k, none)
  | receiverParked (id : ℕ) (many : Option ℕ) (tail : ℕ) :
      Finishes cfg (.parkReceiver id many) (.read (.parked tail))
        (enter cfg (.pop (.second id tail 0 many)), none)
  | drainedCall :
      Finishes cfg (.isEmpty .call) (.read (.answer true)) (.idle, some (.tryRecv .closed))
  | drainedFirst (many : Option ℕ) (n : Goes Tid V) : Resumes cfg (.recvReady none many) n →
      Finishes cfg (.isEmpty (.first many)) (.read (.answer true)) n
  | drainedSecond (id tail wait : ℕ) (many : Option ℕ) :
      Finishes cfg (.isEmpty (.second id tail wait many)) (.read (.answer true))
        (.unregister .receivers id (.recvReady none many), none)
  | busyCall :
      Finishes cfg (.isEmpty .call) (.read (.answer false)) (enter cfg (.pop .call), none)
  | busyFirst (many : Option ℕ) :
      Finishes cfg (.isEmpty (.first many)) (.read (.answer false)) (.registerReceiver many, none)
  | busySecond (id tail wait : ℕ) (many : Option ℕ) (n : Goes Tid V) :
      Again cfg id tail wait many n →
      Finishes cfg (.isEmpty (.second id tail wait many)) (.read (.answer false)) n
  | claimsBelow (id tail wait : ℕ) (many : Option ℕ) (n : Goes Tid V) :
      Again cfg id tail wait many n →
      Finishes cfg (.claimsBelow id tail wait many) (.read (.answer true)) n
  | trulyEmpty (id tail wait : ℕ) (many : Option ℕ) :
      Finishes cfg (.claimsBelow id tail wait many) (.read (.answer false))
        (.receiving (some id) many, some .pending)
  | batch (many : Many V) (head : ℕ) (values : List V) (n : Goes Tid V) :
      Resumes cfg (.batched values.length { many with values := many.values ++ values }) n →
      Finishes cfg (.batch many) (.single (.batch head values 0)) n
  | batchWake (many : Many V) (head : ℕ) (values : List V) (wake : ℕ) : wake ≠ 0 →
      Finishes cfg (.batch many) (.single (.batch head values wake))
        (.notify .senders (some wake)
          (.batched values.length { many with values := many.values ++ values }), none)
  | unwound (many : Many V) :
      Finishes cfg (.batch many) (.single .unwound) (.idle, some (.unwound many.values none))
  | len (n : ℕ) : Finishes cfg .len (.read (.length n)) (.idle, some (.length n))

section Local

theorem resumes_recvReady (v : Option V) (many : Option ℕ) :
    Resumes cfg (.recvReady v many) (recvReady v many) := by
  cases many with
  | none =>
    cases v with
    | none => exact .recvClosed
    | some v => exact .recvReady v
  | some limit =>
    cases v with
    | none => exact .manyClosed limit
    | some v => exact .append v limit

theorem resumes_manyLoop {got : ℕ} (many : Many V) (h : got ≠ 0) :
    Resumes cfg (.batched got many) (manyLoop cfg many) := by
  unfold manyLoop
  split
  · exact .more got many h
  · exact .filled got many

/-- `resume` goes on to one of the listed program points. -/
theorem resumes_resume (k : Kont V) : Resumes cfg k (resume cfg k) := by
  cases k with
  | sendFirst v => exact .sendFirst v
  | recvFirst many => exact .recvFirst many
  | sent k =>
    cases k with
    | call => exact .sentCall
    | first => exact .sentFirst
    | second id => exact .sentSecond id
  | received k v =>
    cases k with
    | call => exact .receivedCall v
    | first many => exact .receivedFirst many v _ (resumes_recvReady (some v) many)
    | second id tail wait many => exact .receivedSecond id tail wait many v
  | batched got many =>
    simp only [resume, manyGot]
    split
    · rename_i hgot
      subst hgot
      split
      · rename_i hv
        exact .awaits many hv
      · exact .filled 0 many
    · rename_i hgot
      exact resumes_manyLoop many hgot
  | sendReady r => exact .sendReady r
  | recvReady v many => exact resumes_recvReady v many
  | closeSenders who => exact .closeSenders who
  | closeDone who =>
    cases who with
    | call => exact .closeCall
    | last side => exact .closeLast side
  | dropped side => exact .dropped side

/-- Wakers are invoked one by one, then the agent goes on. -/
theorem wakeAll_cases (cfg : Config Tid) (wakers : List (Waker Tid)) (k : Kont V) :
    wakers = [] ∧ Resumes cfg k (wakeAll cfg wakers k) ∨
      wakers ≠ [] ∧ wakeAll cfg wakers k = (.waking wakers k, none) := by
  cases wakers with
  | nil => exact .inl ⟨rfl, resumes_resume k⟩
  | cons w wakers => exact .inr ⟨by simp, rfl⟩

theorem again_recvAgain (id tail wait : ℕ) (many : Option ℕ) :
    Again (V := V) cfg id tail wait many (recvAgain cfg id tail wait many) := by
  unfold recvAgain
  split
  · rename_i wait' hw
    exact .round wait' hw
  · rename_i hw
    exact .gaveUp hw

/-- After an operation of the queue an agent goes on to one of the listed
program points. -/
theorem finishes {k : QueueK V} {r : QueueMachine.Ret V} (h : FitsRet k r) :
    Finishes cfg k r (k.finish cfg r) := by
  cases h with
  | pushed k v tail wake =>
    cases wake with
    | true => exact .sentWake k v tail
    | false => exact .sent k v tail _ (resumes_resume (.sent k))
  | full k v w =>
    cases k with
    | call => exact .fullCall v w
    | first => exact .fullFirst v w
    | second id => exact .fullSecond id v w
  | senderParked id v head => exact .senderParked id v head
  | popped k head v wake =>
    cases wake with
    | true => exact .receivedWake k _ v ⟨head, .inl rfl⟩
    | false => exact .received k _ v _ ⟨head, .inl rfl⟩ (resumes_resume (.received k v))
  | poppedSingle k head v wake =>
    cases wake with
    | true => exact .receivedWake k _ v ⟨head, .inr rfl⟩
    | false => exact .received k _ v _ ⟨head, .inr rfl⟩ (resumes_resume (.received k v))
  | nothing k => exact .nothing k _ (.inl rfl)
  | nothingSingle k => exact .nothing k _ (.inr rfl)
  | receiverParked id many tail => exact .receiverParked id many tail
  | isEmpty k empty =>
    cases empty with
    | true =>
      cases k with
      | call => exact .drainedCall
      | first many => exact .drainedFirst many _ (resumes_recvReady none many)
      | second id tail wait many => exact .drainedSecond id tail wait many
    | false =>
      cases k with
      | call => exact .busyCall
      | first many => exact .busyFirst many
      | second id tail wait many =>
        exact .busySecond id tail wait many _ (again_recvAgain id tail wait many)
  | claimsBelow id tail wait many below =>
    cases below with
    | true => exact .claimsBelow id tail wait many _ (again_recvAgain id tail wait many)
    | false => exact .trulyEmpty id tail wait many
  | batch many head values wake =>
    rw [finish_batch]
    split
    · rename_i hw
      exact .batchWake many head values wake hw
    · rename_i hw
      obtain rfl : wake = 0 := by omega
      exact .batch many head values _ (resumes_resume (.batched _ _))
  | unwound many => exact .unwound many
  | len n => exact .len n

end Local

section Outside

variable [DecidableEq Tid] {c c' : Shared Tid V} {t : Tid} {n : Goes Tid V} {pc : AgentPc Tid V}
  {fail : Bool}

/-- Steps outside the queue that take no lock: the shared state after the step,
and where the agent goes on to. -/
inductive Acts (cfg : Config Tid) (c : Shared Tid V) (t : Tid) :
    AgentPc Tid V → Shared Tid V → Goes Tid V → Prop where
  | sendOpen (k : SendK) (v : V) : c.closed = false →
      Acts cfg c t (.trySend k v) c (enter cfg (.push k v), none)
  | sendClosedCall (v : V) : c.closed = true →
      Acts cfg c t (.trySend .call v) c (.idle, some (.trySend (.closed v)))
  | sendClosedFirst (v : V) : c.closed = true →
      Acts cfg c t (.trySend .first v) c (.idle, some (.send (.closed v)))
  | sendClosedSecond (id : ℕ) (v : V) : c.closed = true →
      Acts cfg c t (.trySend (.second id) v) c
        (.unregister .senders id (.sendReady (.closed v)), none)
  | recvClosed (k : RecvK) : c.closed = true →
      Acts cfg c t (.recvState k) c (enter cfg (.isEmpty k), none)
  | emptyCall : c.closed = false →
      Acts cfg c t (.recvState .call) c (.idle, some (.tryRecv .empty))
  | emptyFirst (many : Option ℕ) : c.closed = false →
      Acts cfg c t (.recvState (.first many)) c (.registerReceiver many, none)
  | emptySecond (id tail wait : ℕ) (many : Option ℕ) : c.closed = false →
      Acts cfg c t (.recvState (.second id tail wait many)) c
        (enter cfg (.claimsBelow id tail wait many), none)
  | readsZero (side : Side) (id : ℕ) (k : Kont V) (n : Goes Tid V) : c.count side = 0 →
      Resumes cfg k n → Acts cfg c t (.unregister side id k) c n
  | readsWaiters (side : Side) (id : ℕ) (k : Kont V) : c.count side ≠ 0 →
      Acts cfg c t (.unregister side id k) c (.unregisterLocked side id false k, none)
  | wokeNone (k : Kont V) (n : Goes Tid V) : Resumes cfg k n → Acts cfg c t (.waking [] k) c n
  | wokeLast (w : Waker Tid) (k : Kont V) (n : Goes Tid V) : Resumes cfg k n →
      Acts cfg c t (.waking [w] k) (c.wake w) n
  | woke (w : Waker Tid) (wakers : List (Waker Tid)) (k : Kont V) : wakers ≠ [] →
      Acts cfg c t (.waking (w :: wakers) k) (c.wake w) (.waking wakers k, none)
  | wokeSelf (id : ℕ) (many : Option ℕ) :
      Acts cfg c t (.wakeSelf id many) (c.wake (c.waker t))
        (.receiving (some id) many, some .pending)
  | flips (who : Closer) : c.closed = false →
      Acts cfg c t (.closeSwap who) { c with closed := true }
        (.notify .receivers none (.closeSenders who), none)
  | closedCall : c.closed = true →
      Acts cfg c t (.closeSwap .call) { c with closed := true } (.idle, some (.closed false))
  | closedLast (side : Side) : c.closed = true →
      Acts cfg c t (.closeSwap (.last side)) { c with closed := true } (.idle, some .dropped)
  | unwinds (v : V) (limit : ℕ) :
      Acts cfg c t (.append v limit) c (.idle, some (.unwound [] (some v)))
  | appends (v : V) (limit : ℕ) (n : Goes Tid V) : Resumes cfg (.batched 1 ⟨limit, [v]⟩) n →
      Acts cfg c t (.append v limit) c n

theorem wake_queue (c : Shared Tid V) (w : Waker Tid) :
    (c.wake w).queue = c.queue ∧ (c.wake w).closed = c.closed := by
  unfold Shared.wake
  split <;> exact ⟨rfl, rfl⟩

/-- Outside the queue, an agent leaves the queue alone. -/
theorem Acts.queue (h : Acts cfg c t pc c' n) : c'.queue = c.queue := by
  cases h with
  | wokeLast w k n _ => exact (wake_queue c w).1
  | woke w wakers k _ => exact (wake_queue c w).1
  | wokeSelf id many => exact (wake_queue c _).1
  | _ => rfl

omit [DecidableEq Tid] in
/-- A section leaves the queue and the flag alone. -/
theorem queue_of_locked {side : Side} (h : Locked cfg c t side pc c' n) :
    c'.queue = c.queue ∧ c'.closed = c.closed := by
  cases h <;> exact ⟨rfl, rfl⟩

/-- A step outside the queue is one of the listed ones, or a section of a list. -/
theorem acts_of_exec (h : pc.exec cfg c t fail = some (c', n)) :
    Acts cfg c t pc c' n ∨ ∃ side, Locked cfg c t side pc c' n := by
  cases pc with
  | trySend k v =>
    cases h
    left
    split
    · rename_i hc
      cases k with
      | call => exact .sendClosedCall v hc
      | first => exact .sendClosedFirst v hc
      | second id => exact .sendClosedSecond id v hc
    · rename_i hc
      exact .sendOpen k v (by simpa using hc)
  | recvState k =>
    cases h
    left
    split
    · rename_i hc
      exact .recvClosed k hc
    · rename_i hc
      have hopen : c.closed = false := by simpa using hc
      cases k with
      | call => exact .emptyCall hopen
      | first many => exact .emptyFirst many hopen
      | second id tail wait many => exact .emptySecond id tail wait many hopen
  | unregister side id k =>
    cases h
    left
    split
    · rename_i hc
      exact .readsZero side id k _ hc (resumes_resume k)
    · rename_i hc
      exact .readsWaiters side id k hc
  | waking wakers k =>
    cases wakers with
    | nil =>
      cases h
      exact .inl (.wokeNone k _ (resumes_resume k))
    | cons w wakers =>
      cases h
      left
      rcases wakeAll_cases cfg wakers k with ⟨rfl, hr⟩ | ⟨hne, hw⟩
      · exact .wokeLast w k _ hr
      · rw [hw]
        exact .woke w wakers k hne
  | wakeSelf id many =>
    cases h
    exact .inl (.wokeSelf id many)
  | closeSwap who =>
    cases h
    left
    split
    · rename_i hc
      cases who with
      | call => exact .closedCall hc
      | last side => exact .closedLast side hc
    · rename_i hc
      exact .flips who (by simpa using hc)
  | append v limit =>
    cases h
    left
    split
    · exact .unwinds v limit
    · exact .appends v limit _ (resumes_manyLoop _ Nat.one_ne_zero)
  | registerSender v | registerReceiver many | unregisterLocked side id forward k
  | notify side limit k => exact .inr ⟨_, locked_of_exec h rfl⟩
  | idle | fault | sending v id | receiving id many | queue k pc => cases h

/-- Inside the queue, an agent moves on to a program point of its operation, or
ends it. -/
theorem ends_of_access {s : ChannelMachine.State Tid V} {σ : List (Tid × QueueMachine.Label V)}
    (hq : QueueMachine.Reach cfg σ (queueState s)) (hok : AgentOk cfg t (s.pc t)) {k : QueueK V}
    {pc : Pc V} (hpc : s.pc t = .queue k pc) {o : Outcome V (Pc V) (QueueMachine.Ret V)}
    (ho : pc.exec cfg (sampledCount s.shared pc) fail s.shared.queue = some o) :
    (∃ pc', o.2.1 = .goto pc' ∧ k.next cfg o.2.1 = (.queue k pc', none)) ∨
      ∃ r, o.2.1 = .ret r ∧ FitsRet k r ∧ Finishes cfg k r (k.next cfg o.2.1) := by
  obtain ⟨g, hg⟩ := QueueInvariant.reach_inv hq
  obtain ⟨g', hg', -⟩ := queue_access hg hpc ho
  have hin := hok.inside
  rw [hpc] at hin
  have hret := (exec_fits hin ho).2
  cases hn : o.2.1 with
  | goto pc' => exact .inl ⟨pc', rfl, rfl⟩
  | ret r => exact .inr ⟨r, rfl, hret r hn, finishes (hret r hn)⟩
  | fault => exact absurd hn hg'.sound

/-- The agent is in the middle of an operation or a poll. -/
def moving : AgentPc Tid V → Bool
  | .idle | .fault | .sending _ _ | .receiving _ _ => false
  | _ => true

/-- An agent in the middle of something can always take a step. -/
theorem run_enabled {s : ChannelMachine.State Tid V} (hok : AgentOk cfg t (s.pc t))
    (hm : moving (s.pc t) = true) (fail : Bool) :
    (∃ c n, (Acts cfg s.shared t (s.pc t) c n ∨ ∃ side, Locked cfg s.shared t side (s.pc t) c n) ∧
      s.step cfg t (.run fail) = some (⟨entered cfg n.1, none, n.2, (s.pc t).flip s.shared⟩,
        ⟨c, Function.update s.pc t n.1⟩)) ∨
    ∃ k pc o, s.pc t = .queue k pc ∧
      pc.exec cfg (sampledCount s.shared pc) fail s.shared.queue = some o ∧
      s.step cfg t (.run fail) =
        some (⟨.access o.2.2 (nextRet o.2.1) :: called cfg (k.next cfg o.2.1).1 o.2.1, none,
          (k.next cfg o.2.1).2, none⟩,
          ⟨{ s.shared with queue := o.1 }, Function.update s.pc t (k.next cfg o.2.1).1⟩) := by
  have hdo : ∀ c n, (s.pc t).exec cfg s.shared t fail = some (c, n) →
      (∀ k pc, s.pc t ≠ .queue k pc) →
      (Acts cfg s.shared t (s.pc t) c n ∨ ∃ side, Locked cfg s.shared t side (s.pc t) c n) ∧
      s.step cfg t (.run fail) = some (⟨entered cfg n.1, none, n.2, (s.pc t).flip s.shared⟩,
        ⟨c, Function.update s.pc t n.1⟩) := by
    intro c n hexec hne
    refine ⟨acts_of_exec hexec, ?_⟩
    simp only [ChannelMachine.State.step]
    rw [hexec]
  cases hpc : s.pc t with
  | queue k pc =>
    have hin := hok.inside
    rw [hpc] at hin
    have hsome : ∃ o, pc.exec cfg (sampledCount s.shared pc) fail s.shared.queue = some o := by
      cases hin <;> exact ⟨_, rfl⟩
    obtain ⟨o, ho⟩ := hsome
    refine .inr ⟨k, pc, o, rfl, ho, ?_⟩
    simp only [ChannelMachine.State.step, hpc, ho]
  | idle | fault | sending v id | receiving id many =>
    rw [hpc] at hm
    cases hm
  | unregisterLocked side id forward k =>
    left
    by_cases hp : s.shared.parked side id = true
    · exact ⟨_, _, hpc ▸ hdo _ _ (by rw [hpc, AgentPc.exec, if_pos hp]) (by simp [hpc])⟩
    · exact ⟨_, _, hpc ▸ hdo _ _ (by rw [hpc, AgentPc.exec, if_neg hp]) (by simp [hpc])⟩
  | notify side limit k =>
    left
    cases limit with
    | none | some limit => exact ⟨_, _, hpc ▸ hdo _ _ (by rw [hpc]; rfl) (by simp [hpc])⟩
  | waking wakers k =>
    left
    cases wakers with
    | nil | cons w wakers => exact ⟨_, _, hpc ▸ hdo _ _ (by rw [hpc]; rfl) (by simp [hpc])⟩
  | _ => exact .inl ⟨_, _, hpc ▸ hdo _ _ (by rw [hpc]; rfl) (by simp [hpc])⟩

/-- A step of the channel: an operation starts, an agent takes a turn outside
the queue, goes through a section of a list, moves on inside the queue, or
ends an operation of the queue. -/
theorem turns {s s' : ChannelMachine.State Tid V} {l : ChannelMachine.Label V}
    {σ : List (Tid × QueueMachine.Label V)} (hq : QueueMachine.Reach cfg σ (queueState s))
    (hok : ∀ u, AgentOk cfg u (s.pc u)) (h : ChannelMachine.Step cfg s (t, l) s') :
    (∃ op c n, Starts cfg s.shared t (s.pc t) op c n ∧ op.Allowed cfg s t ∧
      l = ⟨entered cfg n.1, some op, n.2, none⟩ ∧ s' = ⟨c, Function.update s.pc t n.1⟩) ∨
    (∃ c n, Acts cfg s.shared t (s.pc t) c n ∧
      l = ⟨entered cfg n.1, none, n.2, (s.pc t).flip s.shared⟩ ∧
      s' = ⟨c, Function.update s.pc t n.1⟩) ∨
    (∃ side c n, Locked cfg s.shared t side (s.pc t) c n ∧
      l = ⟨entered cfg n.1, none, n.2, (s.pc t).flip s.shared⟩ ∧
      s' = ⟨c, Function.update s.pc t n.1⟩) ∨
    ∃ k pc fail o, s.pc t = .queue k pc ∧
      pc.exec cfg (sampledCount s.shared pc) fail s.shared.queue = some o ∧
      l = ⟨.access o.2.2 (nextRet o.2.1) :: called cfg (k.next cfg o.2.1).1 o.2.1, none,
        (k.next cfg o.2.1).2, none⟩ ∧
      s' = ⟨{ s.shared with queue := o.1 }, Function.update s.pc t (k.next cfg o.2.1).1⟩ ∧
      ((∃ pc', o.2.1 = .goto pc' ∧ k.next cfg o.2.1 = (.queue k pc', none)) ∨
        ∃ r, o.2.1 = .ret r ∧ FitsRet k r ∧ Finishes cfg k r (k.next cfg o.2.1)) := by
  rcases ChannelMachine.step_cases cfg h with hstart | ⟨k, pc, fail, o, hpc, ho, hl, hs⟩ |
    ⟨fail, c, n, hexec, hl, hs⟩
  · exact .inl hstart
  · exact .inr (.inr (.inr ⟨k, pc, fail, o, hpc, ho, hl, hs, ends_of_access hq (hok t) hpc ho⟩))
  · rcases acts_of_exec hexec with ha | ⟨side, hlocked⟩
    · exact .inr (.inl ⟨c, n, ha, hl, hs⟩)
    · exact .inr (.inr (.inl ⟨side, c, n, hlocked, hl, hs⟩))

end Outside

end Rapidfire.ChannelTurns
