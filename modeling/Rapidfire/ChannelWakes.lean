import Rapidfire.ChannelMutex
import Rapidfire.ChannelTurns

/-!
# Wakes

A future that waits is listed, or has been woken, or its waker is in the hands
of an agent that took its entry out and is about to invoke it. This holds from
the registration to the next poll, whoever notifies or unregisters meanwhile.
-/

namespace Rapidfire.ChannelWakes

open Positions QueueMemory QueueMachine ChannelState ChannelMachine ChannelQueue ChannelWaiters
  ChannelTurns ChannelMutex Runs

variable {Tid V : Type} {cfg : Config Tid} {t u : Tid}

/-- The side an agent wakes before it goes on. -/
def Kont.wakes : Kont V → Option Side
  | .sent _ | .recvReady _ _ | .closeSenders _ => some .receivers
  | .received _ _ | .batched _ _ | .sendReady _ | .closeDone _ => some .senders
  | .dropped side => some side
  | .sendFirst _ | .recvFirst _ => none

/-- What follows an `unregister` that forwards no wake. -/
def absorbs : Side → Kont V → Bool
  | .senders, .sendFirst _ | .senders, .sendReady (.closed _) => true
  | .receivers, .recvFirst _ | .receivers, .recvReady none _ => true
  | _, _ => false

/-- What follows an `unregister` that forwards a wake. -/
def forwards : Side → Kont V → Bool
  | .senders, .sendReady .ok | .senders, .dropped .senders => true
  | .receivers, .recvReady (some _) _ | .receivers, .dropped .receivers => true
  | _, _ => false

/-- What follows a notification of one entry, of several, or of all. -/
def announces : Side → Option ℕ → Kont V → Bool
  | .receivers, some limit, .sent _ | .senders, some limit, .received _ _ => limit = 1
  | .senders, some limit, .batched _ _ => limit ≠ 0
  | .receivers, none, .closeSenders _ | .senders, none, .closeDone _ => true
  | side, some limit, k => limit = 1 && forwards side k
  | _, none, _ => false

/-- The program points at a waiter list that the source has. -/
def tame : AgentPc Tid V → Bool
  | .unregister side _ k | .unregisterLocked side _ false k => absorbs side k
  | .unregisterLocked side _ true k => forwards side k
  | .notify side limit k => announces side limit k
  | _ => true

section Tame

theorem tame_resumes {k : Kont V} {n : Goes Tid V} (h : Resumes cfg k n) : tame n.1 = true := by
  induction h with
  | receivedFirst many v n _ ih => exact ih
  | _ => rfl

theorem registration_of_absorbs {side : Side} {k : Kont V} (h : absorbs side k = true) :
    Kont.registration k = none := by
  cases k <;> cases side <;> first | rfl | cases h

theorem wakes_of_forwards {side : Side} {k : Kont V} (h : forwards side k = true) :
    Kont.registration k = none ∧ Kont.wakes k = some side := by
  cases k with
  | dropped other => cases side <;> cases other <;> first | exact ⟨rfl, rfl⟩ | cases h
  | _ => cases side <;> first | exact ⟨rfl, rfl⟩ | cases h

theorem announces_of_forwards {side : Side} {k : Kont V} (h : forwards side k = true) :
    announces side (some 1) k = true := by
  cases k <;> cases side <;> first | exact h | cases h

theorem wakes_of_announces {side : Side} {limit : Option ℕ} {k : Kont V}
    (h : announces side limit k = true) : Kont.wakes k = some side := by
  have hf : ∀ limit : ℕ, (decide (limit = 1) && forwards side k) = true →
      Kont.wakes k = some side := fun limit h =>
    (wakes_of_forwards (Bool.and_eq_true _ _ ▸ h).2).2
  cases limit with
  | none => cases k <;> cases side <;> first | rfl | cases h
  | some limit =>
    cases k <;> cases side <;> first | rfl | exact hf limit h

/-- Only a close notifies everyone. -/
theorem closing_of_announces {side : Side} {k : Kont V} (h : announces side none k = true) :
    (∃ who, side = .receivers ∧ k = .closeSenders who) ∨
      ∃ who, side = .senders ∧ k = .closeDone who := by
  cases k with
  | closeSenders who =>
    cases side with
    | receivers => exact .inl ⟨who, rfl, rfl⟩
    | senders => cases h
  | closeDone who =>
    cases side with
    | senders => exact .inr ⟨who, rfl, rfl⟩
    | receivers => cases h
  | _ => cases side <;> cases h

end Tame

variable [DecidableEq Tid] {s s' : ChannelMachine.State Tid V} {l : ChannelMachine.Label V}
  {τ : List (Tid × ChannelMachine.Label V)} {side : Side} {id : ℕ}

section Tamed

omit [DecidableEq Tid] in
theorem tame_locked {c c' : Shared Tid V} {pc : AgentPc Tid V} {n : Goes Tid V}
    (h : Locked cfg c t side pc c' n) (hp : tame pc = true) : tame n.1 = true := by
  cases h with
  | registerSender v | registerReceiver many => rfl
  | remove side id forward k _ => exact tame_resumes (resumes_resume k)
  | absent side id forward k _ =>
    cases forward with
    | false => exact tame_resumes (resumes_resume k)
    | true => exact announces_of_forwards hp
  | notifyMany side limit k =>
    rcases wakeAll_cases cfg (c.notifyMany side limit).2 k with ⟨-, hr⟩ | ⟨-, hw⟩
    · exact tame_resumes hr
    · rw [hw]
      rfl
  | notifyAll side k =>
    rcases wakeAll_cases cfg (c.notifyAll side).2 k with ⟨-, hr⟩ | ⟨-, hw⟩
    · exact tame_resumes hr
    · rw [hw]
      rfl

theorem tame_acts {c c' : Shared Tid V} {pc : AgentPc Tid V} {n : Goes Tid V}
    (h : Acts cfg c t pc c' n) (hp : tame pc = true) : tame n.1 = true := by
  cases h with
  | readsZero side id k n _ hr | wokeNone k n hr | wokeLast w k n hr | appends v limit n hr =>
    exact tame_resumes hr
  | readsWaiters side id k _ => exact hp
  | _ => rfl

omit [DecidableEq Tid] in
theorem tame_finishes {k : QueueK V} {r : QueueMachine.Ret V} {n : Goes Tid V}
    (h : Finishes cfg k r n) : tame n.1 = true := by
  cases h with
  | sent k v tail n hr | received k r v n _ hr | drainedFirst many n hr
  | batch many head values n hr => exact tame_resumes hr
  | busySecond id tail wait many n ha | claimsBelow id tail wait many n ha =>
    cases ha <;> rfl
  | batchWake many head values wake hw => simpa [tame, announces] using hw
  | _ => rfl

theorem tame_start {c c' : Shared Tid V} {pc : AgentPc Tid V} {op : ChannelMachine.Op V}
    {n : Goes Tid V} (h : Starts cfg c t pc op c' n) : tame n.1 = true := by
  cases h with
  | pollRecv many =>
    cases many with
    | none => rfl
    | some limit =>
      simp only [firstPoll]
      split <;> rfl
  | _ => rfl

/-- Agents are at program points that the source has. -/
theorem tame_run (h : ChannelMachine.Reach cfg τ s) (t : Tid) : tame (s.pc t) = true := by
  refine h.invariant (P := fun _ s => tame (s.pc t) = true) rfl ?_
  rintro τ s ⟨u, l⟩ s' hr ih hs
  by_cases hu : t = u
  · subst hu
    obtain ⟨hq, hok⟩ := reach_queue hr
    rcases turns hq hok hs with ⟨op, c, n, hstart, -, -, rfl⟩ | ⟨c, n, hact, -, rfl⟩ |
      ⟨side, c, n, hlocked, -, rfl⟩ | ⟨k, pc, fail, o, hpc, -, -, rfl, hn⟩ <;>
      simp only [Function.update_self]
    · exact tame_start hstart
    · exact tame_acts hact ih
    · exact tame_locked hlocked ih
    · rcases hn with ⟨pc', -, hn⟩ | ⟨r, -, -, hf⟩
      · rw [hn]
        rfl
      · exact tame_finishes hf
  · rw [step_others cfg hs hu]
    exact ih

end Tamed

section Enrolled

/-- What a step does to the registration of its agent: it is kept, given up, or
drawn anew with an entry at the end of the list. -/
theorem registration_step (h : ChannelMachine.Reach cfg τ s)
    (hs : ChannelMachine.Step cfg s (t, l) s') :
    s.shared.nextWaiterId ≤ s'.shared.nextWaiterId ∧
      (registration (s'.pc t) = registration (s.pc t) ∨ registration (s'.pc t) = none ∨
        ∃ side, registration (s'.pc t) = some (side, s.shared.nextWaiterId) ∧
          s'.shared.nextWaiterId = s.shared.nextWaiterId + 1 ∧
          s'.shared.list side = s.shared.list side ++
            [⟨s.shared.nextWaiterId, s.shared.waker t⟩]) := by
  have htame := tame_run h t
  cases hl : lockOf (s.pc t) with
  | none =>
    obtain ⟨hq, hok⟩ := reach_queue h
    have hu := unlocked_step hq hok hs hl
    refine ⟨hu.ids.ge, ?_⟩
    rcases hu.carries with hc | ⟨side, id, k, hpc, -, hc⟩
    · exact .inl hc.registration
    · rw [hpc] at htame
      exact .inr (.inl (hc.registration.trans (registration_of_absorbs htame)))
  | some side =>
    obtain ⟨c, n, hlocked, -, rfl⟩ := locked_step hs hl
    refine ⟨hlocked.ids.1, ?_⟩
    simp only [Function.update_self]
    generalize s.pc t = pc at htame hlocked
    cases hlocked with
    | registerSender v =>
      exact .inr (.inr ⟨.senders, rfl, rfl, by simp [Shared.register, Shared.setList]⟩)
    | registerReceiver many =>
      exact .inr (.inr ⟨.receivers, rfl, rfl, by simp [Shared.register, Shared.setList]⟩)
    | remove side id forward k _ =>
      refine .inr (.inl ((carries_resume k).registration.trans ?_))
      cases forward with
      | false => exact registration_of_absorbs htame
      | true => exact (wakes_of_forwards htame).1
    | absent side id forward k _ =>
      refine .inr (.inl ?_)
      cases forward with
      | false => exact (carries_resume k).registration.trans (registration_of_absorbs htame)
      | true => exact (wakes_of_forwards htame).1
    | notifyMany side limit k | notifyAll side k =>
      exact .inl (carries_wakeAll _ k).registration

/-- Waiter ids are drawn once. -/
structure Enrolled (s : ChannelMachine.State Tid V) : Prop where
  drawn : ∀ t side id, registration (s.pc t) = some (side, id) → id < s.shared.nextWaiterId
  unique : ∀ t u side other id, registration (s.pc t) = some (side, id) →
    registration (s.pc u) = some (other, id) → t = u

theorem enrolled_run (h : ChannelMachine.Reach cfg τ s) : Enrolled s := by
  refine h.invariant (P := fun _ s => Enrolled s) ?_ ?_
  · constructor <;> simp [ChannelMachine.State.init, registration]
  rintro τ s ⟨t, l⟩ s' hr ih hs
  obtain ⟨hle, hreg⟩ := registration_step hr hs
  have hothers : ∀ u, u ≠ t → registration (s'.pc u) = registration (s.pc u) := fun u hu => by
    rw [step_others cfg hs hu]
  have hdrawn : ∀ u side id, registration (s'.pc u) = some (side, id) →
      registration (s.pc u) = some (side, id) ∨
        u = t ∧ id = s.shared.nextWaiterId ∧ s'.shared.nextWaiterId = id + 1 := by
    intro u side id hu
    by_cases hut : u = t
    · subst hut
      rcases hreg with hk | hk | ⟨other, hk, hnext, -⟩
      · exact .inl (hk ▸ hu)
      · rw [hk] at hu
        cases hu
      · rw [hk] at hu
        obtain ⟨-, rfl⟩ := Prod.mk.inj (Option.some.inj hu)
        exact .inr ⟨rfl, rfl, hnext⟩
    · exact .inl (hothers u hut ▸ hu)
  constructor
  · intro u side id hu
    rcases hdrawn u side id hu with hu | ⟨-, -, hnext⟩
    · have hlt := ih.drawn u side id hu
      omega
    · omega
  · intro u v side other id hu hv
    rcases hdrawn u side id hu with hu | ⟨hut, hid, -⟩
    · rcases hdrawn v other id hv with hv | ⟨-, hid, -⟩
      · exact ih.unique u v side other id hu hv
      · have hlt := ih.drawn u side id hu
        omega
    · rcases hdrawn v other id hv with hv | ⟨hvt, -, -⟩
      · have hlt := ih.drawn v other id hv
        omega
      · exact hut.trans hvt.symm

/-- The entries of a list belong to the registered futures of their agents. -/
structure Listing (s : ChannelMachine.State Tid V) (side : Side) : Prop where
  count : s.shared.count side = (s.shared.list side).length
  ids : ((s.shared.list side).map Waiter.id).Nodup
  owner : ∀ e ∈ s.shared.list side, registration (s.pc e.waker.agent) = some (side, e.id) ∧
    e.waker = s.shared.waker e.waker.agent

theorem listing_run (h : ChannelMachine.Reach cfg τ s) (side : Side) : Listing s side := by
  obtain ⟨σ, hσ⟩ := fine_of_reach h
  have htidy := tidy_run hσ side
  refine ⟨htidy.count, htidy.ids, fun e he => ?_⟩
  have hout := htidy.outstanding (fun _ => by simp) e he
  refine ⟨hout.registered, ?_⟩
  rw [Shared.waker, hout.current]

end Enrolled

section Watch

/-- The agent has an entry in the list. -/
def Listed (s : ChannelMachine.State Tid V) (side : Side) (u : Tid) : Prop :=
  ∃ e ∈ s.shared.list side, e.waker.agent = u

/-- The agent's waker is in the hands of an agent that is about to invoke it. -/
def InFlight (s : ChannelMachine.State Tid V) (side : Side) (u : Tid) : Prop :=
  ∃ a wakers k, s.pc a = .waking wakers k ∧ s.shared.waker u ∈ wakers ∧ Kont.wakes k = some side

/-- The agent's future was woken since its last poll began, or is about to be. -/
def Watched (s : ChannelMachine.State Tid V) (side : Side) (u : Tid) : Prop :=
  s.shared.woken u = true ∨ InFlight s side u

/-- A poll that begins gives up what it registered before. -/
def repolls : AgentPc Tid V → Bool
  | .unregister _ _ (.sendFirst _) | .unregister _ _ (.recvFirst _)
  | .unregisterLocked _ _ _ (.sendFirst _) | .unregisterLocked _ _ _ (.recvFirst _) => true
  | _ => false

/-- Registration of a future that has not been polled again since. -/
def awaiting (pc : AgentPc Tid V) : Option (Side × ℕ) :=
  if repolls pc then none else registration pc

theorem wake_woken {c : Shared Tid V} {w : Waker Tid} (h : c.woken u = true) :
    (c.wake w).woken u = true := by
  unfold Shared.wake
  split
  · by_cases hu : u = w.agent
    · subst hu
      exact Function.update_self ..
    · simpa only [Function.update_of_ne hu] using h
  · exact h

theorem woken_wake (c : Shared Tid V) (u : Tid) : (c.wake (c.waker u)).woken u = true := by
  simp [Shared.wake, Shared.waker]

/-- What a step does to wakes that are delivered. -/
theorem woken_step (h : ChannelMachine.Reach cfg τ s) (hs : ChannelMachine.Step cfg s (t, l) s')
    (hkeep : u = t → l.call = none ∨ l.call = some .dropFuture) (hw : s.shared.woken u = true) :
    s'.shared.woken u = true := by
  obtain ⟨hq, hok⟩ := reach_queue h
  rcases turns hq hok hs with ⟨op, c, n, hstart, -, rfl, rfl⟩ | ⟨c, n, hact, -, rfl⟩ |
    ⟨side, c, n, hlocked, -, rfl⟩ | ⟨k, pc, fail, o, hpc, -, -, rfl, hn⟩
  · have hop : u = t → op = .dropFuture := fun hu => by
      rcases hkeep hu with hc | hc
      · cases hc
      · exact Option.some.inj hc
    have hupdate : op ≠ .dropFuture → Function.update s.shared.woken t false u = true :=
      fun hne => by
        have hu : u ≠ t := fun hu => hne (hop hu)
        rwa [Function.update_of_ne hu]
    generalize s.pc t = pc at hstart
    cases hstart <;> first
      | exact hw
      | exact hupdate (by simp)
  · generalize s.pc t = pc at hact
    cases hact <;> first
      | exact hw
      | exact wake_woken hw
  · generalize s.pc t = pc at hlocked
    cases hlocked <;> exact hw
  · exact hw

/-- An agent about to invoke wakers goes on invoking them. -/
theorem waking_step (h : ChannelMachine.Reach cfg τ s)
    (hs : ChannelMachine.Step cfg s (t, l) s') {wakers : List (Waker Tid)} {k : Kont V}
    (hpc : s.pc t = .waking wakers k) {w : Waker Tid} (hw : w ∈ wakers) :
    (s'.shared = s.shared.wake w) ∨
      ∃ rest, s'.pc t = .waking rest k ∧ w ∈ rest := by
  obtain ⟨hq, hok⟩ := reach_queue h
  rcases turns hq hok hs with ⟨op, c, n, hstart, -, rfl, rfl⟩ | ⟨c, n, hact, -, rfl⟩ |
    ⟨side, c, n, hlocked, -, rfl⟩ | ⟨k', pc, fail, o, hpc', -, -, rfl, hn⟩
  · rw [hpc] at hstart
    cases hstart
  · rw [hpc] at hact
    simp only [Function.update_self]
    cases hact with
    | wokeNone k n hr => cases hw
    | wokeLast w' k n hr => exact .inl (by rw [List.mem_singleton.mp hw])
    | woke w' rest k hne =>
      rcases List.mem_cons.mp hw with rfl | hw
      · exact .inl rfl
      · exact .inr ⟨rest, rfl, hw⟩
  · rw [hpc] at hlocked
    cases hlocked
  · rw [hpc] at hpc'
    cases hpc'

/-- A future that is the same before and after a step stays watched, unless the
step begins a poll of it. -/
theorem watched_step (h : ChannelMachine.Reach cfg τ s)
    (hs : ChannelMachine.Step cfg s (t, l) s')
    (hkeep : u = t → l.call = none ∨ l.call = some .dropFuture)
    (hf : s'.shared.future u = s.shared.future u) (hw : Watched s side u) :
    Watched s' side u := by
  have hwaker : s'.shared.waker u = s.shared.waker u := by rw [Shared.waker, Shared.waker, hf]
  rcases hw with hw | ⟨a, wakers, k, hpc, hmem, hside⟩
  · exact .inl (woken_step h hs hkeep hw)
  · by_cases ha : a = t
    · subst ha
      rcases waking_step h hs hpc hmem with hw | ⟨rest, hpc', hrest⟩
      · refine .inl ?_
        rw [hw]
        exact woken_wake _ u
      · exact .inr ⟨a, rest, k, hpc', hwaker ▸ hrest, hside⟩
    · exact .inr ⟨a, wakers, k, (step_others cfg hs ha).trans hpc, hwaker ▸ hmem, hside⟩

/-- A section that takes entries out to invoke their wakers. -/
theorem inFlight_of_wakeAll {c : Shared Tid V} {wakers : List (Waker Tid)} {k : Kont V}
    (hw : c.waker u ∈ wakers) (hk : Kont.wakes k = some side) {pcs : Tid → AgentPc Tid V} :
    InFlight ⟨c, Function.update pcs t (wakeAll cfg wakers k).1⟩ side u := by
  rcases wakeAll_cases cfg wakers k with ⟨rfl, -⟩ | ⟨-, hgo⟩
  · cases hw
  · refine ⟨t, wakers, k, ?_, hw, hk⟩
    rw [hgo]
    exact Function.update_self ..

/-- An entry stays listed, unless its agent unregisters or its waker is taken
out to be invoked. -/
theorem listed_step (h : ChannelMachine.Reach cfg τ s)
    (hs : ChannelMachine.Step cfg s (t, l) s') (hlist : Listed s side u) :
    Listed s' side u ∨ InFlight s' side u ∨ u = t ∧ registration (s'.pc t) = none := by
  obtain ⟨e, he, hagent⟩ := hlist
  have hlisting := listing_run h side
  have htame := tame_run h t
  cases hl : lockOf (s.pc t) with
  | none =>
    obtain ⟨hq, hok⟩ := reach_queue h
    have hu := unlocked_step hq hok hs hl
    exact .inl ⟨e, by rw [hu.lists]; exact he, hagent⟩
  | some other =>
    obtain ⟨c, n, hlocked, -, rfl⟩ := locked_step hs hl
    by_cases hother : side = other
    · subst hother
      have hwaker := (hlisting.owner e he).2
      rw [hagent] at hwaker
      have hreg : ∀ id, registration (s.pc t) = some (side, id) → e.id = id → u = t :=
        fun id hr hid => (enrolled_run h).unique u t side side id
          (hagent ▸ hid ▸ (hlisting.owner e he).1) hr
      generalize hpc : s.pc t = pc at hlocked htame
      rw [hpc] at hreg
      cases hlocked with
      | registerSender v | registerReceiver many =>
        refine .inl ⟨e, ?_, hagent⟩
        simp [Shared.register, Shared.setList, he]
      | remove side id forward k _ =>
        by_cases hid : e.id = id
        · have hut := hreg id rfl hid
          refine .inr (.inr ⟨hut, ?_⟩)
          simp only [Function.update_self]
          refine (carries_resume k).registration.trans ?_
          cases forward with
          | false => exact registration_of_absorbs htame
          | true => exact (wakes_of_forwards htame).1
        · refine .inl ⟨e, ?_, hagent⟩
          simp only [Shared.remove, Shared.setList, Function.update_self]
          exact (List.mem_eraseP_of_neg (by simpa using hid)).mpr he
      | absent side id forward k _ => exact .inl ⟨e, he, hagent⟩
      | notifyMany side limit k =>
        have hk := wakes_of_announces htame
        rw [← List.take_append_drop (min limit (s.shared.list side).length) (s.shared.list side),
          List.mem_append] at he
        rcases he with he | he
        · have hw : (s.shared.notifyMany side limit).1.waker u ∈
              (s.shared.notifyMany side limit).2 := by
            rw [show (s.shared.notifyMany side limit).1.waker u = e.waker from hwaker.symm]
            exact List.mem_map_of_mem he
          exact .inr (.inl (inFlight_of_wakeAll hw hk))
        · refine .inl ⟨e, ?_, hagent⟩
          simp only [Shared.notifyMany, Shared.setList, Function.update_self]
          exact he
      | notifyAll side k =>
        have hk := wakes_of_announces htame
        have hw : (s.shared.notifyAll side).1.waker u ∈ (s.shared.notifyAll side).2 := by
          rw [show (s.shared.notifyAll side).1.waker u = e.waker from hwaker.symm]
          exact List.mem_map_of_mem he
        exact .inr (.inl (inFlight_of_wakeAll hw hk))
    · exact .inl ⟨e, by rw [(hlocked.frame hother).1]; exact he, hagent⟩

/-- A registered future is the same after the step. -/
theorem future_step (h : ChannelMachine.Reach cfg τ s) (hs : ChannelMachine.Step cfg s (t, l) s')
    (hu : registration (s.pc u) ≠ none) : s'.shared.future u = s.shared.future u := by
  cases hl : lockOf (s.pc t) with
  | none =>
    obtain ⟨hq, hok⟩ := reach_queue h
    exact (unlocked_step hq hok hs hl).future u hu
  | some side =>
    obtain ⟨c, n, hlocked, -, rfl⟩ := locked_step hs hl
    exact congrFun hlocked.ids.2 u

omit [DecidableEq Tid] in
theorem registration_of_awaiting {pc : AgentPc Tid V} (h : awaiting pc = some (side, id)) :
    registration pc = some (side, id) ∧ repolls pc = false := by
  unfold awaiting at h
  split at h
  · cases h
  · rename_i hr
    exact ⟨h, by simpa using hr⟩

/-- What a future registered before its present poll is given up first. -/
theorem repolls_step (h : ChannelMachine.Reach cfg τ s) (hs : ChannelMachine.Step cfg s (t, l) s')
    (hr : repolls (s.pc t) = true) : awaiting (s'.pc t) = none := by
  have hresume : ∀ {side : Side} {k : Kont V} {n : Goes Tid V}, absorbs side k = true →
      Resumes cfg k n → awaiting n.1 = none := by
    intro side k n hk hres
    unfold awaiting
    split
    · rfl
    · induction hres with
      | receivedFirst many v n hres ih => cases side <;> cases hk
      | sentSecond id | receivedSecond id tail wait many v => cases side <;> cases hk
      | _ => rfl
  obtain ⟨hq, hok⟩ := reach_queue h
  have htame := tame_run h t
  rcases turns hq hok hs with ⟨op, c, n, hstart, -, -, rfl⟩ | ⟨c, n, hact, -, rfl⟩ |
    ⟨side, c, n, hlocked, -, rfl⟩ | ⟨k, pc, fail, o, hpc, -, -, rfl, -⟩
  · generalize s.pc t = pc at hstart hr
    cases hstart <;> cases hr
  · simp only [Function.update_self]
    generalize s.pc t = pc at hact hr htame
    cases hact with
    | readsZero side id k n _ hres => exact hresume htame hres
    | readsWaiters side id k _ => cases k <;> first | rfl | cases hr
    | _ => cases hr
  · simp only [Function.update_self]
    generalize s.pc t = pc at hlocked hr htame
    cases hlocked with
    | remove side id forward k _ =>
      cases forward with
      | false => exact hresume htame (resumes_resume k)
      | true =>
        cases k with
        | sendFirst v | recvFirst many => cases side <;> cases htame
        | _ => cases hr
    | absent side id forward k _ =>
      cases forward with
      | false => exact hresume htame (resumes_resume k)
      | true =>
        cases k with
        | sendFirst v | recvFirst many => cases side <;> cases htame
        | _ => cases hr
    | _ => cases hr
  · rw [hpc] at hr
    cases hr

/-- An agent asked for an operation awaits nothing new, and a poll awaits nothing. -/
theorem awaiting_call {op : ChannelMachine.Op V} (hs : ChannelMachine.Step cfg s (t, l) s')
    (hop : l.call = some op) (ha : awaiting (s'.pc t) = some (side, id)) : op = .dropFuture := by
  rcases ChannelMachine.step_cases cfg hs with ⟨op', c, n, hstart, -, rfl, rfl⟩ |
    ⟨k, pc, fail, o, -, -, rfl, -⟩ | ⟨fail, c, n, -, rfl, -⟩
  · obtain rfl := Option.some.inj hop
    simp only [Function.update_self] at ha
    generalize s.pc t = pc at hstart
    cases hstart with
    | dropSend v id | dropRecv id many | dropFreshSend v | dropFreshRecv many => rfl
    | pollRecv many =>
      cases many with
      | none => cases ha
      | some limit =>
        simp only [firstPoll] at ha
        split at ha <;> cases ha
    | _ => cases ha
  · cases hop
  · cases hop

/-- What an agent awaits after its step it awaited before, or has just registered. -/
theorem awaiting_step (h : ChannelMachine.Reach cfg τ s)
    (hs : ChannelMachine.Step cfg s (t, l) s') (ha : awaiting (s'.pc t) = some (side, id)) :
    awaiting (s.pc t) = some (side, id) ∧ (l.call = none ∨ l.call = some .dropFuture) ∨
      Listed s' side t := by
  obtain ⟨-, hreg⟩ := registration_step h hs
  rw [(registration_of_awaiting ha).1] at hreg
  rcases hreg with hk | hk | ⟨other, hk, -, hlist⟩
  · refine .inl ⟨?_, ?_⟩
    · unfold awaiting
      split
      · rename_i hr
        rw [repolls_step h hs hr] at ha
        cases ha
      · exact hk.symm
    · cases hop : l.call with
      | none => exact .inl rfl
      | some op => exact .inr (by rw [awaiting_call hs hop ha])
  · cases hk
  · obtain ⟨rfl, -⟩ := Prod.mk.inj (Option.some.inj hk)
    refine .inr ⟨⟨s.shared.nextWaiterId, s.shared.waker t⟩, ?_, rfl⟩
    rw [hlist]
    exact List.mem_append_right _ (List.mem_singleton_self _)

/-- A future that awaits its wake is listed, was woken, or is about to be. -/
theorem held_run (h : ChannelMachine.Reach cfg τ s) (ha : awaiting (s.pc u) = some (side, id)) :
    Listed s side u ∨ Watched s side u := by
  have hall : ∀ side id, awaiting (s.pc u) = some (side, id) →
      Listed s side u ∨ Watched s side u := by
    refine h.invariant (P := fun _ s => ∀ side id, awaiting (s.pc u) = some (side, id) →
      Listed s side u ∨ Watched s side u) (fun _ _ h => absurd h (by simp [awaiting, repolls,
        registration, ChannelMachine.State.init])) ?_
    rintro τ s ⟨t, l⟩ s' hr ih hs side id ha
    have hbefore : awaiting (s.pc u) = some (side, id) ∧
        (u = t → l.call = none ∨ l.call = some .dropFuture) ∨ Listed s' side u := by
      by_cases hu : u = t
      · subst hu
        rcases awaiting_step hr hs ha with ⟨hb, hcall⟩ | hl
        · exact .inl ⟨hb, fun _ => hcall⟩
        · exact .inr hl
      · rw [step_others cfg hs hu] at ha
        exact .inl ⟨ha, fun hut => absurd hut hu⟩
    rcases hbefore with ⟨hb, hkeep⟩ | hl
    · have hreg := (registration_of_awaiting hb).1
      rcases ih side id hb with hl | hw
      · rcases listed_step hr hs hl with hl | hw | ⟨rfl, hnone⟩
        · exact .inl hl
        · exact .inr (.inr hw)
        · rw [(registration_of_awaiting ha).1] at hnone
          cases hnone
      · have hfuture := future_step hr hs (u := u) (by rw [hreg]; simp)
        exact .inr (watched_step hr hs hkeep hfuture hw)
    · exact .inl hl
  exact hall side id ha

end Watch

end Rapidfire.ChannelWakes
