import Rapidfire.ChannelSolo
import Rapidfire.ChannelEmpty

/-!
# Waiting on a closed channel

`close` sets the flag and then drains both lists, one after the other. A future
that looked at the flag too early is drained, and one that looks at it later
does not wait, unless it wakes itself.
-/

namespace Rapidfire.ChannelClose

open Positions QueueMemory QueueMachine ChannelState ChannelMachine ChannelQueue ChannelDrained
  ChannelEmpty ChannelWaiters ChannelTurns ChannelWakes ChannelSolo Runs

variable {Tid V : Type} {cfg : Config Tid} {t u : Tid}

/-- The agent goes on closing. -/
def Kont.closing : Kont V → Bool
  | .closeSenders _ | .closeDone _ => true
  | _ => false

/-- The agent has set the flag and is draining the lists. -/
def inClose : AgentPc Tid V → Bool
  | .notify _ _ k | .waking _ k => Kont.closing k
  | _ => false

/-- The agent has set the flag and is yet to drain the list. -/
def yetToDrain : Side → AgentPc Tid V → Bool
  | _, .notify .receivers none (.closeSenders _) => true
  | .senders, .waking _ (.closeSenders _) | .senders, .notify .senders none (.closeDone _) => true
  | _, _ => false

/-- The list a future waits in that last looked at the flag when it was not set:
its poll returned `Pending`, or is about to. -/
def exposed : AgentPc Tid V → Option Side
  | .queue (.push (.second _) _) _ | .sending _ (some _) => some .senders
  | .queue (.claimsBelow _ _ _ _) _ | .receiving (some _) _ => some .receivers
  | _ => none

/-- List and waiter id of a future whose last poll returned `Pending`. -/
def pendingOn : AgentPc Tid V → Option (Side × ℕ)
  | .sending _ (some id) => some (.senders, id)
  | .receiving (some id) _ => some (.receivers, id)
  | _ => none

/-- The close that set the flag has returned. -/
def CloseReturned (τ : List (Tid × ChannelMachine.Label V)) : Prop :=
  ∃ τ₁ t l τ₂ l', τ = τ₁ ++ (t, l) :: τ₂ ∧ l.flip ≠ none ∧ (t, l') ∈ τ₂ ∧ l'.ret ≠ none

section Local

theorem inClose_resumes {k : Kont V} {n : Goes Tid V} (h : Resumes cfg k n)
    (hn : inClose n.1 = true) : Kont.closing k = true ∧ n.2 = none := by
  induction h with
  | closeSenders who => exact ⟨rfl, rfl⟩
  | receivedFirst many v n _ ih => exact absurd (ih hn).1 (by simp [Kont.closing])
  | _ => cases hn

theorem exposed_resumes {k : Kont V} {n : Goes Tid V} (h : Resumes cfg k n) :
    exposed n.1 = none := by
  induction h with
  | receivedFirst many v n _ ih => exact ih
  | _ => rfl

theorem inClose_of_yetToDrain {side : Side} {pc : AgentPc Tid V}
    (h : yetToDrain side pc = true) : inClose pc = true := by
  unfold yetToDrain at h
  split at h <;> first | rfl | cases h

theorem registration_of_exposed {side : Side} {pc : AgentPc Tid V}
    (h : exposed pc = some side) : registration pc ≠ none := by
  unfold exposed at h
  split at h
  case h_5 => cases h
  all_goals simp [registration, QueueK.registration, SendK.registration]

/-- A close neither unregisters nor forwards. -/
theorem not_closing {side : Side} {k : Kont V}
    (h : absorbs side k = true ∨ forwards side k = true) : Kont.closing k = false := by
  cases k with
  | closeSenders who | closeDone who => cases side <;> rcases h with h | h <;> cases h
  | _ => rfl

end Local

variable [DecidableEq Tid] {s s' : ChannelMachine.State Tid V} {l : ChannelMachine.Label V}
  {τ σ : List (Tid × ChannelMachine.Label V)} {side : Side}

section Closing

/-- An agent is closing because it was before, or because it sets the flag now. -/
theorem inClose_step (h : ChannelMachine.Reach cfg τ s) (hs : ChannelMachine.Step cfg s (t, l) s')
    (hn : inClose (s'.pc t) = true) :
    (inClose (s.pc t) = true ∧ l.ret = none) ∨
      s.shared.closed = false ∧ s'.shared.closed = true := by
  obtain ⟨hq, hok⟩ := reach_queue h
  have htame := tame_run h t
  rcases turns hq hok hs with ⟨op, c, n, hstart, -, rfl, rfl⟩ | ⟨c, n, hact, rfl, rfl⟩ |
    ⟨side, c, n, hlocked, rfl, rfl⟩ | ⟨k, pc, fail, o, hpc, ho, rfl, rfl, hend⟩ <;>
    simp only [Function.update_self] at hn
  · generalize s.pc t = pc at hstart
    cases hstart with
    | pollRecv many =>
      cases many with
      | none => cases hn
      | some limit =>
        simp only [firstPoll] at hn
        split at hn <;> cases hn
    | _ => cases hn
  · generalize s.pc t = pc at hact htame
    cases hact with
    | readsZero side id k n _ hr =>
      have hk := (inClose_resumes hr hn).1
      rw [not_closing (.inl htame)] at hk
      cases hk
    | wokeNone k n hr | wokeLast w k n hr => exact .inl (inClose_resumes hr hn)
    | woke w wakers k _ => exact .inl ⟨hn, rfl⟩
    | flips who hc => exact .inr ⟨hc, rfl⟩
    | appends v limit n hr => cases (inClose_resumes hr hn).1
    | _ => cases hn
  · generalize s.pc t = pc at hlocked htame
    have hwaking : ∀ {wakers : List (Waker Tid)} {k : Kont V},
        inClose (wakeAll cfg wakers k).1 = true →
        Kont.closing k = true ∧ (wakeAll cfg wakers k).2 = none := by
      intro wakers k hn
      rcases wakeAll_cases cfg wakers k with ⟨-, hr⟩ | ⟨-, hw⟩
      · exact inClose_resumes hr hn
      · rw [hw] at hn ⊢
        exact ⟨hn, rfl⟩
    cases hlocked with
    | remove side id forward k _ =>
      have hk := (inClose_resumes (resumes_resume k) hn).1
      have hside : absorbs side k = true ∨ forwards side k = true := by
        cases forward with
        | false => exact .inl htame
        | true => exact .inr htame
      rw [not_closing hside] at hk
      cases hk
    | absent side id forward k _ =>
      cases forward with
      | false =>
        have hk := (inClose_resumes (resumes_resume k) hn).1
        rw [not_closing (.inl htame)] at hk
        cases hk
      | true =>
        have hk : Kont.closing k = true := hn
        rw [not_closing (.inr htame)] at hk
        cases hk
    | notifyMany side limit k | notifyAll side k => exact .inl (hwaking hn)
    | _ => cases hn
  · rcases hend with ⟨pc', -, hgo⟩ | ⟨r, -, -, hf⟩
    · rw [hgo] at hn
      cases hn
    · generalize k.next cfg o.2.1 = n at hf hn
      cases hf with
      | sent k v tail n hr | received k r v n _ hr | drainedFirst many n hr
      | batch many head values n hr => cases (inClose_resumes hr hn).1
      | busySecond id tail wait many n ha | claimsBelow id tail wait many n ha =>
        cases ha <;> cases hn
      | _ => cases hn

/-- Nobody closes an open channel. -/
theorem closed_of_inClose (h : ChannelMachine.Reach cfg τ s) (ht : inClose (s.pc t) = true) :
    s.shared.closed = true := by
  have hall : ∀ t, inClose (s.pc t) = true → s.shared.closed = true := by
    refine h.invariant (P := fun _ s => ∀ t, inClose (s.pc t) = true → s.shared.closed = true)
      (fun _ h => by cases h) ?_
    rintro τ s ⟨u, l⟩ s' hr ih hs t ht
    by_cases hu : t = u
    · subst hu
      rcases inClose_step hr hs ht with ⟨hb, -⟩ | ⟨-, hc⟩
      · exact step_closed cfg hs (ih t hb)
      · exact hc
    · rw [step_others cfg hs hu] at ht
      exact step_closed cfg hs (ih t ht)
  exact hall t ht

/-- The flag is set by an agent that then drains the lists. -/
theorem flip_step (hs : ChannelMachine.Step cfg s (t, l) s') (hf : l.flip ≠ none) :
    s.shared.closed = false ∧ s'.shared.closed = true := by
  rcases ChannelMachine.step_cases cfg hs with ⟨op, c, n, -, -, rfl, -⟩ |
    ⟨k, pc, fail, o, -, -, rfl, -⟩ | ⟨fail, c, n, hexec, rfl, rfl⟩
  · exact absurd rfl hf
  · exact absurd rfl hf
  · generalize s.pc t = pc at hexec hf
    cases pc with
    | closeSwap who =>
      simp only [AgentPc.flip] at hf
      split at hf
      · exact absurd rfl hf
      · rename_i hc
        cases hexec
        exact ⟨by simpa using hc, rfl⟩
    | _ => exact absurd rfl hf

/-- Once the close that set the flag has returned, nobody is closing any more. -/
theorem not_inClose (h : ChannelMachine.Reach cfg τ s) (hc : CloseReturned τ) :
    s.shared.closed = true ∧ ∀ u, inClose (s.pc u) = false := by
  obtain ⟨τ₁, t, l, τ₂, l', rfl, hflip, hmem, hret⟩ := hc
  obtain ⟨m, hm, hrest⟩ := Run.split h
  obtain ⟨m', hstep, hrun⟩ := hrest.uncons
  obtain ⟨hopen, hclosed⟩ := flip_step hstep hflip
  have hm' := hm.tail hstep
  have hall : ∀ {σ s}, Run (ChannelMachine.Step cfg) m' σ s →
      s.shared.closed = true ∧ (∀ u, inClose (s.pc u) = true → u = t) ∧
        ((∃ l', (t, l') ∈ σ ∧ l'.ret ≠ none) → ∀ u, inClose (s.pc u) = false) := by
    intro σ s hr
    induction hr with
    | refl =>
      refine ⟨hclosed, fun u hu => ?_, fun ⟨l', hl', _⟩ => by cases hl'⟩
      by_contra hne
      rw [step_others cfg hstep hne] at hu
      rw [closed_of_inClose hm hu] at hopen
      cases hopen
    | @tail σ s s' x hr hs ih =>
      obtain ⟨v, x⟩ := x
      obtain ⟨hc, hown, hdone⟩ := ih
      have hback : ∀ u, inClose (s'.pc u) = true → inClose (s.pc u) = true ∧
          (u = v → x.ret = none) := by
        intro u hu
        by_cases huv : u = v
        · subst huv
          rcases inClose_step (hm'.append hr) hs hu with ⟨hb, hx⟩ | ⟨hb, -⟩
          · exact ⟨hb, fun _ => hx⟩
          · rw [hc] at hb
            cases hb
        · rw [step_others cfg hs huv] at hu
          exact ⟨hu, fun h => absurd h huv⟩
      refine ⟨step_closed cfg hs hc, fun u hu => hown u (hback u hu).1, ?_⟩
      rintro ⟨l', hl', hret⟩ u
      rw [← Bool.not_eq_true]
      intro hu
      obtain ⟨hb, hx⟩ := hback u hu
      rcases List.mem_append.mp hl' with hl' | hl'
      · rw [hdone ⟨l', hl', hret⟩ u] at hb
        cases hb
      · obtain ⟨rfl, rfl⟩ := Prod.mk.inj (List.mem_singleton.mp hl')
        exact hret (hx (hown u hb))
  obtain ⟨hc, -, hdone⟩ := hall hrun
  exact ⟨hc, hdone ⟨l', hmem, hret⟩⟩

end Closing

section Drain

/-- Who sets the flag is about to drain both lists. -/
theorem yetToDrain_of_flip (h : ChannelMachine.Reach cfg τ s)
    (hs : ChannelMachine.Step cfg s (t, l) s') (hopen : s.shared.closed = false)
    (hclosed : s'.shared.closed = true) : yetToDrain side (s'.pc t) = true := by
  have hsame : ∀ {c : Shared Tid V}, c.closed = s.shared.closed → c.closed ≠ true := by
    intro c hc hclosed
    rw [hc, hopen] at hclosed
    cases hclosed
  obtain ⟨hq, hok⟩ := reach_queue h
  rcases turns hq hok hs with ⟨op, c, n, hstart, -, -, rfl⟩ | ⟨c, n, hact, -, rfl⟩ |
    ⟨side', c, n, hlocked, -, rfl⟩ | ⟨k, pc, fail, o, -, -, -, rfl, -⟩
  · exact absurd hclosed (hsame (starts_closed cfg hstart))
  · simp only [Function.update_self]
    generalize s.pc t = pc at hact
    cases hact with
    | flips who _ => cases side <;> rfl
    | closedCall hc | closedLast side hc =>
      rw [hopen] at hc
      cases hc
    | wokeLast w k n _ | woke w wakers k _ | wokeSelf id many =>
      exact absurd hclosed (hsame (wake_queue _ _).2)
    | _ => exact absurd hclosed (hsame rfl)
  · exact absurd hclosed (hsame (queue_of_locked hlocked).2)
  · exact absurd hclosed (hsame rfl)

/-- Who is to drain a list comes closer to it, or drains it. -/
theorem drain_step (h : ChannelMachine.Reach cfg τ s) (hs : ChannelMachine.Step cfg s (t, l) s')
    (hd : yetToDrain side (s.pc t) = true) :
    yetToDrain side (s'.pc t) = true ∨ s'.shared.list side = [] := by
  obtain ⟨hq, hok⟩ := reach_queue h
  have hresume : ∀ {who : Closer} {n : Goes Tid V}, Resumes cfg (.closeSenders who) n →
      yetToDrain .senders n.1 = true := by
    intro who n hr
    cases hr
    rfl
  rcases turns hq hok hs with ⟨op, c, n, hstart, -, -, rfl⟩ | ⟨c, n, hact, -, rfl⟩ |
    ⟨side', c, n, hlocked, -, rfl⟩ | ⟨k, pc, fail, o, hpc, -, -, rfl, -⟩
  · generalize s.pc t = pc at hstart hd
    cases hstart <;> cases side <;> cases hd
  · simp only [Function.update_self]
    generalize s.pc t = pc at hact hd
    left
    cases hact with
    | wokeNone k n hr | wokeLast w k n hr =>
      cases k <;> cases side <;> first | exact hresume hr | cases hd
    | woke w wakers k _ => cases k <;> cases side <;> first | rfl | cases hd
    | _ => cases side <;> cases hd
  · simp only [Function.update_self]
    generalize s.pc t = pc at hlocked hd
    cases hlocked with
    | notifyAll side' k =>
      by_cases hside : side = side'
      · subst hside
        right
        simp [Shared.notifyAll, Shared.setList]
      · left
        have hk : ∃ who, k = .closeSenders who ∧ side = .senders := by
          cases k <;> cases side <;> cases side' <;> first
            | exact ⟨_, rfl, rfl⟩
            | exact absurd rfl hside
            | cases hd
        obtain ⟨who, rfl, rfl⟩ := hk
        rcases wakeAll_cases cfg (s.shared.notifyAll side').2 (.closeSenders who) with
          ⟨-, hr⟩ | ⟨-, hw⟩
        · exact hresume hr
        · rw [hw]
          rfl
    | notifyMany side' limit k => cases side <;> simp [yetToDrain] at hd
    | _ => cases side <;> cases hd
  · rw [hpc] at hd
    cases side <;> cases hd

/-- Entries are added by their own agents only. -/
theorem listed_before (hs : ChannelMachine.Step cfg s (t, l) s')
    (h : ChannelMachine.Reach cfg τ s) (hl : Listed s' side u)
    (hu : u = t → registration (s.pc t) ≠ none) : Listed s side u := by
  obtain ⟨e, he, hagent⟩ := hl
  cases hlock : lockOf (s.pc t) with
  | none =>
    obtain ⟨hq, hok⟩ := reach_queue h
    rw [(unlocked_step hq hok hs hlock).lists] at he
    exact ⟨e, he, hagent⟩
  | some other =>
    obtain ⟨c, n, hlocked, -, rfl⟩ := locked_step hs hlock
    by_cases hside : side = other
    · subst hside
      refine ⟨e, ?_, hagent⟩
      generalize s.pc t = pc at hlocked hu
      cases hlocked with
      | registerSender v | registerReceiver many =>
        simp only [Shared.register, Shared.setList, Function.update_self, List.mem_append,
          List.mem_singleton] at he
        rcases he with he | rfl
        · exact he
        · exact absurd rfl (hu hagent.symm)
      | remove side id forward k _ =>
        simp only [Shared.remove, Shared.setList, Function.update_self] at he
        exact List.mem_of_mem_eraseP he
      | absent side id forward k _ => exact he
      | notifyMany side limit k =>
        simp only [Shared.notifyMany, Shared.setList, Function.update_self] at he
        exact List.mem_of_mem_drop he
      | notifyAll side k => simp [Shared.notifyAll, Shared.setList] at he
    · rw [(hlocked.frame hside).1] at he
      exact ⟨e, he, hagent⟩

/-- On a closed channel a future comes to wait only by waking itself. -/
theorem exposed_step (h : ChannelMachine.Reach cfg τ s) (hs : ChannelMachine.Step cfg s (t, l) s')
    (hclosed : s.shared.closed = true) (he : exposed (s'.pc t) = some side) :
    (exposed (s.pc t) = some side ∧ l.call = none) ∨ s'.shared.woken t = true := by
  obtain ⟨hq, hok⟩ := reach_queue h
  have hnone : ∀ {k : Kont V} {n : Goes Tid V}, Resumes cfg k n → exposed n.1 ≠ some side :=
    fun hr => by simp [exposed_resumes hr]
  have hwaking : ∀ {wakers : List (Waker Tid)} {k : Kont V},
      exposed (wakeAll cfg wakers k).1 ≠ some side := by
    intro wakers k
    rcases wakeAll_cases cfg wakers k with ⟨-, hr⟩ | ⟨-, hw⟩
    · exact hnone hr
    · simp [hw, exposed]
  rcases turns hq hok hs with ⟨op, c, n, hstart, -, rfl, rfl⟩ | ⟨c, n, hact, rfl, rfl⟩ |
    ⟨side', c, n, hlocked, rfl, rfl⟩ | ⟨k, pc, fail, o, hpc, ho, rfl, rfl, hend⟩ <;>
    simp only [Function.update_self] at he
  · generalize s.pc t = pc at hstart
    cases hstart with
    | pollRecv many =>
      cases many with
      | none => cases he
      | some limit =>
        simp only [firstPoll] at he
        split at he <;> cases he
    | _ => cases he
  · generalize s.pc t = pc at hact
    cases hact with
    | sendOpen k v hc =>
      rw [hclosed] at hc
      cases hc
    | emptySecond id tail wait many hc =>
      rw [hclosed] at hc
      cases hc
    | readsZero side id k n _ hr | wokeNone k n hr | wokeLast w k n hr | appends v limit n hr =>
      exact absurd he (hnone hr)
    | wokeSelf id many => exact .inr (woken_wake _ t)
    | recvClosed k _ => cases k <;> cases he
    | _ => cases he
  · generalize s.pc t = pc at hlocked
    cases hlocked with
    | remove side id forward k _ => exact absurd he (hnone (resumes_resume k))
    | absent side id forward k _ =>
      cases forward with
      | false => exact absurd he (hnone (resumes_resume k))
      | true => cases he
    | notifyMany side limit k | notifyAll side k => exact absurd he hwaking
    | _ => cases he
  · rw [hpc]
    rcases hend with ⟨pc', -, hgo⟩ | ⟨r, -, -, hf⟩
    · rw [hgo] at he
      refine .inl ⟨?_, rfl⟩
      cases k with
      | push k v => cases k <;> exact he
      | _ => exact he
    · generalize k.next cfg o.2.1 = n at hf he
      cases hf with
      | sent k v tail n hr | received k r v n _ hr | drainedFirst many n hr
      | batch many head values n hr => exact absurd he (hnone hr)
      | fullSecond id v w | trulyEmpty id tail wait many => exact .inl ⟨he, rfl⟩
      | busySecond id tail wait many n ha | claimsBelow id tail wait many n ha =>
        cases ha <;> cases he
      | _ => cases he

/-- On a closed channel the close is yet to drain a list, or every future that
waits in it was woken. -/
theorem awake_run (h : ChannelMachine.Reach cfg τ s) (hc : s.shared.closed = true) (side : Side) :
    (∃ t, yetToDrain side (s.pc t) = true) ∨
      ∀ u, exposed (s.pc u) = some side → Listed s side u → s.shared.woken u = true := by
  have hall : s.shared.closed = true → (∃ t, yetToDrain side (s.pc t) = true) ∨
      ∀ u, exposed (s.pc u) = some side → Listed s side u → s.shared.woken u = true := by
    refine h.invariant (P := fun _ s => s.shared.closed = true →
      (∃ t, yetToDrain side (s.pc t) = true) ∨
        ∀ u, exposed (s.pc u) = some side → Listed s side u → s.shared.woken u = true)
      (fun h => by cases h) ?_
    rintro τ s ⟨t, l⟩ s' hr ih hs hclosed'
    cases hclosed : s.shared.closed with
    | false => exact .inl ⟨t, yetToDrain_of_flip hr hs hclosed hclosed'⟩
    | true =>
      rcases ih hclosed with ⟨a, ha⟩ | hwoken
      · by_cases hat : a = t
        · subst hat
          rcases drain_step hr hs ha with hd | hempty
          · exact .inl ⟨a, hd⟩
          · refine .inr fun u _ hl => ?_
            obtain ⟨e, he, -⟩ := hl
            rw [hempty] at he
            cases he
        · exact .inl ⟨a, by rw [step_others cfg hs hat]; exact ha⟩
      · refine .inr fun u hu hl => ?_
        by_cases hut : u = t
        · subst hut
          rcases exposed_step hr hs hclosed hu with ⟨hb, hcall⟩ | hw
          · exact woken_step hr hs (fun _ => .inl hcall)
              (hwoken u hb (listed_before hs hr hl fun _ => registration_of_exposed hb))
          · exact hw
        · rw [step_others cfg hs hut] at hu
          exact woken_step hr hs (fun h => absurd h hut)
            (hwoken u hu (listed_before hs hr hl fun h => absurd h hut))
  exact hall hc

end Drain

section Late

/-- The agent found the channel open before. -/
def seesOpen : AgentPc Tid V → Bool
  | .queue (.push _ _) _ | .queue (.parkSender _ _) _ | .queue (.claimsBelow _ _ _ _) _
  | .registerSender _ => true
  | _ => false

/-- Some value position is claimed and not taken. -/
def Untaken (z : BlockSize) (q : Queue V) : Prop :=
  ∃ p, IsValue z p ∧ q.head.index ≤ p ∧ p < q.tail.index

omit [DecidableEq Tid] in
theorem resumes_late {k : Kont V} {n : Goes Tid V} (h : Resumes cfg k n) :
    seesOpen n.1 = false ∧ n.2 ≠ some .pending := by
  induction h with
  | receivedFirst many v n _ ih => exact ih
  | _ => exact ⟨rfl, by simp⟩

omit [DecidableEq Tid] in
theorem wakeAll_late (wakers : List (Waker Tid)) (k : Kont V) :
    seesOpen (wakeAll cfg wakers k).1 = false ∧ (wakeAll cfg wakers k).2 ≠ some .pending := by
  rcases wakeAll_cases cfg wakers k with ⟨-, hr⟩ | ⟨-, hw⟩
  · exact resumes_late hr
  · rw [hw]
    exact ⟨rfl, by simp⟩

/-- A poll that begins on a closed channel never finds it open, and returns
`Pending` only when it has woken itself. -/
theorem late_step (h : ChannelMachine.Reach cfg τ s) (hs : ChannelMachine.Step cfg s (t, l) s')
    (hclosed : s.shared.closed = true)
    (hlate : seesOpen (s.pc t) = false ∧ l.call = none ∨ l.call = some .poll) :
    seesOpen (s'.pc t) = false ∧
      (l.ret = some .pending → ∃ id many, s.pc t = .wakeSelf id many ∧
        s'.pc t = .receiving (some id) many ∧ s'.shared.woken t = true) := by
  obtain ⟨hq, hok⟩ := reach_queue h
  have hfinish : ∀ {n : Goes Tid V}, seesOpen n.1 = false ∧ n.2 ≠ some .pending →
      seesOpen n.1 = false ∧ (n.2 = some .pending → ∃ id many, s.pc t = .wakeSelf id many ∧
        s'.pc t = .receiving (some id) many ∧ s'.shared.woken t = true) :=
    fun hn => ⟨hn.1, fun hr => absurd hr hn.2⟩
  rcases turns hq hok hs with ⟨op, c, n, hstart, -, rfl, rfl⟩ | ⟨c, n, hact, rfl, rfl⟩ |
    ⟨side, c, n, hlocked, rfl, rfl⟩ | ⟨k, pc, fail, o, hpc, ho, rfl, rfl, hend⟩ <;>
    simp only [Function.update_self] at hfinish ⊢
  · apply hfinish
    obtain rfl : op = .poll := by simpa using hlate
    generalize s.pc t = pc at hstart
    cases hstart with
    | pollRecv many =>
      cases many with
      | none => exact ⟨rfl, by simp [firstPoll]⟩
      | some limit =>
        simp only [firstPoll]
        split <;> exact ⟨rfl, by simp⟩
    | _ => exact ⟨rfl, by simp⟩
  · have hlate : seesOpen (s.pc t) = false := by simpa using hlate
    generalize s.pc t = pc at hact hlate hfinish
    cases hact with
    | wokeSelf id many => exact ⟨rfl, fun _ => ⟨id, many, rfl, rfl, woken_wake _ t⟩⟩
    | sendOpen k v hc | emptyCall hc | emptyFirst many hc | emptySecond id tail wait many hc =>
      rw [hclosed] at hc
      cases hc
    | readsZero side id k n _ hr | wokeNone k n hr | wokeLast w k n hr | appends v limit n hr =>
      exact hfinish (resumes_late hr)
    | _ => exact hfinish ⟨rfl, by simp⟩
  · apply hfinish
    have hopen : seesOpen (s.pc t) = false := by simpa using hlate
    generalize s.pc t = pc at hlocked hopen
    cases hlocked with
    | registerSender v => cases hopen
    | registerReceiver many => exact ⟨rfl, by simp⟩
    | remove side id forward k _ => exact resumes_late (resumes_resume k)
    | absent side id forward k _ =>
      cases forward with
      | false => exact resumes_late (resumes_resume k)
      | true => exact ⟨rfl, by simp⟩
    | notifyMany side limit k | notifyAll side k => exact wakeAll_late _ k
  · apply hfinish
    have hopen : seesOpen (s.pc t) = false := by simpa using hlate
    rw [hpc] at hopen
    rcases hend with ⟨pc', -, hgo⟩ | ⟨r, -, -, hf⟩
    · rw [hgo]
      refine ⟨?_, by simp⟩
      cases k <;> first | rfl | cases hopen
    · generalize k.next cfg o.2.1 = n at hf
      cases hf with
      | received k r v n _ hr | drainedFirst many n hr | batch many head values n hr =>
        exact resumes_late hr
      | sent k v tail n hr | fullSecond id v w | fullFirst v w | trulyEmpty id tail wait many =>
        cases hopen
      | busySecond id tail wait many n ha | claimsBelow id tail wait many n ha =>
        cases ha <;> exact ⟨rfl, by simp⟩
      | _ => exact ⟨rfl, by simp⟩

/-- What a poll on a closed channel remembers before it wakes itself. -/
def Recalls (cfg : Config Tid) (t : Tid) (τ : List (Tid × ChannelMachine.Label V))
    (s : ChannelMachine.State Tid V) : AgentPc Tid V → Prop
  | .queue (.isEmpty _) (.read (.emptyTail head)) =>
    (∀ p, IsValue cfg.size p → head ≤ p → s.shared.queue.tail.index ≤ p) ∨
      Lately cfg t (fun _ q => Untaken cfg.size q.queue) τ s
  | .wakeSelf _ _ => Lately cfg t (fun _ q => Untaken cfg.size q.queue) τ s
  | _ => True

/-- A position claimed by a step is not taken. -/
theorem untaken_step (h : ChannelMachine.Reach cfg τ s)
    (hs : ChannelMachine.Step cfg s (t, l) s') {p : ℕ} (hv : IsValue cfg.size p)
    (hp : s.shared.queue.tail.index ≤ p) (hp' : p < s'.shared.queue.tail.index) :
    Untaken cfg.size s'.shared.queue := by
  obtain ⟨hq, hok⟩ := reach_queue h
  obtain ⟨g, hg⟩ := QueueInvariant.reach_inv hq
  have hhead : s.shared.queue.head.index ≤ p := by
    by_contra hlt
    have hclaimed : p < s.shared.queue.tail.index :=
      hg.coherent.taken_claimed p hv (not_le.mp hlt)
    omega
  have hmoves : s'.shared.queue.head = s.shared.queue.head ∨
      s'.shared.queue.tail = s.shared.queue.tail := by
    rcases turns hq hok hs with ⟨op, c, n, hstart, -, -, rfl⟩ | ⟨c, n, hact, -, rfl⟩ |
      ⟨side, c, n, hlocked, -, rfl⟩ | ⟨k, pc, fail, o, hpc, ho, -, rfl, -⟩
    · exact .inl (congrArg Queue.head (start_arrives hstart).2.1)
    · exact .inl (congrArg Queue.head hact.queue)
    · exact .inl (congrArg Queue.head (queue_of_locked hlocked).1)
    · cases pc with
      | push pc =>
        rw [Pc.exec, Option.some.injEq] at ho
        subst ho
        exact .inl QueuePairing.push_head
      | _ => exact .inr (exec_tail ho (by simp))
  rcases hmoves with heq | heq
  · exact ⟨p, hv, by rw [heq]; exact hhead, hp'⟩
  · rw [heq] at hp'
    omega

/-- What was remembered stays true through a step that asks the agent for nothing. -/
theorem Recalls.tail {pc : AgentPc Tid V} (hr : Recalls cfg t τ s pc)
    (h : ChannelMachine.Reach cfg τ s) (hs : ChannelMachine.Step cfg s (u, l) s')
    (hl : ¬asks t (u, l)) : Recalls cfg t (τ ++ [(u, l)]) s' pc := by
  cases pc with
  | queue k pc =>
    cases k with
    | isEmpty k =>
      cases pc with
      | read pc =>
        cases pc with
        | emptyTail head =>
          rcases hr with hnone | hseen
          · by_cases hnew : ∀ p, IsValue cfg.size p → head ≤ p → s'.shared.queue.tail.index ≤ p
            · exact .inl hnew
            · push Not at hnew
              obtain ⟨p, hv, hle, hlt⟩ := hnew
              exact .inr (Since.now (h.tail hs) (untaken_step h hs hv (hnone p hv hle) hlt))
          · exact .inr (Since.tail hseen hs hl)
        | _ => trivial
      | _ => trivial
    | _ => trivial
  | wakeSelf id many => exact Since.tail hr hs hl
  | _ => trivial

/-- After it unregistered or notified, an agent has nothing to remember. -/
theorem recalls_resumes {k : Kont V} {n : Goes Tid V} (h : Resumes cfg k n) :
    Recalls cfg t τ s n.1 := by
  induction h with
  | receivedFirst many v n _ ih => exact ih
  | _ => trivial

theorem recalls_wakeAll (wakers : List (Waker Tid)) (k : Kont V) :
    Recalls cfg t τ s (wakeAll cfg wakers k).1 := by
  rcases wakeAll_cases cfg wakers k with ⟨-, hr⟩ | ⟨-, hw⟩
  · exact recalls_resumes hr
  · rw [hw]
    trivial

/-- A late poll remembers what it saw of the queue. -/
theorem recalls_step (h : ChannelMachine.Reach cfg τ s) (hs : ChannelMachine.Step cfg s (t, l) s')
    (hlate : seesOpen (s.pc t) = false ∧ l.call = none ∨ l.call = some .poll)
    (hr : Recalls cfg t τ s (s.pc t)) : Recalls cfg t (τ ++ [(t, l)]) s' (s'.pc t) := by
  obtain ⟨hq, hok⟩ := reach_queue h
  have hnow : l.call = none → Untaken cfg.size s.shared.queue →
      Lately cfg t (fun _ q => Untaken cfg.size q.queue) (τ ++ [(t, l)]) s' :=
    fun hc hu => (Since.now h hu).tail hs fun ha => ha.2 hc
  rcases turns hq hok hs with ⟨op, c, n, hstart, -, rfl, hst⟩ | ⟨c, n, hact, rfl, hst⟩ |
    ⟨side, c, n, hlocked, rfl, hst⟩ | ⟨k, pc, fail, o, hpc, ho, hl, hst, hend⟩
  · obtain rfl : op = .poll := by simpa using hlate
    rw [show s'.pc t = n.1 by simp [hst]]
    generalize s.pc t = pc at hstart
    cases hstart with
    | pollRecv many =>
      cases many with
      | none => trivial
      | some limit =>
        simp only [firstPoll]
        split <;> trivial
    | _ => trivial
  · rw [show s'.pc t = n.1 by simp [hst]]
    generalize s.pc t = pc at hact
    cases hact with
    | readsZero side id k n _ hr | wokeNone k n hr | wokeLast w k n hr | appends v limit n hr =>
      exact recalls_resumes hr
    | _ => trivial
  · rw [show s'.pc t = n.1 by simp [hst]]
    generalize s.pc t = pc at hlocked
    cases hlocked with
    | remove side id forward k _ => exact recalls_resumes (resumes_resume k)
    | absent side id forward k _ =>
      cases forward with
      | false => exact recalls_resumes (resumes_resume k)
      | true => trivial
    | notifyMany side limit k | notifyAll side k => exact recalls_wakeAll _ k
    | _ => trivial
  · rw [show s'.pc t = (k.next cfg o.2.1).1 by simp [hst]]
    have hcall : l.call = none := by rw [hl]
    have hin := (hok t).inside
    have hlate : seesOpen (s.pc t) = false := by simpa [hcall] using hlate
    rw [hpc] at hin hlate hr
    rcases hend with ⟨pc', hgoto, hgo⟩ | ⟨r, hret, -, hf⟩
    · rw [hgo]
      cases k with
      | isEmpty k =>
        cases hin with
        | emptyHead =>
          rw [Pc.exec, Option.some.injEq] at ho
          subst ho
          obtain rfl := Next.goto.inj hgoto
          by_cases hu : Untaken cfg.size s.shared.queue
          · exact .inr (hnow hcall hu)
          · left
            intro p hv hle
            have htail : s'.shared.queue.tail.index = s.shared.queue.tail.index := by rw [hst]; rfl
            rw [htail]
            by_contra hlt
            exact hu ⟨p, hv, hle, not_le.mp hlt⟩
        | emptyTail _ head =>
          rw [Pc.exec, Option.some.injEq] at ho
          subst ho
          cases hgoto
      | _ => trivial
    · generalize k.next cfg o.2.1 = n at hf
      cases hf with
      | received k r v n _ hr | drainedFirst many n hr | batch many head values n hr
      | sent k v tail n hr => exact recalls_resumes hr
      | claimsBelow id tail wait many n ha => cases hlate
      | busySecond id tail wait many n ha =>
        cases ha with
        | round wait' _ => trivial
        | gaveUp _ =>
          cases hin with
          | emptyHead =>
            rw [Pc.exec, Option.some.injEq] at ho
            subst ho
            cases hret
          | emptyTail _ head =>
            rw [Pc.exec, Option.some.injEq] at ho
            subst ho
            have hitems : itemsBetween cfg.size head s.shared.queue.tail.index ≠ 0 := by
              simpa [ReadPc.exec, Next.map] using hret
            rcases hr with hnone | hseen
            · refine absurd (itemsBetween_eq_zero_iff.mpr fun p hle hlt hv => ?_) hitems
              have := hnone p hv hle
              omega
            · exact Since.tail hseen hs fun ha => ha.2 hcall
      | _ => trivial

/-- A poll that began on a closed channel, while it goes on. -/
theorem late_run (h : ChannelMachine.Reach cfg τ s) (hclosed : s.shared.closed = true)
    {m : ChannelMachine.State Tid V} (hs : ChannelMachine.Step cfg s (t, l) m)
    (hpoll : l.call = some .poll) (hr : Run (ChannelMachine.Step cfg) m σ s')
    (hquiet : ∀ x ∈ σ, ¬asks t x) :
    s'.shared.closed = true ∧ seesOpen (s'.pc t) = false ∧
      Recalls cfg t (τ ++ [(t, l)] ++ σ) s' (s'.pc t) := by
  have hlate : seesOpen (s.pc t) = false ∧ l.call = none ∨ l.call = some .poll := .inr hpoll
  have hrecalls : Recalls cfg t τ s (s.pc t) := by
    obtain ⟨op, c, n, hstart, hop⟩ : ∃ op c n, Starts cfg s.shared t (s.pc t) op c n ∧
        l.call = some op := by
      rcases ChannelMachine.step_cases cfg hs with ⟨op, c, n, hstart, -, rfl, -⟩ |
        ⟨k, pc, fail, o, -, -, rfl, -⟩ | ⟨fail, c, n, -, rfl, -⟩
      · exact ⟨op, c, n, hstart, rfl⟩
      · cases hpoll
      · cases hpoll
    generalize s.pc t = pc at hstart
    cases hstart <;> trivial
  induction hr with
  | refl =>
    refine ⟨step_closed cfg hs hclosed, (late_step h hs hclosed hlate).1, ?_⟩
    rw [List.append_nil]
    exact recalls_step h hs hlate hrecalls
  | @tail σ s₁ s₂ x hrun hx ih =>
    obtain ⟨u, x⟩ := x
    obtain ⟨hc, hopen, hrec⟩ := ih fun y hy => hquiet y (List.mem_append_left _ hy)
    have hnot : ¬asks t (u, x) := hquiet (u, x) (by simp)
    have hreach := (h.tail hs).append hrun
    refine ⟨step_closed cfg hx hc, ?_⟩
    rw [← List.append_assoc]
    by_cases hut : u = t
    · subst hut
      have hown : seesOpen (s₁.pc u) = false ∧ x.call = none ∨ x.call = some .poll :=
        .inl ⟨hopen, by_contra fun hne => hnot ⟨rfl, hne⟩⟩
      exact ⟨(late_step hreach hx hc hown).1, recalls_step hreach hx hown hrec⟩
    · rw [step_others cfg hx (Ne.symm hut)]
      exact ⟨hopen, hrec.tail hreach hx hnot⟩

end Late

section Polls

/-- The agent is in the first steps of `Send::poll`. -/
def offering : AgentPc Tid V → Bool
  | .trySend .first _ | .unregister _ _ (.sendFirst _) | .unregisterLocked _ _ _ (.sendFirst _) =>
    true
  | _ => false

/-- Steps of `Send::poll` on a closed channel. -/
def offerMeasure : AgentPc Tid V → ℕ
  | .unregister _ _ _ => 2
  | .unregisterLocked _ _ _ _ => 1
  | _ => 0

/-- On a closed channel `Send::poll` takes a step, and is over or needs less. -/
theorem offer_step (h : ChannelMachine.Reach cfg τ s) (hclosed : s.shared.closed = true)
    (ho : offering (s.pc t) = true) :
    ∃ l s', solo cfg t s = some (l, s') ∧ (l.ret ≠ none ∨
      offering (s'.pc t) = true ∧ offerMeasure (s'.pc t) < offerMeasure (s.pc t)) := by
  obtain ⟨hq, hok⟩ := reach_queue h
  have htame := tame_run h t
  have hmoving : moving (s.pc t) = true := by
    generalize s.pc t = pc at ho
    cases pc <;> first | rfl | cases ho
  rcases run_enabled (hok t) hmoving false with ⟨c, n, hact | ⟨side, hl⟩, hstep⟩ |
    ⟨k, pc, o, hpc, -, -⟩
  · refine ⟨_, _, hstep, ?_⟩
    simp only [Function.update_self]
    clear hstep
    generalize s.pc t = pc at hact ho
    cases hact with
    | sendClosedFirst v _ => exact .inl (by simp)
    | sendOpen k v hc =>
      rw [hclosed] at hc
      cases hc
    | readsZero side id k n _ hr =>
      cases hr with
      | sendFirst v => exact .inr ⟨rfl, by simp [offerMeasure]⟩
      | _ => cases ho
    | readsWaiters side id k _ =>
      cases k with
      | sendFirst v => exact .inr ⟨rfl, by simp [offerMeasure]⟩
      | _ => cases ho
    | _ => cases ho
  · refine ⟨_, _, hstep, ?_⟩
    simp only [Function.update_self]
    clear hstep
    generalize s.pc t = pc at hl ho htame
    cases hl with
    | remove side id forward k _ =>
      cases k with
      | sendFirst v => exact .inr ⟨rfl, by simp [offerMeasure, resume]⟩
      | _ => cases ho
    | absent side id forward k _ =>
      cases k with
      | sendFirst v =>
        cases forward with
        | true => cases side <;> cases htame
        | false => exact .inr ⟨rfl, by simp [offerMeasure, resume]⟩
      | _ => cases ho
    | _ => cases ho
  · rw [hpc] at ho
    cases ho

/-- On a closed channel a poll that runs alone is over after finitely many steps. -/
theorem poll_over (h : ChannelMachine.Reach cfg τ s) (hclosed : s.shared.closed = true)
    (hp : polling (s.pc t) = true ∨ offering (s.pc t) = true) :
    ∃ n ls l s', iterate (solo cfg t) (n + 1) s = some (ls ++ [l], s') ∧
      PollOver (s'.pc t, l.ret) := by
  rcases hp with hp | hp
  · obtain ⟨n, -, ls, l, s', hn, hover, -⟩ := poll_alone h hp
    exact ⟨n, ls, l, s', hn, hover⟩
  · have hdone := iterate_done (f := solo cfg t)
      (fun s => (∃ τ, ChannelMachine.Reach cfg τ s) ∧ s.shared.closed = true ∧
        offering (s.pc t) = true)
      (fun l s => PollOver (s.pc t, l.ret)) (fun s => offerMeasure (s.pc t)) ?_ s
      ⟨⟨τ, h⟩, hclosed, hp⟩
    · obtain ⟨n, -, ls, l, s', hn, hover⟩ := hdone
      exact ⟨n, ls, l, s', hn, hover⟩
    · rintro s ⟨⟨τ, h⟩, hc, ho⟩
      obtain ⟨l, s', hs, hret | ⟨ho', hlt⟩⟩ := offer_step h hc ho
      · exact ⟨l, s', hs, .inl (.inl hret)⟩
      · have hstep := step_of_solo hs
        exact ⟨l, s', hs, .inr ⟨⟨⟨_, h.tail hstep⟩, step_closed cfg hstep hc, ho'⟩, hlt⟩⟩

/-- A poll begins a `Send::poll`, a `Recv::poll`, or the batch of a `recv_many`. -/
theorem poll_begins (hs : ChannelMachine.Step cfg s (t, l) s') (hl : l.call = some .poll) :
    (polling (s'.pc t) = true ∨ offering (s'.pc t) = true) ∨
      ∃ limit, s.pc t = .receiving none (some limit) := by
  rcases ChannelMachine.step_cases cfg hs with ⟨op, c, n, hstart, -, rfl, rfl⟩ |
    ⟨k, pc, fail, o, -, -, rfl, -⟩ | ⟨fail, c, n, -, rfl, -⟩
  · obtain rfl : op = .poll := by simpa using hl
    simp only [Function.update_self]
    generalize s.pc t = pc at hstart
    cases hstart with
    | pollSend v | repollSend v id => exact .inl (.inr rfl)
    | repollRecv id many => exact .inl (.inl rfl)
    | pollRecv many =>
      cases many with
      | none => exact .inl (.inl rfl)
      | some limit => exact .inr ⟨limit, rfl⟩
  · cases hl
  · cases hl

/-- No operation returns `Pending` where it starts. -/
theorem call_of_pending (hs : ChannelMachine.Step cfg s (t, l) s') (hr : l.ret = some .pending) :
    l.call = none := by
  rcases ChannelMachine.step_cases cfg hs with ⟨op, c, n, hstart, -, rfl, -⟩ |
    ⟨k, pc, fail, o, -, -, rfl, -⟩ | ⟨fail, c, n, -, rfl, -⟩
  · generalize s.pc t = pc at hstart
    cases hstart with
    | pollRecv many =>
      cases many with
      | none => cases hr
      | some limit =>
        simp only [firstPoll] at hr
        split at hr <;> cases hr
    | _ => cases hr
  · rfl
  · rfl

omit [DecidableEq Tid] in
/-- A future whose last poll returned `Pending` has not been polled again, and
found the channel open or woke itself. -/
theorem exposed_of_pendingOn {pc : AgentPc Tid V} {side : Side} {id : ℕ}
    (h : pendingOn pc = some (side, id)) :
    exposed pc = some side ∧ awaiting pc = some (side, id) := by
  cases pc with
  | sending v id' | receiving id' many =>
    cases id' with
    | none => cases h
    | some id' =>
      cases h
      exact ⟨rfl, rfl⟩
  | _ => cases h

end Polls

/-- After the close that set the flag has returned, every future whose last poll
returned `Pending` was woken since that poll began, or an agent that took its
entry out is about to wake it. A poll that begins then returns `Pending` only as
a receive that woke itself, at some moment of which a claimed value was not
taken. `Send::poll` and `Recv::poll` that run alone come to an end. -/
theorem close_wakes_everyone (h : ChannelMachine.Reach cfg τ s) (hc : CloseReturned τ) :
    (∀ u side id, pendingOn (s.pc u) = some (side, id) → Watched s side u) ∧
    ∀ t l₀ m σ s₁, ChannelMachine.Step cfg s (t, l₀) m → l₀.call = some .poll →
      Run (ChannelMachine.Step cfg) m σ s₁ → (∀ x ∈ σ, ¬asks t x) →
      (∀ l s₂, ChannelMachine.Step cfg s₁ (t, l) s₂ → l.ret = some .pending →
        (∃ id many, s₂.pc t = .receiving (some id) many) ∧ s₂.shared.woken t = true ∧
          Lately cfg t (fun _ q => Untaken cfg.size q.queue) (τ ++ [(t, l₀)] ++ σ) s₁) ∧
      ((polling (m.pc t) = true ∨ offering (m.pc t) = true) ∨
        ∃ limit, s.pc t = .receiving none (some limit)) ∧
      (polling (s₁.pc t) = true ∨ offering (s₁.pc t) = true →
        ∃ n ls l s', iterate (solo cfg t) (n + 1) s₁ = some (ls ++ [l], s') ∧
          PollOver (s'.pc t, l.ret)) := by
  obtain ⟨hclosed, hnone⟩ := not_inClose h hc
  refine ⟨fun u side id hu => ?_, fun t l₀ m σ s₁ hs hl hrun hquiet => ?_⟩
  · obtain ⟨hexposed, hawaiting⟩ := exposed_of_pendingOn hu
    rcases held_run h hawaiting with hlisted | hwatched
    · rcases awake_run h hclosed side with ⟨a, ha⟩ | hwoken
      · have hclosing := inClose_of_yetToDrain ha
        rw [hnone a] at hclosing
        cases hclosing
      · exact .inl (hwoken u hexposed hlisted)
    · exact hwatched
  · obtain ⟨hc₁, hopen, hrec⟩ := late_run h hclosed hs hl hrun hquiet
    have h₁ := (h.tail hs).append hrun
    refine ⟨fun l s₂ hs₂ hret => ?_, poll_begins hs hl, poll_over h₁ hc₁⟩
    have hlate : seesOpen (s₁.pc t) = false ∧ l.call = none := ⟨hopen, call_of_pending hs₂ hret⟩
    obtain ⟨id, many, hpc, hpc', hwoken⟩ := (late_step h₁ hs₂ hc₁ (.inl hlate)).2 hret
    rw [hpc] at hrec
    exact ⟨⟨id, many, hpc'⟩, hwoken, hrec⟩

/-- Agent 0 polls a receive on an empty channel, and agent 1 is about to close it. -/
def pollThenClose : List (Fin 2 × ChannelMachine.Choice ℕ) :=
  (0, .call .recv) :: (0, .call .poll) :: List.replicate 13 (0, .run false) ++ [(1, .call .close)]

/-- The close takes its four steps, and the receive that waited was woken. -/
theorem close_wakes_everyone_of_pollThenClose :
    ∃ (τ : List (Fin 2 × ChannelMachine.Label ℕ)) (s : ChannelMachine.State (Fin 2) ℕ),
      ChannelMachine.Reach ChannelMutex.shared τ s ∧ CloseReturned τ ∧
        pendingOn (s.pc 0) = some (.receivers, 1) ∧ Watched s .receivers 0 := by
  have h : ((ChannelMachine.State.init (Fin 2) ℕ).runs ChannelMutex.shared pollThenClose).bind
      (fun a => (ChannelMachine.State.step ChannelMutex.shared a.2 1 (.run false)).bind fun b =>
        (b.2.runs ChannelMutex.shared (List.replicate 3 (1, .run false))).map fun c =>
          (b.1.flip.isSome, c.1.any (fun x => x.1 == 1 && x.2.ret.isSome), pendingOn (c.2.pc 0))) =
        some (true, true, some (.receivers, 1)) := by
    decide +kernel
  obtain ⟨⟨τ₁, s₁⟩, hrun, h⟩ := Option.bind_eq_some_iff.mp h
  obtain ⟨⟨l, m⟩, hstep, h⟩ := Option.bind_eq_some_iff.mp h
  obtain ⟨⟨τ₂, s⟩, hrest, h⟩ := Option.map_eq_some_iff.mp h
  obtain ⟨hflip, h⟩ := Prod.mk.inj h
  obtain ⟨hret, hpending⟩ := Prod.mk.inj h
  have hs : ChannelMachine.Step ChannelMutex.shared s₁ (1, l) m := ⟨_, hstep, by simp⟩
  have hreach := ((ChannelMachine.State.runs_run ChannelMutex.shared hrun).tail hs).append
    (ChannelMachine.State.runs_run ChannelMutex.shared hrest)
  obtain ⟨⟨u, l'⟩, hmem, hl'⟩ := List.any_eq_true.mp hret
  obtain ⟨hu, hl'⟩ := Bool.and_eq_true_iff.mp hl'
  obtain rfl : u = 1 := by simpa using hu
  have hreturned : CloseReturned (τ₁ ++ [(1, l)] ++ τ₂) :=
    ⟨τ₁, 1, l, τ₂, l', by simp, Option.isSome_iff_ne_none.mp hflip, hmem,
      Option.isSome_iff_ne_none.mp hl'⟩
  exact ⟨_, s, hreach, hreturned, hpending,
    (close_wakes_everyone hreach hreturned).1 0 .receivers 1 hpending⟩

end Rapidfire.ChannelClose
