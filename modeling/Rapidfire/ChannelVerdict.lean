import Rapidfire.ChannelLedger

/-!
# The verdict that a channel is closed

A receive reports closed only after a load of the tail that found every claimed
position taken. Once the last sender is gone the tail stays, so that everything
that was sent has been received by then.
-/

namespace Rapidfire.ChannelVerdict

open Positions QueueMemory QueueMachine ChannelState ChannelMachine ChannelQueue ChannelLedger
  QueueHistory Runs

variable {Tid V : Type} {cfg : Config Tid} {s s' : ChannelMachine.State Tid V} {t u : Tid}
  {l : ChannelMachine.Label V} {τ : List (Tid × ChannelMachine.Label V)}

/-- The result reports that the channel is closed. -/
def reportsClosed : ChannelMachine.Ret V → Bool
  | .tryRecv .closed | .recv .closed | .recvMany none => true
  | _ => false

/-- The agent goes on to report closed. -/
def Kont.condemned : Kont V → Bool
  | .recvReady none _ => true
  | _ => false

/-- The agent has found the channel closed and drained, and is about to report it. -/
def condemned : AgentPc Tid V → Bool
  | .unregister _ _ k | .unregisterLocked _ _ _ k | .notify _ _ k | .waking _ k => Kont.condemned k
  | _ => false

/-- The agent has found the channel closed and checks whether it is drained. -/
def checks : AgentPc Tid V → Bool
  | .queue (.isEmpty _) _ => true
  | _ => false

/-- Where an agent goes it has found the channel closed: it checks whether it
is drained, reports closed, or is about to. -/
def verdict (n : Goes Tid V) : Bool := (condemned n.1 || checks n.1) || n.2.any reportsClosed

section Local

/-- Simplify the verdict of a program point that returns and checks nothing. -/
theorem verdict_of_kont (b : Bool) : ((b || false) || false) = b := by
  cases b <;> rfl

theorem verdict_manyLoop (many : Many V) : verdict (manyLoop cfg many) = false := by
  unfold manyLoop
  split <;> rfl

theorem verdict_manyGot (got : ℕ) (many : Many V) : verdict (manyGot cfg got many) = false := by
  unfold manyGot
  split
  · split <;> rfl
  · exact verdict_manyLoop many

theorem verdict_recvOk (v : V) (k : RecvK) : verdict (recvOk v k : Goes Tid V) = false := by
  cases k with
  | first many => cases many <;> rfl
  | _ => rfl

theorem verdict_recvAgain (id tail wait : ℕ) (many : Option ℕ) :
    verdict (V := V) (recvAgain cfg id tail wait many) = false := by
  unfold recvAgain
  split <;> rfl

theorem verdict_recvBusy (k : RecvK) : verdict (V := V) (recvBusy cfg k) = false := by
  cases k with
  | second id tail wait many => exact verdict_recvAgain id tail wait many
  | _ => rfl

theorem verdict_resume (k : Kont V) : verdict (resume cfg k) = Kont.condemned k := by
  cases k with
  | sent k => cases k <;> rfl
  | received k v => exact verdict_recvOk v k
  | batched got many => exact verdict_manyGot got many
  | recvReady v many => cases v <;> cases many <;> rfl
  | closeDone who => cases who <;> rfl
  | _ => rfl

theorem verdict_wakeAll (wakers : List (Waker Tid)) (k : Kont V) :
    verdict (wakeAll cfg wakers k) = Kont.condemned k := by
  cases wakers with
  | nil => exact verdict_resume k
  | cons w wakers => exact verdict_of_kont _

/-- Only the tail load of `is_empty_seqcst` gives the verdict. -/
theorem verdict_finish {k : QueueK V} {r : QueueMachine.Ret V} (h : FitsRet k r)
    (hv : verdict (k.finish cfg r) = true) :
    ∃ k', k = .isEmpty k' ∧ r = .read (.answer true) := by
  cases h with
  | pushed k v tail wake => cases wake <;> cases k <;> cases hv
  | full k v w => cases k <;> cases hv
  | popped k head v wake | poppedSingle k head v wake =>
    cases wake with
    | true => cases hv
    | false => exact absurd ((verdict_recvOk v k).symm.trans hv) nofun
  | isEmpty k empty =>
    cases empty with
    | true => exact ⟨k, rfl, rfl⟩
    | false => exact absurd ((verdict_recvBusy k).symm.trans hv) nofun
  | claimsBelow id tail wait many below =>
    cases below with
    | true => exact absurd ((verdict_recvAgain id tail wait many).symm.trans hv) nofun
    | false => cases hv
  | batch many head values wake =>
    rw [finish_batch] at hv
    split at hv
    · cases hv
    · exact absurd ((verdict_manyGot _ _).symm.trans hv) nofun
  | _ => cases hv

variable [DecidableEq Tid] {c c' : Shared Tid V} {n : Goes Tid V}

/-- Outside the queue a verdict is only passed on, and the check begins after
the flag was found set. -/
theorem verdict_exec {pc : AgentPc Tid V} {fail : Bool}
    (h : pc.exec cfg c t fail = some (c', n)) (hv : verdict n = true) :
    condemned pc = true ∨ c.closed = true ∧ ∃ k, n = (enter cfg (.isEmpty k), none) := by
  cases pc with
  | trySend k v =>
    cases h
    split at hv
    · cases k <;> cases hv
    · cases hv
  | recvState k =>
    cases h
    split at hv
    · rename_i hc
      rw [if_pos hc]
      exact .inr ⟨hc, k, rfl⟩
    · cases k <;> cases hv
  | unregister side id k =>
    cases h
    split at hv
    · exact .inl ((verdict_resume k).symm.trans hv)
    · exact .inl ((verdict_of_kont _).symm.trans hv)
  | unregisterLocked side id forward k =>
    simp only [AgentPc.exec] at h
    split at h
    · cases h
      exact .inl ((verdict_resume k).symm.trans hv)
    · cases h
      split at hv
      · exact .inl ((verdict_of_kont _).symm.trans hv)
      · exact .inl ((verdict_resume k).symm.trans hv)
  | notify side limit k =>
    cases limit with
    | none | some limit =>
      cases h
      exact .inl ((verdict_wakeAll _ k).symm.trans hv)
  | waking wakers k =>
    cases wakers with
    | nil =>
      cases h
      exact .inl ((verdict_resume k).symm.trans hv)
    | cons w wakers =>
      cases h
      exact .inl ((verdict_wakeAll wakers k).symm.trans hv)
  | closeSwap who =>
    cases h
    split at hv
    · cases who <;> cases hv
    · cases hv
  | append v limit =>
    cases h
    split at hv
    · cases hv
    · exact absurd ((verdict_manyLoop _).symm.trans hv) (by simp)
  | registerSender v | registerReceiver many | wakeSelf id many =>
    cases h
    cases hv
  | idle | fault | sending v id | receiving id many | queue k pc => cases h

/-- No operation starts with a verdict. -/
theorem verdict_start {pc : AgentPc Tid V} {op : ChannelMachine.Op V}
    (h : Starts cfg c t pc op c' n) : verdict n = false := by
  cases h with
  | pollRecv many =>
    cases many with
    | none => rfl
    | some limit =>
      simp only [firstPoll]
      split <;> rfl
  | _ => rfl

omit [DecidableEq Tid] in
theorem eq_of_condemned {k : Kont V} (h : Kont.condemned k = true) :
    ∃ many, k = .recvReady none many := by
  cases k with
  | recvReady v many =>
    cases v with
    | none => exact ⟨many, rfl⟩
    | some v => cases h
  | _ => cases h

/-- An agent that is about to report closed stays out of the queue. -/
theorem condemned_exec {pc : AgentPc Tid V} {fail : Bool} (hc : condemned pc = true)
    (h : pc.exec cfg c t fail = some (c', n)) : entered cfg n.1 = [] := by
  have hready : ∀ many : Option ℕ,
      entered cfg (recvReady (none : Option V) many).1 = [] := by
    intro many
    cases many <;> rfl
  have hwake : ∀ (wakers : List (Waker Tid)) (many : Option ℕ),
      entered cfg (wakeAll cfg wakers (.recvReady (none : Option V) many)).1 = [] := by
    intro wakers many
    cases wakers with
    | nil => exact hready many
    | cons w wakers => rfl
  cases pc with
  | unregister side id k =>
    obtain ⟨many, rfl⟩ := eq_of_condemned hc
    cases h
    split
    · exact hready many
    · rfl
  | unregisterLocked side id forward k =>
    obtain ⟨many, rfl⟩ := eq_of_condemned hc
    simp only [AgentPc.exec] at h
    split at h
    · cases h
      exact hready many
    · cases h
      split
      · rfl
      · exact hready many
  | notify side limit k =>
    obtain ⟨many, rfl⟩ := eq_of_condemned hc
    cases limit with
    | none | some limit =>
      cases h
      exact hwake _ many
  | waking wakers k =>
    obtain ⟨many, rfl⟩ := eq_of_condemned hc
    cases wakers with
    | nil =>
      cases h
      exact hready many
    | cons w wakers =>
      cases h
      exact hwake wakers many
  | _ => cases hc

end Local

section Verdicts

variable [DecidableEq Tid]

/-- The step is the load of the tail that finds the queue drained. -/
def FindsDrained (cfg : Config Tid) (s : ChannelMachine.State Tid V) (t : Tid)
    (l : ChannelMachine.Label V) : Prop :=
  ∃ k head, s.pc t = .queue (.isEmpty k) (.read (.emptyTail head)) ∧
    l.queue = [.access none (some (.read (.answer true)))] ∧
    itemsBetween cfg.size head s.shared.queue.tail.index = 0

/-- An agent that finds the channel closed, reports it or is about to has just
seen the flag, or was in the check, or was about to report. -/
theorem step_cases (hok : AgentOk cfg t (s.pc t)) (h : ChannelMachine.Step cfg s (t, l) s')
    (hv : verdict (s'.pc t, l.ret) = true) :
    (condemned (s.pc t) = true ∧ l.queue = [] ∧ l.call = none) ∨
    (FindsDrained cfg s t l ∧ l.call = none) ∨
    checks (s'.pc t) = true ∧ l.ret = none ∧ (checks (s.pc t) = true ∨ s.shared.closed = true) := by
  rcases ChannelMachine.step_cases cfg h with ⟨op, c, n, hs, -, rfl, rfl⟩ |
    ⟨k, pc, fail, o, hpc, ho, rfl, rfl⟩ | ⟨fail, c, n, hs, rfl, rfl⟩
  · simp only [Function.update_self] at hv
    exact absurd ((verdict_start hs).symm.trans hv) nofun
  · simp only [Function.update_self] at hv ⊢
    rw [hpc] at hok
    obtain ⟨-, hret⟩ := exec_fits hok.inside ho
    cases hn : o.2.1 with
    | goto pc' =>
      rw [hn] at hv
      have hk : checks (.queue k pc' : AgentPc Tid V) = true := (Bool.or_false _).symm.trans hv
      refine .inr (.inr ⟨hk, rfl, .inl ?_⟩)
      rw [hpc]
      cases k <;> exact hk
    | ret r =>
      rw [hn] at hv
      obtain ⟨k', rfl, rfl⟩ := verdict_finish (hret r hn) hv
      have hcalled : entered cfg (recvClosed (V := V) k').1 = [] := by
        cases k' with
        | first many => cases many <;> rfl
        | _ => rfl
      have hfits : Fits (.isEmpty k') pc := hok.inside
      refine .inr (.inl ⟨⟨k', ?_⟩, trivial⟩)
      cases hfits with
      | emptyHead =>
        cases ho
        cases hn
      | emptyTail _ head =>
        cases ho
        refine ⟨head, hpc, ?_, ?_⟩
        · change _ :: called cfg _ _ = _
          simp [nextRet, called, QueueK.next, finish_isEmpty, hcalled]
        · simpa [Next.map, ReadPc.exec] using hn
    | fault =>
      rw [hn] at hv
      cases hv
  · simp only [Function.update_self] at hv ⊢
    rcases verdict_exec hs hv with hc | ⟨hc, k, rfl⟩
    · exact .inl ⟨hc, condemned_exec hc hs, trivial⟩
    · exact .inr (.inr ⟨rfl, rfl, .inr hc⟩)

/-- Every value position claimed is taken. -/
def Drained (z : BlockSize) (q : Queue V) : Prop :=
  ∀ p, IsValue z p → p < q.tail.index → p < q.head.index

/-- In a drained queue every claimed position has been taken. -/
theorem Drained.taken {ρ : List (Tid × QueueMachine.Label V)} {q : QueueMachine.State Tid V}
    {g : QueueCoherence.Ghost Tid V} (hd : Drained cfg.size q.queue) (h : History cfg ρ q g) :
    ∀ p ∈ (claimed ρ).map (fun c => c.2.1), p ∈ (taken ρ).map Prod.snd := by
  intro p hp
  rw [h.claimed, mem_valuePositions] at hp
  rw [h.taken, mem_valuePositions]
  exact ⟨hd p hp.2 hp.1, hp.2⟩

/-- A position that was taken has been returned by a receive, or is about to be. -/
def Received (ρ : List (Tid × QueueMachine.Label V)) (q : QueueMachine.State Tid V) (p : ℕ) :
    Prop :=
  ∃ c, p ∈ (ofThread c (returned ρ)).map Prod.fst ∨ p ∈ inflight (q.pc c)

theorem received_of_taken {ρ : List (Tid × QueueMachine.Label V)} {q : QueueMachine.State Tid V}
    {g : QueueCoherence.Ghost Tid V} (h : History cfg ρ q g) {p : ℕ}
    (hp : p ∈ (taken ρ).map Prod.snd) : Received ρ q p := by
  obtain ⟨⟨c, p⟩, hm, rfl⟩ := List.mem_map.mp hp
  have hc := mem_ofThread.mpr hm
  rw [h.inflight c] at hc
  exact ⟨c, List.mem_append.mp hc⟩

/-- An accepted position is claimed. -/
theorem claimed_of_accepted {ρ : List (Tid × QueueMachine.Label V)}
    {q : QueueMachine.State Tid V} {g : QueueCoherence.Ghost Tid V} (h : History cfg ρ q g) {p : ℕ}
    (hp : p ∈ (accepted ρ).map Prod.snd) : p ∈ (claimed ρ).map fun c => c.2.1 := by
  obtain ⟨⟨c, p⟩, hm, rfl⟩ := List.mem_map.mp hp
  have hc : p ∈ (ofThread c (claimed ρ)).map Prod.fst := by
    rw [h.claim c]
    exact List.mem_append_left _ (mem_ofThread.mpr hm)
  obtain ⟨⟨p, v⟩, hv, rfl⟩ := List.mem_map.mp hc
  exact List.mem_map.mpr ⟨(c, p, v), mem_ofThread.mp hv, rfl⟩

end Verdicts

end Rapidfire.ChannelVerdict
