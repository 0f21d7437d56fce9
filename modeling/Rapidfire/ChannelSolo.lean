import Rapidfire.ChannelWakes
import Rapidfire.ChannelDrained

/-!
# Receives running alone

An agent that runs alone finishes a pop, and a whole poll of a receive: the
retries of a pop and the rounds of a poll draw on two spinning budgets, and a
stale head index is reloaded once.
-/

namespace Rapidfire.ChannelSolo

open Positions QueueMemory QueuePop QueueSingle QueueMachine ChannelState ChannelMachine
  ChannelQueue ChannelDrained ChannelWaiters ChannelTurns ChannelWakes Runs

variable {Tid V : Type} {cfg : Config Tid} {t : Tid} {z : BlockSize} {q : Queue V}

/-- Rounds left of the spinning budget, of two accesses each. -/
def budget (wait : ℕ) : ℕ := 2 * (snoozeLimit - wait)

/-- Accesses a pop running alone still needs, at most. A head index that is not
the present one costs a reload. -/
def popMeasure (z : BlockSize) (q : Queue V) : PopPc V → ℕ
  | .loadHead wait => 15 + 2 * blockCap z + budget wait
  | .loadBlock head wait =>
    if q.head.index = head then 14 + 2 * blockCap z + budget wait
    else 17 + 2 * blockCap z + budget wait
  | .loadState head _ wait =>
    if q.head.index = head then 13 + 2 * blockCap z else 16 + 2 * blockCap z + budget wait
  | .reloadHead head _ wait =>
    if q.head.index = head then 1 else 15 + 2 * blockCap z + budget wait
  | .claim head _ wait =>
    if q.head.index = head then 12 + 2 * blockCap z else 15 + 2 * blockCap z + budget wait
  | .sample _ _ => 11 + 2 * blockCap z
  | .readValue _ => 10 + 2 * blockCap z
  | .loadNext _ _ => 9 + 2 * blockCap z
  | .storeBlock _ _ _ => 8 + 2 * blockCap z
  | .swapIndex _ _ => 7 + 2 * blockCap z
  | .readersDone _ _ i => 6 + blockCap z + (blockCap z - i)
  | .resetMark _ _ i => 5 + (blockCap z - i)
  | .resetStart _ _ => 4
  | .recycleSpare _ _ => 3
  | .recyclePool _ _ => 2
  | .markRead _ _ | .retire _ _ => 1

/-- Accesses an exclusive receive still needs, at most. -/
def singleMeasure : SinglePc V → ℕ
  | .batchHead limit => 13 + 2 * limit
  | .batchBlock limit _ => 12 + 2 * limit
  | .batchState limit _ _ => 11 + 2 * limit
  | .reserve max _ _ => 10 + 2 * max
  | .slotState max r => 9 + 2 * (max - r.values.length)
  | .slotValue max r => 8 + 2 * (max - r.values.length)
  | .loadHead => 11
  | .loadBlock _ => 10
  | .loadState _ _ => 9
  | .readValue _ _ => 8
  | .leave _ (.loadNext _) => 7
  | .leave _ (.storeBlock _ _) => 6
  | .leave _ (.advance _) => 5
  | .leave _ (.sample _) => 4
  | .leave _ (.resetStart _ _) => 3
  | .leave _ (.recycleSpare _ _) => 2
  | .leave _ (.recyclePool _ _) => 1

/-- Accesses an operation of the queue still needs alone, at most; pushes aside. -/
def pcMeasure (z : BlockSize) (q : Queue V) : Pc V → ℕ
  | .pop pc => popMeasure z q pc
  | .single pc => singleMeasure pc
  | .read .emptyHead | .read .lenHead => 2
  | .read _ => 1
  | .idle | .fault | .push _ => 0

section Queue

theorem budget_snooze {wait wait' : ℕ} (h : snoozeBounded wait = some wait') :
    wait < snoozeLimit ∧ wait' = wait + 1 := by
  unfold snoozeBounded snooze at h
  split at h
  · cases h
  · rename_i hw
    have hlt : wait < snoozeLimit := by omega
    rw [if_pos hlt] at h
    exact ⟨hlt, (Option.some.inj h).symm⟩

theorem budget_spin (wait : ℕ) : budget (spin wait) ≤ budget wait := by
  unfold budget spin
  split <;> omega

/-- Every access of a pop running alone returns or lowers the measure. -/
theorem pop_lowers {pc pc' : PopPc V} {capacity : Option ℕ} {flag : ℕ}
    (h : (pc.exec z capacity flag false q).2.1 = .goto pc') :
    popMeasure z (pc.exec z capacity flag false q).1 pc' < popMeasure z q pc := by
  cases pc with
  | loadHead wait =>
    obtain rfl := Next.goto.inj h
    simp only [PopPc.exec, popMeasure, if_true]
    omega
  | loadBlock head wait =>
    simp only [PopPc.exec, popLoop] at h ⊢
    split at h
    · split at h
      · cases h
      · rename_i wait' hw
        obtain rfl := Next.goto.inj h
        obtain ⟨hlt, rfl⟩ := budget_snooze hw
        simp only [popMeasure, budget]
        split <;> omega
    · obtain rfl := Next.goto.inj h
      simp only [popMeasure]
      split <;> omega
  | loadState head block wait =>
    obtain rfl := Next.goto.inj h
    simp only [PopPc.exec]
    split <;> simp only [popMeasure] <;> split <;> omega
  | reloadHead head block wait =>
    simp only [PopPc.exec] at h ⊢
    split at h
    · cases h
    · rename_i hne
      obtain rfl := Next.goto.inj h
      simp only [popMeasure, if_true, if_neg hne]
      omega
  | claim head block wait =>
    simp only [PopPc.exec, and_true] at h ⊢
    by_cases hh : q.head.index = head
    · rw [if_pos hh] at h ⊢
      obtain rfl := Next.goto.inj h
      simp only [popMeasure, if_pos hh]
      cases capacity <;> simp only <;> omega
    · rw [if_neg hh] at h ⊢
      obtain rfl := Next.goto.inj h
      have hspin := budget_spin wait
      simp only [popMeasure, if_true, if_neg hh]
      omega
  | sample head block | storeBlock k v next | swapIndex k v | resetStart k v =>
    obtain rfl := Next.goto.inj h
    simp only [popMeasure]
    omega
  | readValue k =>
    simp only [PopPc.exec] at h
    split at h
    · cases h
    · obtain rfl := Next.goto.inj h
      split <;> simp only [popMeasure] <;> omega
  | loadNext k v =>
    simp only [PopPc.exec] at h
    split at h
    · cases h
    · obtain rfl := Next.goto.inj h
      simp only [popMeasure]
      omega
  | readersDone k v i =>
    obtain rfl := Next.goto.inj h
    split
    · simp only [popMeasure]
      omega
    · split <;> simp only [popMeasure] <;> omega
  | resetMark k v i =>
    obtain rfl := Next.goto.inj h
    split <;> simp only [popMeasure] <;> omega
  | recycleSpare k v =>
    simp only [PopPc.exec] at h
    split at h
    · cases h
    · obtain rfl := Next.goto.inj h
      simp only [popMeasure]
      omega
  | markRead k v | retire k v | recyclePool k v => cases h

theorem leaveEntry_measure (batch : Bool) (r : QueueSingle.Run V) :
    singleMeasure (.leave batch (leaveEntry z r)) ≤ 7 := by
  unfold leaveEntry
  split <;> simp [singleMeasure]

theorem batchLoop_measure (max : ℕ) (r : QueueSingle.Run V) :
    singleMeasure (batchLoop z max r) ≤ 7 ∨
      r.values.length < max ∧
        singleMeasure (batchLoop z max r) = 9 + 2 * (max - r.values.length) := by
  unfold batchLoop
  split
  · rename_i hlt
    exact .inr ⟨hlt, rfl⟩
  · exact .inl (leaveEntry_measure true r)

/-- Every access of an exclusive receive returns or lowers the measure. -/
theorem single_lowers {pc pc' : SinglePc V} {capacity : Option ℕ} {flag : ℕ} {fail : Bool}
    (h : (pc.exec z capacity flag fail q).2.1 = .goto pc') :
    singleMeasure pc' < singleMeasure pc := by
  have hadvanced : ∀ {batch : Bool} {r : QueueSingle.Run V} {wake : ℕ},
      advanced z batch r wake = .goto pc' → singleMeasure pc' = 3 := by
    intro batch r wake h
    unfold advanced at h
    split at h
    · obtain rfl := Next.goto.inj h
      rfl
    · cases h
  cases pc with
  | leave batch pc =>
    simp only [SinglePc.exec] at h
    cases pc with
    | loadNext r | recycleSpare r wake =>
      simp only [LeavePc.exec] at h
      split at h <;> first
        | obtain rfl := Next.goto.inj h
          simp [singleMeasure]
        | cases h
    | storeBlock r next | resetStart r wake =>
      obtain rfl := Next.goto.inj h
      simp [singleMeasure]
    | advance r =>
      simp only [LeavePc.exec] at h
      cases capacity with
      | none =>
        rw [hadvanced h]
        simp [singleMeasure]
      | some cap =>
        obtain rfl := Next.goto.inj h
        simp [singleMeasure]
    | sample r =>
      rw [hadvanced h]
      simp [singleMeasure]
    | recyclePool r wake => cases h
  | loadHead =>
    obtain rfl := Next.goto.inj h
    simp [singleMeasure]
  | loadBlock head | loadState head block | batchBlock limit head | batchHead limit =>
    simp only [SinglePc.exec] at h
    split at h <;> first
      | obtain rfl := Next.goto.inj h
        simp [singleMeasure]
      | cases h
  | readValue head block =>
    simp only [SinglePc.exec] at h
    split at h
    · cases h
    · obtain rfl := Next.goto.inj h
      exact Nat.lt_succ_of_le (leaveEntry_measure false _)
  | batchState limit head block =>
    simp only [SinglePc.exec] at h
    split at h
    · cases h
    · obtain rfl := Next.goto.inj h
      simp only [singleMeasure]
      omega
  | reserve max head block =>
    simp only [SinglePc.exec] at h
    split at h
    · cases h
    · obtain rfl := Next.goto.inj h
      change _ < 10 + 2 * max
      rcases batchLoop_measure (z := z) max ⟨head, block, []⟩ with hle | ⟨hlt, heq⟩
      · omega
      · rw [heq]
        omega
  | slotState max r =>
    obtain rfl := Next.goto.inj h
    change _ < 9 + 2 * (max - r.values.length)
    split
    · have hle := leaveEntry_measure (z := z) true r
      omega
    · simp only [singleMeasure]
      omega
  | slotValue max r =>
    simp only [SinglePc.exec] at h
    split at h
    · cases h
    · rename_i v _
      obtain rfl := Next.goto.inj h
      change _ < 8 + 2 * (max - r.values.length)
      rcases batchLoop_measure (z := z) max { r with values := r.values ++ [v] } with
        hle | ⟨hlt, heq⟩
      · omega
      · simp only [List.length_append, List.length_singleton] at hlt heq
        omega

/-- An operation other than a push moves on to a smaller measure. -/
theorem pc_lowers {pc pc' : Pc V} {flag : ℕ} {o : Outcome V (Pc V) (QueueMachine.Ret V)}
    (hp : ∀ p, pc ≠ .push p) (ho : pc.exec cfg flag false q = some o) (h : o.2.1 = .goto pc') :
    pcMeasure cfg.size o.1 pc' < pcMeasure cfg.size q pc := by
  cases pc with
  | idle | fault => cases ho
  | push pc => exact absurd rfl (hp pc)
  | pop pc =>
    rw [Pc.exec, Option.some.injEq] at ho
    subst ho
    cases hn : (pc.exec cfg.size cfg.capacity flag false q).2.1 with
    | goto pc₁ =>
      rw [hn] at h
      obtain rfl := Next.goto.inj h
      exact pop_lowers hn
    | ret r | fault =>
      rw [hn] at h
      cases h
  | single pc =>
    rw [Pc.exec, Option.some.injEq] at ho
    subst ho
    cases hn : (pc.exec cfg.size cfg.capacity flag false q).2.1 with
    | goto pc₁ =>
      rw [hn] at h
      obtain rfl := Next.goto.inj h
      exact single_lowers hn
    | ret r | fault =>
      rw [hn] at h
      cases h
  | read pc =>
    rw [Pc.exec, Option.some.injEq] at ho
    subst ho
    cases pc with
    | emptyHead | lenHead =>
      obtain rfl := Next.goto.inj h
      simp [pcMeasure]
    | _ => cases h

end Queue

/-- The receive belongs to a poll. -/
def RecvK.polls : RecvK → Bool
  | .call => false
  | .first _ | .second _ _ _ _ => true

/-- The agent goes on with a poll of a receive. -/
def Kont.polls : Kont V → Bool
  | .recvFirst _ | .recvReady _ _ => true
  | .received k _ => RecvK.polls k
  | _ => false

/-- The agent is inside the queue for a poll of a receive. -/
def QueueK.polls : QueueK V → Bool
  | .pop k | .isEmpty k => RecvK.polls k
  | .parkReceiver _ _ | .claimsBelow _ _ _ _ => true
  | _ => false

/-- The agent is in `Recv::poll`, shared or exclusive. -/
def polling : AgentPc Tid V → Bool
  | .registerReceiver _ | .wakeSelf _ _ => true
  | .recvState k => RecvK.polls k
  | .queue k _ => QueueK.polls k
  | .unregister _ _ k | .unregisterLocked _ _ _ k | .notify _ _ k | .waking _ k => Kont.polls k
  | _ => false

/-- `Recv::poll` is over: it returned, or handed a message to `recv_many`. -/
def PollOver (n : Goes Tid V) : Prop := n.2 ≠ none ∨ ∃ v limit, n.1 = .append v limit

/-- Most accesses of a pop running alone. -/
def popBudget (z : BlockSize) : ℕ := 15 + 2 * blockCap z + budget 0

/-- Most accesses of the rounds a registered receive has left. -/
def rounds (z : BlockSize) (wait : ℕ) : ℕ := (snoozeLimit - wait) * (popBudget z + 20)

/-- Accesses a poll needs beside those of the pop it is in. -/
def RecvK.left (z : BlockSize) : RecvK → ℕ
  | .call => 0
  | .first _ => rounds z 0 + popBudget z + 22
  | .second _ _ wait _ => rounds z wait + 14

/-- Accesses a poll needs after it unregistered or notified. -/
def Kont.left (z : BlockSize) : Kont V → ℕ
  | .recvFirst _ => rounds z 0 + 2 * popBudget z + 22
  | .received (.second _ _ _ _) _ => 5
  | _ => 0

/-- Accesses a poll needs beside those of the queue operation it is in. -/
def QueueK.left (z : BlockSize) : QueueK V → ℕ
  | .pop k => RecvK.left z k
  | .isEmpty k => RecvK.left z k - 4
  | .parkReceiver _ _ => rounds z 0 + popBudget z + 14
  | .claimsBelow _ _ wait _ => rounds z wait + 10
  | _ => 0

/-- Accesses a poll running alone still needs, at most. -/
def pollMeasure (z : BlockSize) (q : Queue V) : AgentPc Tid V → ℕ
  | .queue k pc => QueueK.left z k + pcMeasure z q pc
  | .recvState k => RecvK.left z k - 1
  | .registerReceiver _ => rounds z 0 + popBudget z + 16
  | .unregister _ _ k => Kont.left z k + 5
  | .unregisterLocked _ _ _ k => Kont.left z k + 4
  | .notify _ (some limit) k => Kont.left z k + 2 + limit
  | .waking wakers k => Kont.left z k + 1 + wakers.length
  | .wakeSelf _ _ => 1
  | _ => 0

section Poll

/-- A poll is over, or goes on with at most this measure. -/
def GoesOn (z : BlockSize) (q : Queue V) (bound : ℕ) (n : Goes Tid V) : Prop :=
  PollOver n ∨ (polling n.1 = true ∧ n.2 = none) ∧ pollMeasure z q n.1 ≤ bound

theorem enter_measure (k : RecvK) :
    pollMeasure cfg.size q (enter cfg (.pop k) : AgentPc Tid V) ≤
      RecvK.left cfg.size k + popBudget cfg.size := by
  unfold enter
  simp only [pollMeasure, QueueK.left, QueueK.op, popOp]
  refine Nat.add_le_add_left ?_ _
  unfold popBudget
  split
  · exact le_rfl
  · simp only [Op.entry, pcMeasure, singleMeasure]
    omega

theorem goesOn_resumes {k : Kont V} {n : Goes Tid V} (h : Resumes cfg k n)
    (hk : Kont.polls k = true) : GoesOn cfg.size q (Kont.left cfg.size k) n := by
  induction h with
  | recvFirst many =>
    refine .inr ⟨⟨rfl, rfl⟩, (enter_measure _).trans ?_⟩
    simp only [RecvK.left, Kont.left]
    omega
  | receivedFirst many v n _ ih => exact ih rfl
  | receivedSecond id tail wait many v =>
    refine .inr ⟨⟨rfl, rfl⟩, ?_⟩
    simp [pollMeasure, Kont.left]
  | recvReady v | recvClosed | manyClosed limit => exact .inl (.inl (by simp))
  | append v limit => exact .inl (.inr ⟨v, limit, rfl⟩)
  | _ => cases hk

theorem goesOn_again {id tail wait : ℕ} {many : Option ℕ} {n : Goes Tid V}
    (h : Again cfg id tail wait many n) : GoesOn cfg.size q (rounds cfg.size wait + 9) n := by
  cases h with
  | round wait' hw =>
    refine .inr ⟨⟨rfl, rfl⟩, (enter_measure _).trans ?_⟩
    obtain ⟨hlt, rfl⟩ := budget_snooze hw
    have hround : rounds cfg.size (wait + 1) + (popBudget cfg.size + 20) =
        rounds cfg.size wait := by
      unfold rounds
      rw [← Nat.succ_mul]
      congr 1
      omega
    simp only [RecvK.left]
    omega
  | gaveUp hw =>
    refine .inr ⟨⟨rfl, rfl⟩, ?_⟩
    simp only [pollMeasure]
    omega

/-- After an operation of the queue, a poll needs less than before it. -/
theorem goesOn_finishes {k : QueueK V} {r : QueueMachine.Ret V} {n : Goes Tid V}
    (h : Finishes cfg k r n) (hk : QueueK.polls k = true) :
    GoesOn cfg.size q (QueueK.left cfg.size k) n := by
  have hmono : ∀ {a b : ℕ} {n : Goes Tid V}, GoesOn cfg.size q a n → a ≤ b →
      GoesOn cfg.size q b n := fun h hab => h.imp id fun ⟨hp, hm⟩ => ⟨hp, hm.trans hab⟩
  cases h with
  | received k r v n _ hr =>
    refine hmono (goesOn_resumes hr hk) ?_
    cases k <;> simp only [Kont.left, QueueK.left, RecvK.left] <;> omega
  | receivedWake k r v _ =>
    refine .inr ⟨⟨hk, rfl⟩, ?_⟩
    cases k with
    | call => cases hk
    | first many | second id tail wait many =>
      simp only [pollMeasure, Kont.left, QueueK.left, RecvK.left]
      omega
  | nothing k r _ =>
    refine .inr ⟨⟨hk, rfl⟩, ?_⟩
    simp only [pollMeasure, QueueK.left]
    omega
  | receiverParked id many tail =>
    refine .inr ⟨⟨rfl, rfl⟩, (enter_measure _).trans ?_⟩
    simp only [RecvK.left, QueueK.left]
    omega
  | drainedFirst many n hr => exact hmono (goesOn_resumes hr rfl) (Nat.zero_le _)
  | drainedSecond id tail wait many =>
    refine .inr ⟨⟨rfl, rfl⟩, ?_⟩
    simp only [pollMeasure, Kont.left, QueueK.left, RecvK.left]
    omega
  | busyFirst many =>
    refine .inr ⟨⟨rfl, rfl⟩, ?_⟩
    simp only [pollMeasure, QueueK.left, RecvK.left]
    omega
  | busySecond id tail wait many n ha =>
    refine hmono (goesOn_again ha) ?_
    simp only [QueueK.left, RecvK.left]
    omega
  | claimsBelow id tail wait many n ha =>
    refine hmono (goesOn_again ha) ?_
    simp only [QueueK.left]
    omega
  | trulyEmpty id tail wait many => exact .inl (.inl (by simp))
  | _ => cases hk

variable [DecidableEq Tid] {c c' : Shared Tid V} {pc : AgentPc Tid V} {n : Goes Tid V}

/-- Outside the queue, a poll needs less than before it. -/
theorem goesOn_acts (h : Acts cfg c t pc c' n) (hp : polling pc = true) :
    PollOver n ∨ (polling n.1 = true ∧ n.2 = none) ∧
      pollMeasure cfg.size q n.1 < pollMeasure cfg.size q pc := by
  have hresume : ∀ {k : Kont V} {m : ℕ}, Resumes cfg k n → Kont.polls k = true →
      Kont.left cfg.size k < m →
      PollOver n ∨ (polling n.1 = true ∧ n.2 = none) ∧ pollMeasure cfg.size q n.1 < m :=
    fun hr hk hm => (goesOn_resumes hr hk).imp id fun ⟨hg, hle⟩ => ⟨hg, hle.trans_lt hm⟩
  cases h with
  | recvClosed k _ =>
    refine .inr ⟨⟨hp, rfl⟩, ?_⟩
    cases k with
    | call => cases hp
    | first many | second id tail wait many =>
      simp only [enter, QueueK.op, Op.entry, pollMeasure, QueueK.left, RecvK.left, pcMeasure]
      omega
  | emptyFirst many _ =>
    refine .inr ⟨⟨rfl, rfl⟩, ?_⟩
    simp only [pollMeasure, RecvK.left]
    omega
  | emptySecond id tail wait many _ =>
    refine .inr ⟨⟨rfl, rfl⟩, ?_⟩
    simp only [enter, QueueK.op, Op.entry, pollMeasure, QueueK.left, RecvK.left, pcMeasure]
    omega
  | readsZero side id k n _ hr =>
    refine hresume hr hp ?_
    simp only [pollMeasure]
    omega
  | readsWaiters side id k _ =>
    refine .inr ⟨⟨hp, rfl⟩, ?_⟩
    simp only [pollMeasure]
    omega
  | wokeNone k n hr | wokeLast w k n hr =>
    refine hresume hr hp ?_
    simp only [pollMeasure]
    omega
  | woke w wakers k _ =>
    refine .inr ⟨⟨hp, rfl⟩, ?_⟩
    simp only [pollMeasure, List.length_cons]
    omega
  | wokeSelf id many => exact .inl (.inl (by simp))
  | _ => cases hp

omit [DecidableEq Tid] in
/-- In a section of a list, a poll needs less than before it. -/
theorem goesOn_locked {side : Side} (h : Locked cfg c t side pc c' n) (hp : polling pc = true)
    (ht : tame pc = true) : PollOver n ∨ (polling n.1 = true ∧ n.2 = none) ∧
      pollMeasure cfg.size q n.1 < pollMeasure cfg.size q pc := by
  have hresume : ∀ {k : Kont V} {m : ℕ}, Kont.polls k = true → Kont.left cfg.size k < m →
      PollOver (resume cfg k : Goes Tid V) ∨
        (polling (resume cfg k : Goes Tid V).1 = true ∧ (resume cfg k : Goes Tid V).2 = none) ∧
          pollMeasure cfg.size q (resume cfg k : Goes Tid V).1 < m :=
    fun hk hm => (goesOn_resumes (resumes_resume _) hk).imp id
      (And.imp id fun hle => hle.trans_lt hm)
  cases h with
  | registerSender v => cases hp
  | registerReceiver many =>
    refine .inr ⟨⟨rfl, rfl⟩, ?_⟩
    simp only [enter, QueueK.op, Op.entry, pollMeasure, QueueK.left, pcMeasure]
    omega
  | remove side id forward k _ =>
    refine hresume hp ?_
    simp only [pollMeasure]
    omega
  | absent side id forward k _ =>
    cases forward with
    | false =>
      refine hresume hp ?_
      simp only [pollMeasure]
      omega
    | true =>
      refine .inr ⟨⟨hp, rfl⟩, ?_⟩
      simp only [pollMeasure, if_true]
      omega
  | notifyMany side limit k =>
    have hlen : (c.notifyMany side limit).2.length ≤ limit := by
      simp only [Shared.notifyMany, List.length_map, List.length_take]
      omega
    rcases wakeAll_cases cfg (c.notifyMany side limit).2 k with ⟨-, hr⟩ | ⟨-, hw⟩
    · refine (goesOn_resumes (q := q) hr hp).imp id (And.imp id fun hle => hle.trans_lt ?_)
      simp only [pollMeasure]
      omega
    · rw [hw]
      refine .inr ⟨⟨hp, rfl⟩, ?_⟩
      simp only [pollMeasure]
      omega
  | notifyAll side k =>
    rcases closing_of_announces ht with ⟨who, -, rfl⟩ | ⟨who, -, rfl⟩ <;> cases hp

end Poll

section Alone

variable [DecidableEq Tid] {s s' : ChannelMachine.State Tid V} {l : ChannelMachine.Label V}
  {τ : List (Tid × ChannelMachine.Label V)}

/-- One step of an agent that runs alone, no compare-exchange failing spuriously. -/
def solo (cfg : Config Tid) (t : Tid) (s : ChannelMachine.State Tid V) :
    Option (ChannelMachine.Label V × ChannelMachine.State Tid V) :=
  s.step cfg t (.run false)

theorem step_of_solo (h : solo cfg t s = some (l, s')) : ChannelMachine.Step cfg s (t, l) s' :=
  ⟨.run false, h, by simp⟩

omit [DecidableEq Tid] in
theorem moving_of_polling {pc : AgentPc Tid V} (h : polling pc = true) : moving pc = true := by
  cases pc <;> first | rfl | cases h

/-- A receive in the queue is no push. -/
theorem not_push_of_polls {k : QueueK V} {pc : Pc V} (h : Fits k pc) (hk : QueueK.polls k = true)
    (p : QueuePush.PushPc V) : pc ≠ .push p := by
  rintro rfl
  cases h
  cases hk

/-- A receive in the queue has an access left. -/
theorem pcMeasure_pos {k : QueueK V} {pc : Pc V} (h : Fits k pc) (hp : ∀ p, pc ≠ .push p) :
    0 < pcMeasure z q pc := by
  cases h with
  | push k v pc => exact absurd rfl (hp pc)
  | pop k pc =>
    cases pc <;> simp only [pcMeasure, popMeasure] <;> first
      | omega
      | split <;> omega
  | single k pc _ | batch k pc _ =>
    cases pc with
    | leave batch pc => cases pc <;> simp [pcMeasure, singleMeasure]
    | _ => simp only [pcMeasure, singleMeasure]; omega
  | _ => simp [pcMeasure]

/-- An agent that polls alone takes a step, after which the poll is over or
needs less. -/
theorem poll_step (h : ChannelMachine.Reach cfg τ s) (hp : polling (s.pc t) = true) :
    ∃ l s', solo cfg t s = some (l, s') ∧ (PollOver (s'.pc t, l.ret) ∨
      (polling (s'.pc t) = true ∧ l.ret = none) ∧
        pollMeasure cfg.size s'.shared.queue (s'.pc t) <
          pollMeasure cfg.size s.shared.queue (s.pc t)) := by
  obtain ⟨hq, hok⟩ := reach_queue h
  rcases run_enabled (hok t) (moving_of_polling hp) false with
    ⟨c, n, hact, hstep⟩ | ⟨k, pc, o, hpc, ho, hstep⟩
  · refine ⟨_, _, hstep, ?_⟩
    simp only [Function.update_self]
    rcases hact with ha | ⟨side, hl⟩
    · rw [ha.queue]
      exact goesOn_acts ha hp
    · rw [(queue_of_locked hl).1]
      exact goesOn_locked hl hp (tame_run h t)
  · refine ⟨_, _, hstep, ?_⟩
    simp only [Function.update_self]
    rw [hpc] at hp ⊢
    have hin := (hok t).inside
    rw [hpc] at hin
    rcases ends_of_access hq (hok t) hpc ho with ⟨pc', hn, hgo⟩ | ⟨r, hn, -, hf⟩
    · rw [hgo]
      refine .inr ⟨⟨hp, rfl⟩, ?_⟩
      have hlt := pc_lowers (not_push_of_polls hin hp) ho hn
      simp only [pollMeasure]
      omega
    · refine (goesOn_finishes (q := o.1) hf hp).imp id fun ⟨hg, hle⟩ => ⟨hg, hle.trans_lt ?_⟩
      have hpos := pcMeasure_pos (z := cfg.size) (q := s.shared.queue) hin
        (not_push_of_polls hin hp)
      simp only [pollMeasure]
      omega

/-- The position of the tail a registered receive has noted. -/
def snapshot : AgentPc Tid V → Option ℕ
  | .queue (.pop (.second _ tail _ _)) _ | .queue (.isEmpty (.second _ tail _ _)) _
  | .queue (.claimsBelow _ tail _ _) _ | .recvState (.second _ tail _ _) => some tail
  | _ => none

/-- The tail has not moved since the agent noted it. -/
def Noted (t : Tid) (s : ChannelMachine.State Tid V) : Prop :=
  ∀ tail, snapshot (s.pc t) = some tail → tail = s.shared.queue.tail.index

omit [DecidableEq Tid] in
theorem snapshot_resumes {k : Kont V} {n : Goes Tid V} (h : Resumes cfg k n) :
    snapshot n.1 = none := by
  induction h with
  | receivedFirst many v n _ ih => exact ih
  | _ => rfl

/-- What a receive has noted, it had noted before, or notes now. -/
theorem snapshot_step (h : ChannelMachine.Reach cfg τ s) (hs : ChannelMachine.Step cfg s (t, l) s')
    {tail : ℕ} (hn : snapshot (s'.pc t) = some tail) :
    snapshot (s.pc t) = some tail ∨ tail = s'.shared.queue.tail.index := by
  obtain ⟨hq, hok⟩ := reach_queue h
  have hnone : ∀ {k : Kont V} {n : Goes Tid V}, Resumes cfg k n → snapshot n.1 ≠ some tail :=
    fun hr => by simp [snapshot_resumes hr]
  have hwaking : ∀ {wakers : List (Waker Tid)} {k : Kont V},
      snapshot (wakeAll cfg wakers k).1 ≠ some tail := by
    intro wakers k
    rcases wakeAll_cases cfg wakers k with ⟨-, hr⟩ | ⟨-, hw⟩
    · exact hnone hr
    · simp [hw, snapshot]
  rcases turns hq hok hs with ⟨op, c, n, hstart, -, -, rfl⟩ | ⟨c, n, hact, -, rfl⟩ |
    ⟨side, c, n, hlocked, -, rfl⟩ | ⟨k, pc, fail, o, hpc, ho, -, rfl, hend⟩ <;>
    simp only [Function.update_self] at hn
  · generalize s.pc t = pc at hstart
    cases hstart with
    | pollRecv many =>
      cases many with
      | none => cases hn
      | some limit =>
        simp only [firstPoll] at hn
        split at hn <;> cases hn
    | _ => cases hn
  · generalize s.pc t = pc at hact
    cases hact with
    | readsZero side id k n _ hr | wokeNone k n hr | wokeLast w k n hr | appends v limit n hr =>
      exact absurd hn (hnone hr)
    | recvClosed k _ => exact .inl (by cases k <;> exact hn)
    | emptySecond id tail wait many _ => exact .inl hn
    | _ => cases hn
  · generalize s.pc t = pc at hlocked
    cases hlocked with
    | remove side id forward k _ => exact absurd hn (hnone (resumes_resume k))
    | absent side id forward k _ =>
      cases forward with
      | false => exact absurd hn (hnone (resumes_resume k))
      | true => cases hn
    | notifyMany side limit k | notifyAll side k => exact absurd hn hwaking
    | _ => cases hn
  · rw [hpc]
    have hin := (hok t).inside
    rw [hpc] at hin
    rcases hend with ⟨pc', -, hgo⟩ | ⟨r, hret, -, hf⟩
    · rw [hgo] at hn
      left
      cases k with
      | pop k | isEmpty k => cases k <;> exact hn
      | claimsBelow id tail wait many => exact hn
      | _ => cases hn
    · generalize k.next cfg o.2.1 = n at hf hn
      cases hf with
      | received k r v n _ hr | drainedFirst many n hr | batch many head values n hr
      | sent k v tail n hr => exact absurd hn (hnone hr)
      | nothing k r _ => exact .inl (by cases k <;> exact hn)
      | receiverParked id many tail' =>
        cases hin
        rw [Pc.exec, Option.some.injEq] at ho
        subst ho
        simp only [ReadPc.exec, Next.map, Next.ret.injEq, QueueMachine.Ret.read.injEq,
          ReadRet.parked.injEq] at hret
        have htail : tail' = tail := Option.some.inj hn
        exact .inr (htail ▸ hret.symm)
      | busySecond id tail' wait many n ha | claimsBelow id tail' wait many n ha =>
        cases ha with
        | round wait' _ => exact .inl hn
        | gaveUp _ => cases hn
      | _ => cases hn

/-- A poll of a receive leaves the tail alone. -/
theorem tail_step (h : ChannelMachine.Reach cfg τ s) (hs : ChannelMachine.Step cfg s (t, l) s')
    (hp : polling (s.pc t) = true) : s'.shared.queue.tail = s.shared.queue.tail := by
  obtain ⟨hq, hok⟩ := reach_queue h
  rcases turns hq hok hs with ⟨op, c, n, hstart, -, -, rfl⟩ |
    ⟨c, n, hact, -, rfl⟩ | ⟨side, c, n, hlocked, -, rfl⟩ | ⟨k, pc, fail, o, hpc, ho, -, rfl, -⟩
  · generalize s.pc t = pc at hstart hp
    cases hstart <;> cases hp
  · rw [hact.queue]
  · rw [(queue_of_locked hlocked).1]
  · have hin := (hok t).inside
    rw [hpc] at hin hp
    exact exec_tail ho (not_push_of_polls hin hp)

/-- A receive returns `Pending` when it has woken itself, or when it saw no
claimed value below the position it noted. -/
theorem pending_step (h : ChannelMachine.Reach cfg τ s) (hs : ChannelMachine.Step cfg s (t, l) s')
    (hp : polling (s.pc t) = true) (hr : l.ret = some .pending) :
    s'.shared.woken t = true ∨ ∃ tail, snapshot (s.pc t) = some tail ∧
      itemsBetween cfg.size s.shared.queue.head.index tail = 0 ∧
      s'.shared.queue = s.shared.queue := by
  obtain ⟨hq, hok⟩ := reach_queue h
  have hresumes : ∀ {k : Kont V} {n : Goes Tid V}, Resumes cfg k n → n.2 ≠ some .pending := by
    intro k n hr
    induction hr with
    | receivedFirst many v n _ ih => exact ih
    | _ => simp
  have hwaking : ∀ {wakers : List (Waker Tid)} {k : Kont V},
      (wakeAll cfg wakers k).2 ≠ some .pending := by
    intro wakers k
    rcases wakeAll_cases cfg wakers k with ⟨-, hr⟩ | ⟨-, hw⟩
    · exact hresumes hr
    · simp [hw]
  rcases turns hq hok hs with ⟨op, c, n, hstart, -, rfl, rfl⟩ | ⟨c, n, hact, rfl, rfl⟩ |
    ⟨side, c, n, hlocked, rfl, rfl⟩ | ⟨k, pc, fail, o, hpc, ho, rfl, rfl, hend⟩ <;>
    simp only at hr
  · generalize s.pc t = pc at hstart hp
    cases hstart <;> cases hp
  · generalize s.pc t = pc at hact hp
    cases hact with
    | readsZero side id k n _ hn | wokeNone k n hn | wokeLast w k n hn =>
      exact absurd hr (hresumes hn)
    | wokeSelf id many => exact .inl (woken_wake _ t)
    | appends v limit n hn => cases hp
    | _ => cases hr
  · generalize s.pc t = pc at hlocked hp
    cases hlocked with
    | remove side id forward k _ => exact absurd hr (hresumes (resumes_resume k))
    | absent side id forward k _ =>
      cases forward with
      | false => exact absurd hr (hresumes (resumes_resume k))
      | true => cases hr
    | notifyMany side limit k | notifyAll side k => exact absurd hr hwaking
    | _ => cases hr
  · rw [hpc] at hp ⊢
    have hin := (hok t).inside
    rw [hpc] at hin
    rcases hend with ⟨pc', -, hgo⟩ | ⟨r, hret, -, hf⟩
    · rw [hgo] at hr
      cases hr
    · generalize k.next cfg o.2.1 = n at hf hr
      cases hf with
      | received k r v n _ hn | drainedFirst many n hn | batch many head values n hn
      | sent k v tail n hn => exact absurd hr (hresumes hn)
      | fullSecond id v w => cases hp
      | busySecond id tail' wait many n ha | claimsBelow id tail' wait many n ha =>
        cases ha <;> cases hr
      | trulyEmpty id tail wait many =>
        cases hin
        rw [Pc.exec, Option.some.injEq] at ho
        subst ho
        simp only [ReadPc.exec, Next.map, Next.ret.injEq, QueueMachine.Ret.read.injEq,
          ReadRet.answer.injEq, decide_eq_false_iff_not, ne_eq, Decidable.not_not] at hret
        exact .inr ⟨tail, rfl, hret, rfl⟩
      | _ => cases hr

/-- The first program point of `Recv::poll`. -/
def StartsPoll (cfg : Config Tid) (pc : AgentPc Tid V) : Prop :=
  (∃ id many, pc = .unregister .receivers id (.recvFirst many)) ∨
    ∃ many, pc = enter cfg (.pop (.first many))

omit [DecidableEq Tid] in
theorem StartsPoll.snapshot {pc : AgentPc Tid V} (h : StartsPoll cfg pc) :
    ChannelSolo.snapshot pc = none := by
  rcases h with ⟨id, many, rfl⟩ | ⟨many, rfl⟩ <;> rfl

/-- A pop that runs alone takes a step, after which it returned or needs less. -/
theorem pop_step (h : ChannelMachine.Reach cfg τ s) {k : RecvK} {pc : Pc V}
    (hpc : s.pc t = .queue (.pop k) pc) :
    ∃ l s', solo cfg t s = some (l, s') ∧ ((∃ e r rest, l.queue = .access e (some r) :: rest) ∨
      ∃ pc', s'.pc t = .queue (.pop k) pc' ∧
        pcMeasure cfg.size s'.shared.queue pc' < pcMeasure cfg.size s.shared.queue pc) := by
  obtain ⟨hq, hok⟩ := reach_queue h
  rcases run_enabled (hok t) (by rw [hpc]; rfl) false with
    ⟨c, n, hact, -⟩ | ⟨k', pc', o, hpc', ho, hstep⟩
  · rw [hpc] at hact
    rcases hact with ha | ⟨side, hl⟩
    · cases ha
    · cases hl
  · obtain ⟨rfl, rfl⟩ := AgentPc.queue.inj (hpc'.symm.trans hpc)
    refine ⟨_, _, hstep, ?_⟩
    have hin := (hok t).inside
    rw [hpc] at hin
    rcases ends_of_access hq (hok t) hpc' ho with ⟨pc₁, hn, hgo⟩ | ⟨r, hn, -, -⟩
    · refine .inr ⟨pc₁, ?_, pc_lowers (fun p hp => ?_) ho hn⟩
      · rw [hgo]
        exact Function.update_self ..
      · rw [hp] at hin
        cases hin
    · exact .inl ⟨_, r, _, by rw [hn]; rfl⟩

/-- An agent that polls alone comes to the end of its poll. If the poll ran
alone from its start and returns `Pending` while a claimed value is not taken,
the agent has woken itself. -/
theorem poll_alone (h : ChannelMachine.Reach cfg τ s) (hp : polling (s.pc t) = true) :
    ∃ n ≤ pollMeasure cfg.size s.shared.queue (s.pc t), ∃ ls l s',
      iterate (solo cfg t) (n + 1) s = some (ls ++ [l], s') ∧ PollOver (s'.pc t, l.ret) ∧
        (StartsPoll cfg (s.pc t) → l.ret = some .pending →
          (∃ p, IsValue cfg.size p ∧ s'.shared.queue.head.index ≤ p ∧
            p < s'.shared.queue.tail.index) → s'.shared.woken t = true) := by
  refine iterate_done (f := solo cfg t)
    (fun m => (∃ τ, ChannelMachine.Reach cfg τ m) ∧ polling (m.pc t) = true ∧
      (StartsPoll cfg (s.pc t) → Noted t m))
    (fun l m => PollOver (m.pc t, l.ret) ∧ (StartsPoll cfg (s.pc t) → l.ret = some .pending →
      (∃ p, IsValue cfg.size p ∧ m.shared.queue.head.index ≤ p ∧
        p < m.shared.queue.tail.index) → m.shared.woken t = true))
    (fun m => pollMeasure cfg.size m.shared.queue (m.pc t)) ?_ s
    ⟨⟨τ, h⟩, hp, fun hstart tail hn => absurd hn (by simp [hstart.snapshot])⟩
  rintro m ⟨⟨τ, h⟩, hp, hnoted⟩
  obtain ⟨l, m', hs, hd | ⟨⟨hp', hret⟩, hlt⟩⟩ := poll_step h hp
  · refine ⟨l, m', hs, .inl ⟨hd, fun hstart hr hclaimed => ?_⟩⟩
    rcases pending_step h (step_of_solo hs) hp hr with hw | ⟨tail, hsnap, hitems, hqueue⟩
    · exact hw
    · obtain ⟨p, hv, hhead, htail⟩ := hclaimed
      rw [hqueue] at hhead htail
      rw [hnoted hstart tail hsnap] at hitems
      exact absurd hv (itemsBetween_eq_zero_iff.mp hitems p hhead htail)
  · refine ⟨l, m', hs, .inr ⟨⟨⟨_, h.tail (step_of_solo hs)⟩, hp', fun hstart tail hn => ?_⟩, hlt⟩⟩
    rcases snapshot_step h (step_of_solo hs) hn with hn | hn
    · rw [tail_step h (step_of_solo hs) hp]
      exact hnoted hstart tail hn
    · exact hn

/-- A receive between polls can be polled. -/
theorem recv_poll_starts {id many : Option ℕ} (hpc : s.pc t = .receiving id many)
    (hid : id = none → many = none) :
    ∃ l m, s.step cfg t (.call .poll) = some (l, m) ∧ polling (m.pc t) = true ∧
      StartsPoll cfg (m.pc t) := by
  cases id with
  | some id =>
    refine ⟨_, _, by simp only [ChannelMachine.State.step, hpc, startOp]; rfl, ?_, ?_⟩
    · simp [polling, Kont.polls]
    · exact .inl ⟨id, many, by simp⟩
  | none =>
    obtain rfl := hid rfl
    refine ⟨_, _, by simp only [ChannelMachine.State.step, hpc, startOp]; rfl, ?_, ?_⟩
    · simp [polling, enter, QueueK.polls, RecvK.polls]
    · exact .inr ⟨none, by simp⟩

end Alone

/-- Any reachable state of a channel, shared or exclusive, with all agents but
one paused where they are. A pop of this agent returns after finitely many of
its own steps, and so does a whole `Recv::poll`; if a poll that ran alone from
its start returns `Pending` while a claimed value is not taken, the agent has
woken its own task. -/
theorem receive_alone_returns [DecidableEq Tid] {s : ChannelMachine.State Tid V}
    {τ : List (Tid × ChannelMachine.Label V)} (h : ChannelMachine.Reach cfg τ s) (t : Tid) :
    (∀ k pc, s.pc t = .queue (.pop k) pc →
      ∃ n ≤ pcMeasure cfg.size s.shared.queue pc, ∃ ls l s',
        iterate (solo cfg t) (n + 1) s = some (ls ++ [l], s') ∧
          ∃ e r rest, l.queue = .access e (some r) :: rest) ∧
    (polling (s.pc t) = true →
      ∃ n ≤ pollMeasure cfg.size s.shared.queue (s.pc t), ∃ ls l s',
        iterate (solo cfg t) (n + 1) s = some (ls ++ [l], s') ∧ PollOver (s'.pc t, l.ret) ∧
          (StartsPoll cfg (s.pc t) → l.ret = some .pending →
            (∃ p, IsValue cfg.size p ∧ s'.shared.queue.head.index ≤ p ∧
              p < s'.shared.queue.tail.index) → s'.shared.woken t = true)) ∧
    ∀ id many, s.pc t = .receiving id many → (id = none → many = none) →
      ∃ l m, s.step cfg t (.call .poll) = some (l, m) ∧ polling (m.pc t) = true ∧
        StartsPoll cfg (m.pc t) := by
  refine ⟨fun k pc hpc => ?_, fun hp => ?_, fun id many hpc hid => ?_⟩
  · have hdone := iterate_done (f := solo cfg t)
      (fun s => (∃ τ, ChannelMachine.Reach cfg τ s) ∧ ∃ pc, s.pc t = .queue (.pop k) pc)
      (fun l _ => ∃ e r rest, l.queue = .access e (some r) :: rest)
      (fun s => pcMeasure cfg.size s.shared.queue (queuePc (s.pc t))) ?_ s ⟨⟨τ, h⟩, pc, hpc⟩
    · simpa only [hpc, queuePc] using hdone
    · rintro s ⟨⟨τ, h⟩, pc, hpc⟩
      obtain ⟨l, s', hs, hd | ⟨pc', hpc', hlt⟩⟩ := pop_step h hpc
      · exact ⟨l, s', hs, .inl hd⟩
      · exact ⟨l, s', hs, .inr ⟨⟨⟨_, h.tail (step_of_solo hs)⟩, pc', hpc'⟩,
          by simpa only [hpc, hpc', queuePc] using hlt⟩⟩
  · exact poll_alone h hp
  · exact recv_poll_starts hpc hid

/-- Agent 0 claims a position and pauses, and agent 1 polls a receive. -/
def pausedSend : List (Fin 2 × ChannelMachine.Choice ℕ) :=
  (0, .call (.trySend 7)) :: List.replicate 4 (0, .run false) ++
  [(1, .call .recv), (1, .call .poll)]

/-- Beside a sender that pauses after its claim, a poll comes to an end. -/
theorem receive_alone_returns_of_pausedSend :
    ∃ (τ : List (Fin 2 × ChannelMachine.Label ℕ)) (s s' : ChannelMachine.State (Fin 2) ℕ) (n : ℕ)
      (ls : List (ChannelMachine.Label ℕ)) (l : ChannelMachine.Label ℕ),
      ChannelMachine.Reach ChannelMutex.shared τ s ∧ s.shared.queue.tail.index = 1 ∧
        iterate (solo ChannelMutex.shared 1) (n + 1) s = some (ls ++ [l], s') ∧
        PollOver (s'.pc 1, l.ret) := by
  have h : ((ChannelMachine.State.init (Fin 2) ℕ).runs ChannelMutex.shared pausedSend).map
      (fun a => (a.2.shared.queue.tail.index, polling (a.2.pc 1))) = some (1, true) := by
    decide +kernel
  obtain ⟨⟨τ, s⟩, hrun, h⟩ := Option.map_eq_some_iff.mp h
  obtain ⟨htail, hpoll⟩ := Prod.mk.inj h
  have hreach := ChannelMachine.State.runs_run ChannelMutex.shared hrun
  obtain ⟨n, -, ls, l, s', hsolo, hover, -⟩ := (receive_alone_returns hreach 1).2.1 hpoll
  exact ⟨τ, s, s', n, ls, l, hreach, htail, hsolo, hover⟩

end Rapidfire.ChannelSolo
