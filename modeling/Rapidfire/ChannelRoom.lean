import Rapidfire.ChannelBalance

/-!
# Senders that wait for room

A send that finds a bounded queue full registers, looks once more and waits. At
that look no slot is free, and from then on every slot that a receive frees is
covered by a wake which nobody loses before it is used.
-/

namespace Rapidfire.ChannelRoom

open Positions QueueMemory QueuePush QueuePop QueueSingle QueueMachine QueueHistory QueueLocal
  QueueAlone ChannelState ChannelMachine ChannelQueue ChannelWaiters ChannelTurns ChannelWakes
  ChannelClose ChannelSleeper ChannelBalance Runs Balance

variable {Tid V : Type} {cfg : Config Tid} {t u : Tid} {z : BlockSize} {flag cap : ℕ} {fail : Bool}
  {q : Queue V}

section Owing

/-- Senders to notify by the result of a receive. -/
def retWakes : QueueMachine.Ret V → ℕ
  | .pop (.popped _ _ wake) | .single (.popped _ _ wake) => wake.toNat
  | .single (.batch _ _ wake) => wake
  | _ => 0

/-- Wakes a receive has sampled after an access. -/
def sampledAfter : Next (Pc V) (QueueMachine.Ret V) → ℕ
  | .goto pc => sampledWakes pc
  | .ret r => retWakes r
  | .fault => 0

/-- Wakes a receive owes after an access. -/
def owedAfter : Next (Pc V) (QueueMachine.Ret V) → ℕ
  | .goto pc => sampledWakes pc + unsampledSlots pc
  | .ret r => retWakes r
  | .fault => 0

/-- A pop owes a wake for the slot it frees, while a sender waits. -/
theorem pop_owes {pc : PopPc V} (hflag : flag ≠ 0)
    (hf : (pc.exec z (some cap) flag fail q).2.1 ≠ .fault) :
    (takes (pc.exec z (some cap) flag fail q).2.2).length + sampledWakes (.pop pc) +
        unsampledSlots (.pop pc) ≤
      owedAfter ((pc.exec z (some cap) flag fail q).2.1.map Pc.pop QueueMachine.Ret.pop) ∧
    sampledWakes (.pop pc) ≤
      sampledAfter ((pc.exec z (some cap) flag fail q).2.1.map Pc.pop QueueMachine.Ret.pop) := by
  cases pc with
  | claim head block wait =>
    simp only [PopPc.exec]
    split <;> simp [sampledWakes, unsampledSlots, popWake, owedAfter, takes, Next.map]
  | sample head block =>
    simp [PopPc.exec, sampledWakes, unsampledSlots, popWake, owedAfter, takes, Next.map, hflag]
  | readValue k =>
    revert hf
    simp only [PopPc.exec]
    cases q.value k.block (offset z k.head) with
    | none => exact fun hf => absurd rfl hf
    | some v =>
      intro _
      by_cases hlast : offset z k.head + 1 = blockCap z <;>
        simp [hlast, sampledWakes, unsampledSlots, popWake, owedAfter, sampledAfter, takes, Next.map]
  | loadNext k v =>
    revert hf
    simp only [PopPc.exec]
    cases q.next k.block with
    | none => exact fun hf => absurd rfl hf
    | some n =>
      intro _
      simp [sampledWakes, unsampledSlots, popWake, owedAfter, sampledAfter, takes, Next.map]
  | readersDone k v i | resetMark k v i | recycleSpare k v =>
    simp only [PopPc.exec]
    (repeat' split) <;> simp [sampledWakes, unsampledSlots, popWake, owedAfter, sampledAfter,
      retWakes, takes, Next.map]
  | loadHead wait | loadBlock head wait | loadState head block wait | reloadHead head block wait =>
    simp [PopPc.exec, sampledWakes, unsampledSlots, popWake, takes]
  | _ => simp [PopPc.exec, sampledWakes, unsampledSlots, popWake, owedAfter, sampledAfter, retWakes,
      takes, Next.map]

/-- Leaving a batch, or a single receive, hands on what was sampled. -/
theorem result_wakes {r : QueueSingle.Run V} {batch : Bool} {wake : ℕ}
    (hlen : batch = false → r.values.length = 1) :
    retWakes (.single (r.result batch wake)) = if batch then wake else min wake 1 := by
  cases batch with
  | true => simp [QueueSingle.Run.result, retWakes]
  | false =>
    obtain ⟨v, hv⟩ := List.length_eq_one_iff.mp (hlen rfl)
    simp only [QueueSingle.Run.result, hv, retWakes, Bool.false_eq_true, if_false, Bool.toNat,
      Bool.cond_decide]
    split <;> omega

/-- An exclusive receive owes a wake for each slot it frees, while a sender
waits, or promises to take out all senders that wait. -/
theorem single_owes {pc : SinglePc V} (hflag : flag ≠ 0)
    (hlen : ∀ pc', pc = .leave false pc' → (leaveRun pc').values.length = 1)
    (hf : (pc.exec z (some cap) flag fail q).2.1 ≠ .fault) :
    ((takes (pc.exec z (some cap) flag fail q).2.2).length + sampledWakes (.single pc) +
        unsampledSlots (.single pc) ≤
      owedAfter ((pc.exec z (some cap) flag fail q).2.1.map Pc.single QueueMachine.Ret.single) ∨
    flag ≤
      sampledAfter ((pc.exec z (some cap) flag fail q).2.1.map Pc.single QueueMachine.Ret.single)) ∧
    sampledWakes (.single pc) ≤
      sampledAfter ((pc.exec z (some cap) flag fail q).2.1.map Pc.single QueueMachine.Ret.single) := by
  cases pc with
  | leave batch pc =>
    have hlen' : batch = false → (leaveRun pc).values.length = 1 := by
      rintro rfl
      exact hlen pc rfl
    have hwakes : ∀ wake, retWakes (.single ((leaveRun pc).result batch wake)) =
        if batch then wake else min wake 1 := fun wake => result_wakes hlen'
    cases pc with
    | loadNext r =>
      revert hf
      simp only [SinglePc.exec, LeavePc.exec]
      cases q.next r.block with
      | none => exact fun hf => absurd rfl hf
      | some n =>
        intro _
        simp [sampledWakes, unsampledSlots, singleWake, owedAfter, takes, Next.map]
    | storeBlock r next | advance r =>
      simp [SinglePc.exec, LeavePc.exec, sampledWakes, unsampledSlots, singleWake, owedAfter, takes,
        Next.map]
    | sample r =>
      simp only [leaveRun] at hwakes
      have hsampled : r.values.length ≤ (if batch then sampled batch flag r else
          min (sampled batch flag r) 1) ∨ flag ≤ if batch then sampled batch flag r else
          min (sampled batch flag r) 1 := by
        cases batch with
        | true =>
          simp only [sampled, if_true]
          omega
        | false =>
          have hone : r.values.length = 1 := hlen' rfl
          simp only [sampled, Bool.false_eq_true, if_false, if_pos hflag]
          omega
      simp only [SinglePc.exec, LeavePc.exec, advanced]
      split
      · simpa [sampledWakes, unsampledSlots, singleWake, owedAfter, sampledAfter, takes, Next.map]
          using hsampled
      · simpa [sampledWakes, unsampledSlots, singleWake, owedAfter, sampledAfter, takes, Next.map,
          hwakes] using hsampled
    | resetStart r wake =>
      simp [SinglePc.exec, LeavePc.exec, sampledWakes, unsampledSlots, singleWake, owedAfter,
        sampledAfter, takes, Next.map]
    | recycleSpare r wake =>
      simp only [leaveRun] at hwakes
      simp only [SinglePc.exec, LeavePc.exec]
      split <;> simp [sampledWakes, unsampledSlots, singleWake, owedAfter, sampledAfter, takes,
        Next.map, hwakes]
    | recyclePool r wake =>
      simp only [leaveRun] at hwakes
      simp [SinglePc.exec, LeavePc.exec, sampledWakes, unsampledSlots, singleWake, owedAfter,
        sampledAfter, takes, Next.map, hwakes]
  | readValue head block | slotValue max r =>
    simp only [SinglePc.exec]
    split <;> simp [sampledWakes, unsampledSlots, singleWake, takes]
  | _ => simp [SinglePc.exec, sampledWakes, unsampledSlots, singleWake, takes]

/-- What a receive has sampled it goes on to promise, and what it owes it goes on
to owe. -/
theorem owed_next {k : QueueK V} {n : Next (Pc V) (QueueMachine.Ret V)}
    (hk : (∃ j, k = .pop j) ∨ ∃ many, k = .batch many) (hret : ∀ r, n = .ret r → FitsRet k r) :
    owedAfter n ≤ slotSupply z (k.next cfg n).1 ∧
      sampledAfter n ≤ promises .senders (k.next cfg n).1 := by
  cases n with
  | goto pc =>
    rcases hk with ⟨j, rfl⟩ | ⟨many, rfl⟩
    · exact ⟨le_rfl, le_rfl⟩
    · exact ⟨le_rfl, le_rfl⟩
  | fault => exact ⟨Nat.zero_le _, Nat.zero_le _⟩
  | ret r =>
    have hfits := hret r rfl
    cases hfits with
    | popped j head v wake | poppedSingle j head v wake =>
      cases wake with
      | true => exact ⟨le_rfl, le_rfl⟩
      | false => exact ⟨Nat.zero_le _, Nat.zero_le _⟩
    | batch many head values wake =>
      by_cases hwake : wake = 0
      · subst hwake
        exact ⟨Nat.zero_le _, Nat.zero_le _⟩
      · simp only [QueueK.next, finish_batch, if_pos hwake]
        exact ⟨le_rfl, le_rfl⟩
    | _ => exact ⟨Nat.zero_le _, Nat.zero_le _⟩

end Owing

section Room

variable [DecidableEq Tid] {s s' : ChannelMachine.State Tid V} {l : ChannelMachine.Label V}
  {τ : List (Tid × ChannelMachine.Label V)}

/-- Slots of a bounded queue that are free. -/
def freeSlots (z : BlockSize) (cap : ℕ) (q : Queue V) : ℕ := cap - items z q

/-- A push that is refused was refused while no slot was free. -/
theorem full_of_refused (h : ChannelMachine.Reach cfg τ s) (hcap : cfg.capacity = some cap)
    {k : SendK} {v w : V} {pc : PushPc V} (hpc : s.pc t = .queue (.push k v) (.push pc))
    (hn : (pc.exec cfg.size flag fail s.shared.queue).2.1 = .ret (.full w)) :
    freeSlots cfg.size cap (pc.exec cfg.size flag fail s.shared.queue).1 = 0 := by
  obtain ⟨cap', tail, rfl, hge⟩ := QueueCapacity.full_exec hn
  obtain ⟨hq, -⟩ := reach_queue h
  obtain ⟨g, hg⟩ := QueueInvariant.reach_inv hq
  have hlocal := hg.assertion t
  simp only [queueState, hpc, queuePc] at hlocal
  obtain ⟨hc', -, htail⟩ := hlocal
  obtain rfl : cap' = cap := Option.some.inj (hc'.symm.trans hcap)
  have hmono : itemsBetween cfg.size s.shared.queue.head.index tail ≤
      items cfg.size s.shared.queue := itemsBetween_mono_right htail
  simp only [items] at hmono
  simp only [PushPc.exec, if_pos hge, freeSlots, items]
  omega

/-- No more values are queued than the capacity allows. -/
theorem items_le_cap (h : ChannelMachine.Reach cfg τ s) (hcap : cfg.capacity = some cap) :
    items cfg.size s.shared.queue ≤ cap := by
  obtain ⟨hq, -⟩ := reach_queue h
  obtain ⟨g, hg⟩ := QueueInvariant.reach_inv hq
  exact hg.coherent.capacity cap hcap

omit [DecidableEq Tid] in
/-- An access of a push: what it holds changes with the free slots, or it is
refused while no slot is free. -/
theorem push_balance {k : SendK} {v : V} {pc : PushPc V}
    (haccounts : Accounts z (Pc.push pc) (pc.exec z flag fail q).2.2
      (nextRet ((pc.exec z flag fail q).2.1.map Pc.push QueueMachine.Ret.push))
      (nextPc ((pc.exec z flag fail q).2.1.map Pc.push QueueMachine.Ret.push)))
    (hf : (pc.exec z flag fail q).2.1 ≠ .fault) :
    (takes (pc.exec z flag fail q).2.2).length +
          slotSupply z (.queue (.push k v) (.push pc) : AgentPc Tid V) ≤
        (claims (pc.exec z flag fail q).2.2).length + slotSupply z ((QueueK.push k v).next cfg
          ((pc.exec z flag fail q).2.1.map Pc.push QueueMachine.Ret.push)).1 ∨
      ∃ w, (pc.exec z flag fail q).2.1 = .ret (.full w) := by
  have hclaim := congrArg List.length haccounts.claim
  have htaken := congrArg List.length haccounts.inflight
  simp only [List.length_append, List.length_map] at hclaim htaken
  have htakes : (takes (pc.exec z flag fail q).2.2).length = 0 := by
    cases hn : (pc.exec z flag fail q).2.1 with
    | fault => exact absurd hn hf
    | goto pc' => simpa [hn, Next.map, nextRet, nextPc, inflight] using htaken
    | ret r => simpa [hn, Next.map, nextRet, nextPc, inflight, Ret.received] using htaken
  rw [htakes]
  have hsupply : ∀ pc' : PushPc V, slotSupply z (.queue (.push k v) (.push pc') : AgentPc Tid V) =
      if claimOf z (.push pc') = [] then slotSupply z (.trySend k v : AgentPc Tid V) else 0 := by
    intro pc'
    cases k with
    | first => rfl
    | call | second id => simp [slotSupply, sampledWakes, unsampledSlots]
  have hle : slotSupply z (.trySend k v : AgentPc Tid V) ≤ 1 := by
    cases k <;> simp [slotSupply]
  rw [hsupply]
  cases hn : (pc.exec z flag fail q).2.1 with
  | fault => exact absurd hn hf
  | goto pc' =>
    left
    rw [hn] at hclaim
    change _ ≤ _ + slotSupply z (.queue (.push k v) (.push pc') : AgentPc Tid V)
    rw [hsupply]
    simp only [Next.map, nextRet, nextPc, Option.toList, List.flatMap_nil, List.length_nil] at hclaim
    by_cases hmine : claimOf z (.push pc) = []
    · by_cases hthen : claimOf z (.push pc') = []
      · rw [if_pos hmine, if_pos hthen]
        omega
      · have hpos := List.length_pos_of_ne_nil hthen
        rw [hmine, List.length_nil] at hclaim
        rw [if_pos hmine, if_neg hthen]
        omega
    · rw [if_neg hmine]
      omega
  | ret r =>
    cases r with
    | full w => exact .inr ⟨w, rfl⟩
    | pushed tail wake =>
      left
      rw [hn] at hclaim
      have hone : (claimOf z (.push pc)).length + (claims (pc.exec z flag fail q).2.2).length = 1 := by
        simpa [Next.map, nextRet, nextPc, acceptedRet, claimOf, writes] using hclaim
      by_cases hmine : claimOf z (.push pc) = []
      · rw [hmine, List.length_nil] at hone
        rw [if_pos hmine]
        omega
      · rw [if_neg hmine]
        exact Nat.zero_le _

omit [DecidableEq Tid] in
/-- While a sender is in line, an access of a receive changes what the agent holds
with the slots it frees, or promises to take out all senders in line. -/
theorem receive_balance {k : QueueK V} {pc : Pc V} {o : Outcome V (Pc V) (QueueMachine.Ret V)}
    {g : QueueCoherence.Ghost Tid V} (hcap : cfg.capacity = some cap) (hflag : flag ≠ 0)
    (hin : Fits k pc) (hlocal : Local cfg q g t pc) (hpush : ∀ pp, pc ≠ .push pp)
    (ho : pc.exec cfg flag fail q = some o) (hf : o.2.1 ≠ .fault) :
    ((takes o.2.2).length + slotSupply z (.queue k pc : AgentPc Tid V) ≤
          slotSupply z (k.next cfg o.2.1).1 ∨ flag ≤ promises .senders (k.next cfg o.2.1).1) ∧
      promises .senders (.queue k pc : AgentPc Tid V) ≤ promises .senders (k.next cfg o.2.1).1 := by
  have hret := (exec_fits hin ho).2
  have hnext : (∃ j, k = .pop j) ∨ (∃ many, k = .batch many) →
      owedAfter o.2.1 ≤ slotSupply z (k.next cfg o.2.1).1 ∧
        sampledAfter o.2.1 ≤ promises .senders (k.next cfg o.2.1).1 := fun hk => owed_next hk hret
  cases pc with
  | idle | fault => cases ho
  | push pc => exact absurd rfl (hpush pc)
  | pop pc =>
    rw [Pc.exec, Option.some.injEq, hcap] at ho
    subst ho
    cases hin with
    | pop j _ =>
      obtain ⟨howed, hsampled⟩ := hnext (.inl ⟨j, rfl⟩)
      obtain ⟨howes, hsamples⟩ := @pop_owes V cfg.size flag cap fail q pc hflag
        fun hn => hf (by simp [hn, Next.map])
      have hsupply : slotSupply z (.queue (.pop j) (.pop pc) : AgentPc Tid V) =
          sampledWakes (.pop pc) + unsampledSlots (.pop pc) := rfl
      have hpromises : promises .senders (.queue (.pop j) (.pop pc) : AgentPc Tid V) =
          sampledWakes (.pop pc) := rfl
      rw [hsupply, hpromises, ← Nat.add_assoc]
      exact ⟨.inl (howes.trans howed), hsamples.trans hsampled⟩
  | single pc =>
    have hk : (∃ j, k = .pop j) ∨ ∃ many, k = .batch many := by
      cases hin with
      | single j _ _ => exact .inl ⟨j, rfl⟩
      | batch many _ _ => exact .inr ⟨many, rfl⟩
    have hsupply : slotSupply z (.queue k (.single pc) : AgentPc Tid V) =
        sampledWakes (.single pc) + unsampledSlots (.single pc) := by
      rcases hk with ⟨j, rfl⟩ | ⟨many, rfl⟩ <;> rfl
    have hpromises : promises .senders (.queue k (.single pc) : AgentPc Tid V) =
        sampledWakes (.single pc) := rfl
    obtain ⟨howed, hsampled⟩ := hnext hk
    rw [Pc.exec, Option.some.injEq, hcap] at ho
    subst ho
    obtain ⟨howes, hsamples⟩ := @single_owes V cfg.size flag cap fail q pc hflag
      (fun pc' he => by
        obtain ⟨-, hl⟩ := hlocal
        rw [he] at hl
        exact hl.1 rfl) fun hn => hf (by simp [hn, Next.map])
    rw [hsupply, hpromises, ← Nat.add_assoc]
    refine ⟨?_, hsamples.trans hsampled⟩
    rcases howes with howes | howes
    · exact .inl (howes.trans howed)
    · exact .inr (howes.trans hsampled)
  | read pc =>
    have hzero : slotSupply z (.queue k (.read pc) : AgentPc Tid V) = 0 := by
      cases hin <;> rfl
    have hnone : promises .senders (.queue k (.read pc) : AgentPc Tid V) = 0 := rfl
    rw [Pc.exec, Option.some.injEq] at ho
    subst ho
    have htakes : (takes (pc.exec cfg.size cfg.capacity q).2.2).length = 0 := by
      cases pc <;> rfl
    rw [hzero, hnone, Nat.add_zero]
    exact ⟨.inl (htakes.trans_le (Nat.zero_le _)), Nat.zero_le _⟩

/-- While a sender is in line, an access changes what the agent holds with the
free slots, unless none is free, or it promises to take out all senders in line. -/
theorem slot_access (h : ChannelMachine.Reach cfg τ s) (hcap : cfg.capacity = some cap)
    (hcount : s.shared.count .senders ≠ 0) {k : QueueK V} {pc : Pc V}
    {o : Outcome V (Pc V) (QueueMachine.Ret V)} (hpc : s.pc t = .queue k pc)
    (ho : pc.exec cfg (sampledCount s.shared pc) fail s.shared.queue = some o) :
    (freeSlots cfg.size cap o.1 = 0 ∨
      s.shared.count .senders ≤ promises .senders (k.next cfg o.2.1).1 ∨
      freeSlots cfg.size cap o.1 + slotSupply cfg.size (s.pc t) ≤
        freeSlots cfg.size cap s.shared.queue + slotSupply cfg.size (k.next cfg o.2.1).1) ∧
      promises .senders (s.pc t) ≤ promises .senders (k.next cfg o.2.1).1 := by
  obtain ⟨hq, hok⟩ := reach_queue h
  obtain ⟨g, hg⟩ := QueueInvariant.reach_inv hq
  obtain ⟨g', hg', haccounts⟩ := queue_access hg hpc ho
  have hitems := items_access h hpc ho
  have hle : items cfg.size s.shared.queue ≤ cap := hg.coherent.capacity cap hcap
  have hle' : items cfg.size o.1 ≤ cap := hg'.inv.coherent.capacity cap hcap
  have hin := (hok t).inside
  have hlocal := hg.assertion t
  simp only [queueState, hpc, queuePc] at hlocal
  rw [hpc] at hin
  have hbalance : (takes o.2.2).length + slotSupply cfg.size (s.pc t) ≤
      (claims o.2.2).length + slotSupply cfg.size (k.next cfg o.2.1).1 →
      freeSlots cfg.size cap o.1 + slotSupply cfg.size (s.pc t) ≤
        freeSlots cfg.size cap s.shared.queue + slotSupply cfg.size (k.next cfg o.2.1).1 := by
    intro hb
    simp only [freeSlots]
    omega
  rw [hpc] at hbalance ⊢
  by_cases hpush : ∃ pp, pc = .push pp
  · obtain ⟨pp, rfl⟩ := hpush
    rw [Pc.exec, Option.some.injEq] at ho
    subst ho
    cases hin with
    | push k v _ =>
      have hf : (pp.exec cfg.size (s.shared.count .receivers) fail s.shared.queue).2.1 ≠ .fault :=
        fun hf => hg'.sound (by simp [sampledCount, hf, Next.map])
      refine ⟨?_, Nat.zero_le _⟩
      rcases push_balance (k := k) (v := v) haccounts hf with hb | ⟨w, hn⟩
      · exact .inr (.inr (hbalance hb))
      · exact .inl (full_of_refused h hcap hpc hn)
  · have hne : ∀ pp, pc ≠ .push pp := fun pp he => hpush ⟨pp, he⟩
    have hflag : sampledCount s.shared pc = s.shared.count .senders := by
      cases pc <;> first | rfl | exact absurd rfl (hne _)
    rw [hflag] at ho
    obtain ⟨hb, hpromise⟩ := receive_balance (z := cfg.size) hcap hcount hin hlocal hne ho hg'.sound
    refine ⟨.inr ?_, hpromise⟩
    rcases hb with hb | hb
    · exact .inr (hbalance (by omega))
    · exact .inl hb

/-- A send comes to wait by an attempt that found no slot free. -/
theorem parked_full (h : ChannelMachine.Reach cfg τ s) (hcap : cfg.capacity = some cap)
    (hs : ChannelMachine.Step cfg s (t, l) s') {v : V} {id : ℕ}
    (hpc' : s'.pc t = .sending v (some id)) :
    freeSlots cfg.size cap s'.shared.queue = 0 := by
  obtain ⟨hq, hok⟩ := reach_queue h
  have hresumes : ∀ {k : Kont V} {n : Goes Tid V}, Resumes cfg k n →
      n.1 ≠ .sending v (some id) := by
    intro k n hr
    induction hr with
    | receivedFirst many v n _ ih => exact ih
    | _ => simp [enter]
  have hwaking : ∀ {wakers : List (Waker Tid)} {k : Kont V},
      (wakeAll cfg wakers k).1 ≠ .sending v (some id) := by
    intro wakers k
    rcases wakeAll_cases cfg wakers k with ⟨-, hr⟩ | ⟨-, hw⟩
    · exact hresumes hr
    · simp [hw]
  rcases turns hq hok hs with ⟨op, c, n, hstart, -, rfl, rfl⟩ | ⟨c, n, hact, rfl, rfl⟩ |
    ⟨side, c, n, hlocked, rfl, rfl⟩ | ⟨k, pc, fail, o, hpc, ho, rfl, rfl, hend⟩ <;>
    simp only [Function.update_self] at hpc' ⊢
  · generalize s.pc t = pc at hstart
    cases hstart with
    | pollRecv many =>
      cases many with
      | none => cases hpc'
      | some limit =>
        simp only [firstPoll] at hpc'
        split at hpc' <;> cases hpc'
    | _ => cases hpc'
  · generalize s.pc t = pc at hact
    cases hact with
    | readsZero side id' k n _ hr | wokeNone k n hr | wokeLast w k n hr | appends v' limit n hr =>
      exact absurd hpc' (hresumes hr)
    | _ => cases hpc'
  · generalize s.pc t = pc at hlocked
    cases hlocked with
    | remove side id' forward k _ => exact absurd hpc' (hresumes (resumes_resume k))
    | absent side id' forward k _ =>
      cases forward with
      | false => exact absurd hpc' (hresumes (resumes_resume k))
      | true => cases hpc'
    | notifyMany side limit k | notifyAll side k => exact absurd hpc' hwaking
    | _ => cases hpc'
  · have hin := (hok t).inside
    rw [hpc] at hin
    rcases hend with ⟨pc', -, hgo⟩ | ⟨r, hn, -, hf⟩
    · rw [hgo] at hpc'
      cases hpc'
    · generalize k.next cfg o.2.1 = n at hf hpc'
      cases hf with
      | received k r v' n _ hr | drainedFirst many n hr | batch many head values n hr
      | sent k v' tail n hr => exact absurd hpc' (hresumes hr)
      | busySecond id' tail wait many' n ha | claimsBelow id' tail wait many' n ha =>
        cases ha <;> cases hpc'
      | fullSecond id' v' w =>
        cases hin with
        | push k v' pp =>
          rw [Pc.exec, Option.some.injEq] at ho
          subst ho
          have hret : nextRet (Next.map Pc.push QueueMachine.Ret.push (pp.exec cfg.size
              (sampledCount s.shared (Pc.push pp)) fail s.shared.queue).2.1) =
                some (.push (.full w)) := congrArg nextRet hn
          obtain ⟨r, hr, hfull⟩ := nextRet_map.mp hret
          obtain rfl : r = .full w := by simpa using hfull
          exact full_of_refused h hcap hpc hr
      | _ => cases hpc'

/-- A send that waits in line was refused when no slot was free, and each slot
freed since is covered by a wake. -/
theorem served_run (h : ChannelMachine.Reach cfg τ s) (hcap : cfg.capacity = some cap)
    (hopen : s.shared.closed = false) {v : V} {id : ℕ} (hpc : s.pc u = .sending v (some id))
    (hu : u ∈ line s .senders) :
    Served cfg.size .senders s u (freeSlots cfg.size cap s.shared.queue) := by
  have hall : s.shared.closed = false → ∀ u v id, s.pc u = .sending v (some id) →
      u ∈ line s .senders →
      Served cfg.size .senders s u (freeSlots cfg.size cap s.shared.queue) := by
    refine h.invariant (P := fun _ s => s.shared.closed = false → ∀ u v id,
      s.pc u = .sending v (some id) → u ∈ line s .senders →
      Served cfg.size .senders s u (freeSlots cfg.size cap s.shared.queue))
      (fun _ u v id hpc => by cases hpc) ?_
    rintro τ s ⟨t, l⟩ s' hr ih hs hopen u v id hpc hu
    by_cases hut : u = t
    · subst hut
      rw [parked_full hr hcap hs hpc]
      exact .inl (covered_zero _)
    have hmine : u = t → registration (s.pc t) ≠ none := fun he => absurd he hut
    obtain ⟨hline, -⟩ := line_before hr hs hu hmine
    rw [step_others cfg hs hut] at hpc
    have hserved := ih (open_before hs hopen) u v id hpc hline
    rcases ChannelMachine.step_cases cfg hs with ⟨op, c, n, hstart, -, -, rfl⟩ |
      ⟨k, pc, fail, o, hqueue, ho, -, rfl⟩ | ⟨fail, c, n, hexec, -, rfl⟩
    · have hout : ∀ k pc, s.pc t ≠ .queue k pc := fun k pc he => by
        rw [he] at hstart
        cases hstart
      rw [(start_arrives hstart).2.1]
      exact served_outside hr hs hopen hout hu hmine hserved
    · have hcount := listed_count hr (mem_line.mp hline)
      obtain ⟨hslots, hpromise⟩ := slot_access hr hcap hcount hqueue ho
      have hpromise' : promises .senders (s.pc t) ≤ promises .senders
          (Function.update s.pc t (k.next cfg o.2.1).1 t) := by
        rwa [Function.update_self]
      rcases hslots with hzero | hall | hbalance
      · rw [hzero]
        exact .inl (covered_zero _)
      · refine .inr ⟨t, ?_⟩
        have hlt := List.idxOf_lt_length_of_mem hline
        rw [line, List.length_map, ← (listing_run hr .senders).count] at hlt
        simp only [Function.update_self]
        exact hlt.trans_le hall
      · refine hserved.step hr hs hu hmine ?_ hpromise'
        refine held_moves hr hs ?_ fun _ => ?_
        · simpa only [supply, Function.update_self] using hbalance
        · simpa only [Function.update_self] using registration_access hr hqueue ho
    · have hout : ∀ k pc, s.pc t ≠ .queue k pc := fun k pc he => by
        rw [he] at hexec
        cases hexec
      rw [(exec_arrives hexec).2.1]
      exact served_outside hr hs hopen hout hu hmine hserved
  exact hall hopen u v id hpc hu

end Room

section Stranded

variable [DecidableEq Tid] {s : ChannelMachine.State Tid V}
  {τ : List (Tid × ChannelMachine.Label V)}

/-- No send wake-up is lost. On an open bounded channel, for the shared and the
exclusive receiver, in every reachable state in which a send is asleep, either
the queue holds exactly its capacity or somebody owes the senders a step, and that
agent can move or its send was woken. -/
theorem sender_not_stranded (h : ChannelMachine.Reach cfg τ s) (hcap : cfg.capacity = some cap)
    (hopen : s.shared.closed = false) {id : ℕ} (hpending : pendingOn (s.pc u) = some (.senders, id))
    (hasleep : s.shared.woken u = false) :
    items cfg.size s.shared.queue = cap ∨
      ∃ a, Owes cfg .senders s a ∧ (moving (s.pc a) = true ∨
        ∃ id, pendingOn (s.pc a) = some (.senders, id) ∧ s.shared.woken a = true) := by
  obtain ⟨v, hpc⟩ : ∃ v, s.pc u = .sending v (some id) := by
    generalize s.pc u = pc at hpending
    cases pc with
    | sending v id' =>
      cases id' <;> cases hpending
      exact ⟨v, rfl⟩
    | receiving id' many => cases id' <;> cases hpending
    | _ => cases hpending
  have hle := items_le_cap h hcap
  by_cases hfull : items cfg.size s.shared.queue = cap
  · exact .inl hfull
  · have hroom : 0 < freeSlots cfg.size cap s.shared.queue := by
      rw [freeSlots]
      omega
    have howed : ∃ a, Owes cfg .senders s a := by
      rcases asleep_in_line h hpending hasleep with hline | howes
      · exact (served_run h hcap hopen hpc hline).owes h hroom
      · exact howes
    obtain ⟨a, ha⟩ := howed
    exact .inr ⟨a, ha, ha.awake⟩

/-- Agent 0 fills the channel and waits to send 8; agent 1 frees the slot and
pauses. -/
def fillThenFree : List (Fin 2 × ChannelMachine.Choice ℕ) :=
  (0, .call (.trySend 7)) :: List.replicate 9 (0, .run false) ++
  (0, .call (.send 8)) :: (0, .call .poll) :: List.replicate 10 (0, .run false) ++
  (1, .call .tryRecv) :: List.replicate 4 (1, .run false)

/-- There the queue is empty while the send is asleep, so somebody owes it a step. -/
theorem sender_not_stranded_of_fillThenFree :
    ∃ (τ : List (Fin 2 × ChannelMachine.Label ℕ)) (s : ChannelMachine.State (Fin 2) ℕ),
      ChannelMachine.Reach QueueCapacity.single τ s ∧
        pendingOn (s.pc 0) = some (.senders, 1) ∧ s.shared.woken 0 = false ∧
        items .small s.shared.queue = 0 ∧ ∃ a, Owes QueueCapacity.single .senders s a := by
  have h : ((ChannelMachine.State.init (Fin 2) ℕ).runs QueueCapacity.single fillThenFree).map
      (fun a => (pendingOn (a.2.pc 0), a.2.shared.woken 0, a.2.shared.closed,
        items .small a.2.shared.queue)) = some (some (.senders, 1), false, false, 0) := by
    decide +kernel
  obtain ⟨⟨τ, s⟩, hrun, h⟩ := Option.map_eq_some_iff.mp h
  simp only [Prod.mk.injEq] at h
  obtain ⟨hpending, hwoken, hopen, hitems⟩ := h
  have hreach : ChannelMachine.Reach QueueCapacity.single τ s :=
    ChannelMachine.State.runs_run _ hrun
  refine ⟨τ, s, hreach, hpending, hwoken, hitems, ?_⟩
  rcases sender_not_stranded hreach rfl hopen hpending hwoken with hfull | ⟨a, ha, -⟩
  · have hone : items .small s.shared.queue = 1 := hfull
    omega
  · exact ⟨a, ha⟩

end Stranded

end Rapidfire.ChannelRoom
