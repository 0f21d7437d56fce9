import Rapidfire.QueueInvariant

/-!
# Histories of the queue

The claimed, taken and returned positions of a run, read off its labels, and
how they tie in with the shared memory and with what every thread still has
to hand over.
-/

namespace Rapidfire.QueueHistory

open Positions QueueMemory QueuePush QueuePop QueueSingle QueueMachine QueueCoherence QueueLocal
  QueueSteps QueueInvariant Runs

variable {Tid V : Type}

section Logs

/-- Claimed positions with producer and value, in the order of the claims. -/
def claimed (τ : List (Tid × Label V)) : List (Tid × ℕ × V) :=
  τ.flatMap fun l => (claims l.2.effect).map fun c => (l.1, c)

/-- Taken positions with their consumer, in the order they were taken. -/
def taken (τ : List (Tid × Label V)) : List (Tid × ℕ) :=
  τ.flatMap fun l => (takes l.2.effect).map fun p => (l.1, p)

/-- Returned values with consumer and position, in the order of the returns. -/
def returned (τ : List (Tid × Label V)) : List (Tid × ℕ × V) :=
  τ.flatMap fun l => (l.2.result.toList.flatMap Ret.received).map fun c => (l.1, c)

/-- Position of a push that returned `Ok`. -/
def acceptedRet : Ret V → List ℕ
  | .push (.pushed tail _) => [tail]
  | _ => []

/-- Positions of the pushes that returned `Ok`, with their producer. -/
def accepted (τ : List (Tid × Label V)) : List (Tid × ℕ) :=
  τ.flatMap fun l => (l.2.result.toList.flatMap acceptedRet).map fun p => (l.1, p)

/-- Value of a called push. -/
def offered : Label V → List V
  | .call (.push v) => [v]
  | _ => []

/-- Values of the pushes called, with their producer. -/
def sent (τ : List (Tid × Label V)) : List (Tid × V) :=
  τ.flatMap fun l => (offered l.2).map fun v => (l.1, v)

/-- The entries of one thread. -/
def ofThread {α : Type} [DecidableEq Tid] (t : Tid) (xs : List (Tid × α)) : List α :=
  xs.filterMap fun x => if x.1 = t then some x.2 else none

theorem ofThread_append {α : Type} [DecidableEq Tid] (t : Tid) (xs ys : List (Tid × α)) :
    ofThread t (xs ++ ys) = ofThread t xs ++ ofThread t ys :=
  List.filterMap_append

theorem ofThread_self {α : Type} [DecidableEq Tid] (t : Tid) (xs : List α) :
    ofThread t (xs.map fun x => (t, x)) = xs := by
  induction xs with
  | nil => rfl
  | cons x xs ih => simp [ofThread]

theorem ofThread_other {α : Type} [DecidableEq Tid] {t u : Tid} (h : u ≠ t) (xs : List α) :
    ofThread t (xs.map fun x => (u, x)) = [] := by
  induction xs with
  | nil => rfl
  | cons x xs ih => simp [ofThread, h]

theorem mem_ofThread {α : Type} [DecidableEq Tid] {t : Tid} {x : α} {xs : List (Tid × α)} :
    x ∈ ofThread t xs ↔ (t, x) ∈ xs := by
  simp only [ofThread, List.mem_filterMap, Option.ite_none_right_eq_some, Option.some.injEq]
  constructor
  · rintro ⟨⟨u, y⟩, hm, rfl, rfl⟩
    exact hm
  · exact fun hm => ⟨(t, x), hm, rfl, rfl⟩

/-- The entries of a thread, in their order. -/
theorem ofThread_sublist {α : Type} [DecidableEq Tid] (t : Tid) (xs : List (Tid × α)) :
    (ofThread t xs).Sublist (xs.map Prod.snd) := by
  induction xs with
  | nil => exact .slnil
  | cons x xs ih =>
    by_cases h : x.1 = t
    · rw [ofThread, List.filterMap_cons_some (by rw [if_pos h]), List.map_cons]
      exact ih.cons_cons _
    · rw [ofThread, List.filterMap_cons_none (by rw [if_neg h]), List.map_cons]
      exact ih.cons _

/-- A relation holds along a log if it holds along the entries of each thread
and between any entries of different threads. -/
theorem pairwise_of_threads {α : Type} [DecidableEq Tid] {R : α → α → Prop}
    {xs : List (Tid × α)} (hsame : ∀ t, (ofThread t xs).Pairwise R)
    (hdiff : ∀ x ∈ xs, ∀ y ∈ xs, x.1 ≠ y.1 → R x.2 y.2) : (xs.map Prod.snd).Pairwise R := by
  induction xs with
  | nil => exact .nil
  | cons x xs ih =>
    have hcons : ∀ t, (if x.1 = t then [x.2] else []) ++ ofThread t xs = ofThread t (x :: xs) := by
      intro t
      by_cases h : x.1 = t <;> simp [ofThread, h]
    have htail : ∀ t, (ofThread t xs).Pairwise R := by
      intro t
      have h := hsame t
      rw [← hcons] at h
      exact (List.pairwise_append.mp h).2.1
    refine List.pairwise_cons.mpr ⟨fun y hy => ?_, ih htail fun a ha b hb =>
      hdiff a (List.mem_cons_of_mem _ ha) b (List.mem_cons_of_mem _ hb)⟩
    obtain ⟨b, hb, rfl⟩ := List.mem_map.mp hy
    by_cases h : x.1 = b.1
    · have hx := hsame x.1
      rw [← hcons, if_pos rfl] at hx
      exact (List.pairwise_append.mp hx).2.2 x.2 (List.mem_singleton_self _) b.2
        (mem_ofThread.mpr (h ▸ hb))
    · exact hdiff x List.mem_cons_self b (List.mem_cons_of_mem _ hb) h

end Logs

section Account

/-- Position taken by a pop that has not returned it. -/
def popInflight : PopPc V → List ℕ
  | .sample head _ => [head]
  | .readValue k | .markRead k _ | .loadNext k _ | .storeBlock k _ _ | .swapIndex k _
  | .readersDone k _ _ | .retire k _ | .resetMark k _ _ | .resetStart k _ | .recycleSpare k _
  | .recyclePool k _ => [k.head]
  | _ => []

/-- Positions taken by an exclusive receive that has not returned them. -/
def singleInflight : SinglePc V → List ℕ
  | .leave _ (.sample r) | .leave _ (.resetStart r _) | .leave _ (.recycleSpare r _)
  | .leave _ (.recyclePool r _) => List.range' r.head r.values.length
  | _ => []

/-- Positions a thread has taken and not yet returned. -/
def inflight : Pc V → List ℕ
  | .pop pc => popInflight pc
  | .single pc => singleInflight pc
  | _ => []

/-- Value of a push that has not claimed a position. -/
def pushOffer (z : BlockSize) : PushPc V → List V
  | .fetchAddContend v tail => if IsValue z tail then [] else [v]
  | .loadContended v | .fetchAddLoad v | .fetchAdd v _ | .casLoad v | .casTry v _ _
  | .boundedLoad v _ | .boundedSkip v _ _ | .boundedCached v _ _ | .boundedHead v _ _
  | .boundedCache v _ _ _ | .boundedTry v _ _ => [v]
  | _ => []

/-- Value a thread offers and has not claimed a position for. -/
def offer (z : BlockSize) : Pc V → List V
  | .push pc => pushOffer z pc
  | _ => []

/-- Position of a push that has claimed and not returned. -/
def claimOf (z : BlockSize) (pc : Pc V) : List ℕ := (writes z pc).toList

/-- A step hands over what it takes: positions taken are returned or still in
flight, positions claimed are accepted or still being written, and a value
offered is claimed, still offered or given back. -/
structure Accounts (z : BlockSize) (pc : Pc V) (e : Option (Effect V)) (r : Option (Ret V))
    (pc' : Pc V) : Prop where
  inflight : inflight pc ++ takes e =
    (r.toList.flatMap Ret.received).map Prod.fst ++ QueueHistory.inflight pc'
  claim : claimOf z pc ++ (claims e).map Prod.fst =
    r.toList.flatMap acceptedRet ++ claimOf z pc'
  offer : ((claims e).map Prod.snd ++ offer z pc').Sublist (QueueHistory.offer z pc)

variable {z : BlockSize} {q : Queue V} {flag : ℕ} {fail : Bool} {capacity : Option ℕ}

/-- Accounting of the steps of a push. -/
theorem push_accounts {pc : PushPc V} (h : (pc.exec z flag fail q).2.1 ≠ .fault) :
    Accounts z (.push pc) (pc.exec z flag fail q).2.2
      (nextRet (Next.map .push .push (pc.exec z flag fail q).2.1))
      (nextPc (Next.map .push .push (pc.exec z flag fail q).2.1)) := by
  cases pc with
  | loadContended v | findStart c block | boundedCached v cap tail =>
    simp only [PushPc.exec, found]
    (repeat' split) <;> exact ⟨rfl, rfl, .refl _⟩
  | fetchAdd v expected =>
    simp only [PushPc.exec]
    by_cases hv : offset z q.tail.index = blockCap z
    · simp only [hv, if_true]
      split
      · refine ⟨rfl, ?_, ?_⟩ <;>
          simp [claims, nextRet, nextPc, Next.map, claimOf, writes, pushWrites, offer, pushOffer,
            IsValue, hv]
      · exact ⟨rfl, rfl, .refl _⟩
    · simp only [hv, if_false]
      split
      · refine ⟨rfl, ?_, ?_⟩ <;>
          simp [claims, nextRet, nextPc, Next.map, claimOf, writes, pushWrites, offer, pushOffer,
            IsValue, hv]
      · exact ⟨rfl, rfl, .refl _⟩
  | fetchAddContend v tail =>
    simp only [PushPc.exec]
    split
    · rename_i hv
      refine ⟨rfl, ?_, ?_⟩ <;>
        simp [claims, nextRet, nextPc, Next.map, claimOf, writes, pushWrites, offer, pushOffer,
          IsValue, hv]
    · rename_i hv
      refine ⟨rfl, ?_, ?_⟩ <;>
        simp [claims, nextRet, nextPc, Next.map, claimOf, writes, pushWrites, offer, pushOffer,
          IsValue, hv]
  | casTry v tail failed =>
    simp only [PushPc.exec]
    (repeat' split) <;> exact ⟨rfl, rfl, .refl _⟩
  | boundedLoad v cap | boundedSkip v cap tail =>
    simp only [PushPc.exec, boundedLoop]
    (repeat' split) <;> exact ⟨rfl, rfl, .refl _⟩
  | boundedHead v cap tail =>
    simp only [PushPc.exec]
    split
    · exact ⟨rfl, rfl, List.nil_sublist _⟩
    · exact ⟨rfl, rfl, .refl _⟩
  | boundedTry v cap tail =>
    simp only [PushPc.exec, boundedLoop]
    (repeat' split) <;> exact ⟨rfl, rfl, .refl _⟩
  | casLevel v tail failed =>
    simp only [PushPc.exec]
    (repeat' split) <;> exact ⟨rfl, rfl, .refl _⟩
  | slowStart c block =>
    simp only [PushPc.exec, found]
    (repeat' split) <;> exact ⟨rfl, rfl, .refl _⟩
  | slowPrev c block =>
    simp only [PushPc.exec] at h ⊢
    split
    · rename_i hp
      simp [hp] at h
    · exact ⟨rfl, rfl, .refl _⟩
  | takeSpare c block =>
    simp only [PushPc.exec]
    split <;> exact ⟨rfl, rfl, .refl _⟩
  | takePool c block =>
    simp only [PushPc.exec, takeBlockSlow]
    split <;> exact ⟨rfl, rfl, .refl _⟩
  | resetMark c block next i =>
    simp only [PushPc.exec]
    split <;> exact ⟨rfl, rfl, .refl _⟩
  | _ => exact ⟨rfl, rfl, .refl _⟩

/-- Accounting of the steps of a pop. -/
theorem pop_accounts {pc : PopPc V} (h : (pc.exec z capacity flag fail q).2.1 ≠ .fault) :
    Accounts z (.pop pc) (pc.exec z capacity flag fail q).2.2
      (nextRet (Next.map .pop .pop (pc.exec z capacity flag fail q).2.1))
      (nextPc (Next.map .pop .pop (pc.exec z capacity flag fail q).2.1)) := by
  cases pc with
  | loadBlock head wait =>
    simp only [PopPc.exec, popLoop]
    (repeat' split) <;> exact ⟨rfl, rfl, .refl _⟩
  | claim head block wait =>
    simp only [PopPc.exec]
    split
    · cases capacity <;> exact ⟨rfl, rfl, .refl _⟩
    · exact ⟨rfl, rfl, .refl _⟩
  | readValue k =>
    simp only [PopPc.exec] at h ⊢
    split
    · rename_i hv
      simp [hv] at h
    · split <;> exact ⟨rfl, rfl, .refl _⟩
  | loadNext k v =>
    simp only [PopPc.exec] at h ⊢
    split
    · rename_i hv
      simp [hv] at h
    · exact ⟨rfl, rfl, .refl _⟩
  | _ =>
    simp only [PopPc.exec]
    (repeat' split) <;> exact ⟨rfl, rfl, .refl _⟩

/-- A finished exclusive receive returns the positions it took. -/
theorem result_account {r : Run V} {batch : Bool} {wake : ℕ}
    (hb : batch = false → r.values.length = 1) :
    ((Ret.single (r.result batch wake)).received).map Prod.fst =
      List.range' r.head r.values.length := by
  cases batch with
  | true =>
    change ((List.range' r.head r.values.length).zip r.values).map Prod.fst = _
    rw [List.map_fst_zip]
    simp
  | false =>
    obtain ⟨v, hv⟩ := List.length_eq_one_iff.mp (hb rfl)
    simp [Run.result, hv, Ret.received]

/-- Accounting of the steps after the last read of an exclusive receive. -/
theorem leave_accounts {pc : LeavePc V} {batch : Bool}
    (hb : batch = false → (leaveRun pc).values.length = 1)
    (h : ((SinglePc.leave batch pc).exec z capacity flag fail q).2.1 ≠ .fault) :
    Accounts z (.single (.leave batch pc))
      ((SinglePc.leave batch pc).exec z capacity flag fail q).2.2
      (nextRet (Next.map .single .single ((SinglePc.leave batch pc).exec z capacity flag fail q).2.1))
      (nextPc
        (Next.map .single .single ((SinglePc.leave batch pc).exec z capacity flag fail q).2.1)) := by
  have hret : ∀ (r : Run V) (wake : ℕ), (batch = false → r.values.length = 1) →
      List.range' r.head r.values.length =
        ([Ret.single (r.result batch wake)].flatMap Ret.received).map Prod.fst ++ [] := by
    intro r wake hr
    rw [List.flatMap_singleton, result_account hr, List.append_nil]
  have hacc : ∀ r : SingleRet V, [Ret.single r].flatMap acceptedRet ++ [] = [] := fun r => rfl
  cases pc with
  | loadNext r =>
    simp only [SinglePc.exec, LeavePc.exec] at h ⊢
    split
    · rename_i hn
      simp [hn] at h
    · exact ⟨rfl, rfl, .refl _⟩
  | storeBlock r next => exact ⟨rfl, rfl, .refl _⟩
  | advance r =>
    simp only [SinglePc.exec, LeavePc.exec]
    cases capacity with
    | none =>
      simp only [advanced]
      split
      · exact ⟨rfl, rfl, .refl _⟩
      · exact ⟨hret r 0 hb, (hacc _).symm, .refl _⟩
    | some cap => exact ⟨rfl, rfl, .refl _⟩
  | sample r =>
    simp only [SinglePc.exec, LeavePc.exec, advanced]
    split
    · exact ⟨List.append_nil _, rfl, .refl _⟩
    · exact ⟨(List.append_nil _).trans (hret r _ hb), (hacc _).symm, .refl _⟩
  | resetStart r wake => exact ⟨List.append_nil _, rfl, .refl _⟩
  | recycleSpare r wake =>
    simp only [SinglePc.exec, LeavePc.exec]
    split
    · exact ⟨(List.append_nil _).trans (hret r wake hb), (hacc _).symm, .refl _⟩
    · exact ⟨List.append_nil _, rfl, .refl _⟩
  | recyclePool r wake => exact ⟨(List.append_nil _).trans (hret r wake hb), (hacc _).symm, .refl _⟩

/-- Accounting of the steps of an exclusive receive. -/
theorem single_accounts {pc : SinglePc V}
    (hb : ∀ pc', pc = .leave false pc' → (leaveRun pc').values.length = 1)
    (h : (pc.exec z capacity flag fail q).2.1 ≠ .fault) :
    Accounts z (.single pc) (pc.exec z capacity flag fail q).2.2
      (nextRet (Next.map .single .single (pc.exec z capacity flag fail q).2.1))
      (nextPc (Next.map .single .single (pc.exec z capacity flag fail q).2.1)) := by
  cases pc with
  | leave batch pc =>
    refine leave_accounts (fun he => hb pc ?_) h
    rw [he]
  | readValue head block =>
    simp only [SinglePc.exec] at h ⊢
    split
    · rename_i hv
      simp [hv] at h
    · simp only [leaveEntry]
      split <;> exact ⟨rfl, rfl, .refl _⟩
  | slotValue max r =>
    simp only [SinglePc.exec] at h ⊢
    split
    · rename_i hv
      simp [hv] at h
    · simp only [batchLoop, leaveEntry]
      (repeat' split) <;> exact ⟨rfl, rfl, .refl _⟩
  | _ =>
    simp only [SinglePc.exec, batchLoop, leaveEntry]
    (repeat' split) <;> exact ⟨rfl, rfl, .refl _⟩

/-- Accounting of the operations that only look at the indices. -/
theorem read_accounts {pc : ReadPc} :
    Accounts (V := V) z (.read pc) (pc.exec z capacity q).2.2
      (nextRet (Next.map .read .read (pc.exec z capacity q).2.1))
      (nextPc (Next.map .read .read (pc.exec z capacity q).2.1)) := by
  cases pc <;> exact ⟨rfl, rfl, .refl _⟩

/-- Entering an operation claims and takes nothing; a push offers its value. -/
theorem entry_account (z : BlockSize) (capacity : Option ℕ) (op : Op V) :
    inflight (op.entry capacity) = [] ∧ claimOf z (op.entry capacity) = [] ∧
      offer z (op.entry capacity) = offered (.call op) := by
  cases op with
  | push v => cases capacity <;> exact ⟨rfl, rfl, rfl⟩
  | _ => exact ⟨rfl, rfl, rfl⟩

end Account

section Histories

variable [DecidableEq Tid] {cfg : Config Tid} {s s' : State Tid V} {g : Ghost Tid V} {t : Tid}
  {l : Label V} {τ : List (Tid × Label V)}

/-- What a step of a thread hands over; the other threads stay where they are. -/
structure Transfers (z : BlockSize) (s s' : State Tid V) (t : Tid) (l : Label V) : Prop where
  inflight : inflight (s.pc t) ++ takes l.effect =
    (l.result.toList.flatMap Ret.received).map Prod.fst ++ QueueHistory.inflight (s'.pc t)
  claim : claimOf z (s.pc t) ++ (claims l.effect).map Prod.fst =
    l.result.toList.flatMap acceptedRet ++ claimOf z (s'.pc t)
  offer : ((claims l.effect).map Prod.snd ++ offer z (s'.pc t)).Sublist
    (QueueHistory.offer z (s.pc t) ++ offered l)
  others : ∀ u ≠ t, s'.pc u = s.pc u

omit [DecidableEq Tid] in
/-- Accounting of every access. -/
theorem exec_accounts (h : Inv cfg s g) {flag : ℕ} {fail : Bool} {o : Outcome V (Pc V) (Ret V)}
    (ho : (s.pc t).exec cfg flag fail s.queue = some o) (hf : o.2.1 ≠ .fault) :
    Accounts cfg.size (s.pc t) o.2.2 (nextRet o.2.1) (nextPc o.2.1) := by
  have hmap {P R P' R' : Type} {f : P → P'} {k : R → R'} {n : Next P R}
      (hn : Next.map f k n ≠ .fault) : n ≠ .fault := by
    rintro rfl
    exact hn rfl
  cases hpc : s.pc t with
  | idle => simp [hpc, Pc.exec] at ho
  | fault => simp [hpc, Pc.exec] at ho
  | push pc =>
    rw [hpc, Pc.exec, Option.some.injEq] at ho
    subst ho
    exact push_accounts (hmap hf)
  | pop pc =>
    rw [hpc, Pc.exec, Option.some.injEq] at ho
    subst ho
    exact pop_accounts (hmap hf)
  | single pc =>
    rw [hpc, Pc.exec, Option.some.injEq] at ho
    subst ho
    refine single_accounts (fun pc' he => ?_) (hmap hf)
    have hl := (h.assertion t)
    rw [hpc, he] at hl
    exact hl.2.1 rfl
  | read pc =>
    rw [hpc, Pc.exec, Option.some.injEq] at ho
    subst ho
    exact read_accounts

/-- Accounting of every step. -/
theorem step_transfers (h : Inv cfg s g) (hs : Step cfg s (t, l) s') :
    Transfers cfg.size s s' t l := by
  rcases step_cases hs with ⟨op, rfl, hpc, -, rfl⟩ | ⟨flag, fail, o, ho, rfl, rfl⟩
  · obtain ⟨h1, h2, h3⟩ := entry_account cfg.size cfg.capacity op
    have hself : (s.setPc t (op.entry cfg.capacity)).pc t = op.entry cfg.capacity :=
      Function.update_self _ _ _
    refine ⟨?_, ?_, ?_, fun u hu => Function.update_of_ne hu _ _⟩
    · rw [hself, h1, hpc]
      rfl
    · rw [hself, h2, hpc]
      rfl
    · rw [hself, h3, hpc]
      exact .refl _
  · obtain ⟨g', hg⟩ := exec_steps h ho
    obtain ⟨h1, h2, h3⟩ := exec_accounts h ho hg.sound
    refine ⟨?_, ?_, ?_, fun u hu => Function.update_of_ne hu _ _⟩
    · simpa [Label.effect, Label.result] using h1
    · simpa [Label.effect, Label.result] using h2
    · simpa [Label.effect, offered] using h3

/-- How the history of a run ties in with the state it reaches. -/
structure History (cfg : Config Tid) (τ : List (Tid × Label V)) (s : State Tid V)
    (g : Ghost Tid V) : Prop where
  inv : Inv cfg s g
  claimed : (claimed τ).map (fun c => c.2.1) = valuePositions cfg.size s.queue.tail.index
  taken : (taken τ).map Prod.snd = valuePositions cfg.size s.queue.head.index
  val : ∀ p v, g.val p = some v ↔ ∃ t, (t, p, v) ∈ QueueHistory.claimed τ
  returned : ∀ t p v, (t, p, v) ∈ returned τ → g.val p = some v
  inflight : ∀ t, ofThread t (QueueHistory.taken τ) =
    (ofThread t (QueueHistory.returned τ)).map Prod.fst ++ inflight (s.pc t)
  claim : ∀ t, (ofThread t (QueueHistory.claimed τ)).map Prod.fst =
    ofThread t (accepted τ) ++ claimOf cfg.size (s.pc t)
  offer : ∀ t, ((ofThread t (QueueHistory.claimed τ)).map Prod.snd ++ offer cfg.size (s.pc t)).Sublist
    (ofThread t (sent τ))

/-- The history of a new queue is empty. -/
theorem init_history : History cfg [] (State.init Tid V) (Ghost.init Tid V) where
  inv := init_inv
  claimed := rfl
  taken := rfl
  val p v := by simp [Ghost.init, QueueHistory.claimed]
  returned := nofun
  inflight _ := rfl
  claim _ := rfl
  offer _ := .slnil

/-- Every step extends the history. -/
theorem step_history (h : History cfg τ s g) (hs : Step cfg s (t, l) s') :
    ∃ g', History cfg (τ ++ [(t, l)]) s' g' := by
  obtain ⟨g', hinv, ⟨hclaims, htakes, hval⟩, hret⟩ := step_inv h.inv hs
  obtain ⟨h1, h2, h3, h4⟩ := step_transfers h.inv hs
  have hc : QueueHistory.claimed (τ ++ [(t, l)]) =
      QueueHistory.claimed τ ++ (claims l.effect).map fun c => (t, c) := by
    simp [QueueHistory.claimed]
  have ht : QueueHistory.taken (τ ++ [(t, l)]) =
      QueueHistory.taken τ ++ (takes l.effect).map fun p => (t, p) := by
    simp [QueueHistory.taken]
  have hr : QueueHistory.returned (τ ++ [(t, l)]) =
      QueueHistory.returned τ ++
        (l.result.toList.flatMap Ret.received).map fun c => (t, c) := by
    simp [QueueHistory.returned]
  have ha : accepted (τ ++ [(t, l)]) =
      accepted τ ++ (l.result.toList.flatMap acceptedRet).map fun p => (t, p) := by
    simp [accepted]
  have ho : sent (τ ++ [(t, l)]) = sent τ ++ (offered l).map fun v => (t, v) := by
    simp [sent]
  refine ⟨g', hinv, ?_, ?_, ?_, ?_, fun u => ?_, fun u => ?_, fun u => ?_⟩
  · rw [hc, List.map_append, h.claimed, hclaims, List.map_map]
    rfl
  · rw [ht, List.map_append, h.taken, htakes, List.map_map]
    simp
  · intro p v
    rw [hval, h.val, hc]
    simp only [List.mem_append, List.mem_map, Prod.mk.injEq, exists_eq_right_right, exists_or]
    refine or_congr Iff.rfl ⟨fun hm => ⟨t, hm, rfl⟩, ?_⟩
    rintro ⟨u, hm, -⟩
    exact hm
  · intro u p v hm
    rw [hr, List.mem_append] at hm
    rcases hm with hm | hm
    · exact (hval p v).mpr (.inl (h.returned u p v hm))
    · obtain ⟨⟨p', v'⟩, hm', he⟩ := List.mem_map.mp hm
      obtain ⟨-, rfl, rfl⟩ : t = u ∧ p' = p ∧ v' = v := by simpa using he
      obtain ⟨r, hr', hm'⟩ := List.mem_flatMap.mp hm'
      exact hret r (Option.mem_toList.mp hr') p' v' hm'
  · rw [ht, hr, ofThread_append, ofThread_append, h.inflight u]
    by_cases hu : u = t
    · subst hu
      rw [ofThread_self, ofThread_self, List.append_assoc, h1, List.map_append, List.append_assoc]
    · rw [ofThread_other (Ne.symm hu), ofThread_other (Ne.symm hu), h4 u hu]
      simp
  · rw [hc, ha, ofThread_append, ofThread_append, List.map_append, h.claim u]
    by_cases hu : u = t
    · subst hu
      rw [ofThread_self, ofThread_self, List.append_assoc, h2, List.append_assoc]
    · rw [ofThread_other (Ne.symm hu), ofThread_other (Ne.symm hu), h4 u hu]
      simp
  · rw [hc, ho, ofThread_append, ofThread_append, List.map_append]
    by_cases hu : u = t
    · subst hu
      rw [ofThread_self, ofThread_self, List.append_assoc]
      refine (h3.append_left _).trans ?_
      rw [← List.append_assoc]
      exact (h.offer u).append_right _
    · rw [ofThread_other (Ne.symm hu), ofThread_other (Ne.symm hu), h4 u hu]
      simpa using h.offer u

/-- A claimed position has one producer and one value. -/
theorem claimed_unique (h : History cfg τ s g) {a b : Tid × ℕ × V} (ha : a ∈ claimed τ)
    (hb : b ∈ claimed τ) (hp : a.2.1 = b.2.1) : a = b := by
  have hn : ((claimed τ).map fun c => c.2.1).Nodup := by
    rw [h.claimed]
    exact (valuePositions_pairwise _).imp Nat.ne_of_lt
  exact List.inj_on_of_nodup_map hn ha hb hp

/-- What a producer claims, it claims in increasing order. -/
theorem claimed_increasing (h : History cfg τ s g) (u : Tid) :
    ((ofThread u (claimed τ)).map Prod.fst).Pairwise (· < ·) := by
  have hs := (ofThread_sublist u (claimed τ)).map Prod.fst
  refine List.Pairwise.sublist hs ?_
  rw [List.map_map]
  exact h.claimed ▸ valuePositions_pairwise _

/-- A position is published exactly when its push returned `Ok`. -/
theorem published_iff_accepted (h : History cfg τ s g) {p : ℕ} :
    g.published p ↔ p ∈ (accepted τ).map Prod.snd := by
  have hpos : p ∈ (claimed τ).map (fun c => c.2.1) ↔
      IsValue cfg.size p ∧ p < s.queue.tail.index := by
    rw [h.claimed, mem_valuePositions, and_comm]
  have hmem : ∀ u, p ∈ ofThread u (accepted τ) ∨ (views cfg.size s.pc).writes u = some p ↔
      ∃ v, (u, p, v) ∈ claimed τ := by
    intro u
    rw [← Option.mem_toList, show ((views cfg.size s.pc).writes u).toList =
      claimOf cfg.size (s.pc u) from rfl, ← List.mem_append, ← h.claim u, List.mem_map]
    constructor
    · rintro ⟨⟨p, v⟩, hc, rfl⟩
      exact ⟨v, mem_ofThread.mp hc⟩
    · rintro ⟨v, hc⟩
      exact ⟨(p, v), mem_ofThread.mpr hc, rfl⟩
  rw [h.inv.coherent.published_iff]
  constructor
  · rintro ⟨hv, hlt, hw⟩
    obtain ⟨⟨u, p', v⟩, hc, rfl⟩ := List.mem_map.mp (hpos.mpr ⟨hv, hlt⟩)
    have ha := ((hmem u).mpr ⟨v, hc⟩).resolve_right (hw u)
    exact List.mem_map.mpr ⟨(u, p'), mem_ofThread.mp ha, rfl⟩
  · intro hp
    obtain ⟨⟨u, p'⟩, ha, rfl⟩ := List.mem_map.mp hp
    have ha := mem_ofThread.mpr ha
    obtain ⟨v, hc⟩ := (hmem u).mp (.inl ha)
    obtain ⟨hv, hlt⟩ := hpos.mp (List.mem_map.mpr ⟨(u, p', v), hc, rfl⟩)
    refine ⟨hv, hlt, fun t ht => ?_⟩
    obtain ⟨w, hw⟩ := (hmem t).mp (.inr ht)
    obtain rfl : t = u := congrArg Prod.fst (claimed_unique h hw hc rfl)
    have hinc := claimed_increasing h t
    rw [h.claim t, List.pairwise_append] at hinc
    exact lt_irrefl _ (hinc.2.2 p' ha p' (Option.mem_toList.mpr ht))

/-- Every run has a history. -/
theorem reach_history (h : Reach cfg τ s) : ∃ g, History cfg τ s g := by
  refine h.invariant (P := fun τ s => ∃ g, History cfg τ s g) ⟨_, init_history⟩ ?_
  rintro τ s ⟨t, l⟩ s' - ⟨g, hg⟩ hs
  exact step_history hg hs

end Histories

end Rapidfire.QueueHistory
