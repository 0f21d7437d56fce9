import Rapidfire.ChannelSolo
import Rapidfire.QueueAlone

/-!
# Retries under contention

A pop goes round its loop again only when another consumer moved the head, when
its compare-exchange failed without a reason, or while it may still wait for a
block transition; an exclusive receive never does. A push claims its position in
a fixed number of accesses and a fixed number for each move of the tail by
another producer. So whoever is held up is held up by the progress of others.
-/

namespace Rapidfire.QueueRetries

open Positions QueueMemory QueuePush QueuePop QueueSingle QueueMachine QueueInvariant ChannelSolo
  Runs

variable {Tid V : Type} {cfg : Config Tid} {s s' m : State Tid V} {t u : Tid} {l : Label V}
  {τ : List (Tid × Label V)} {z : BlockSize} {q : Queue V} {flag : ℕ} {fail : Bool}

/-- Index a compare-exchange on the head expects. -/
def headExpects : Pc V → Option ℕ
  | .pop (.claim head _ _) => some head
  | _ => none

/-- Index a compare-exchange on the tail expects. -/
def tailExpects : Pc V → Option ℕ
  | .push (.casTry _ tail _) | .push (.boundedSkip _ _ tail) | .push (.boundedTry _ _ tail) =>
    some tail
  | _ => none

/-- A step of another thread that moves the index, or a compare-exchange of the
thread itself that fails although the index is the expected one. -/
def Disturbs [DecidableEq Tid] (index : Queue V → ℕ) (expects : Pc V → Option ℕ) (t : Tid)
    (s : State Tid V) (u : Tid) (s' : State Tid V) : Prop :=
  if u = t then expects (s.pc t) = some (index s.queue) ∧ index s'.queue = index s.queue
  else index s'.queue ≠ index s.queue

/-- A step while the thread is under way, marked when it disturbs the thread. -/
structure During [DecidableEq Tid] (cfg : Config Tid) (t : Tid)
    (disturbs : State Tid V → Tid → State Tid V → Prop) (underway : Label V → Prop)
    (s : State Tid V) (l : Tid × Label V × Bool) (s' : State Tid V) : Prop where
  step : Step cfg s (l.1, l.2.1) s'
  marked : l.2.2 = true ↔ disturbs s l.1 s'
  underway : l.1 = t → underway l.2.1

/-- Number of accesses of the thread. -/
def own [DecidableEq Tid] (t : Tid) (σ : List (Tid × Label V × Bool)) : ℕ :=
  σ.countP fun l => l.1 = t

/-- Number of disturbances. -/
def disturbances (σ : List (Tid × Label V × Bool)) : ℕ := σ.countP fun l => l.2.2

/-- The operation has not returned. -/
def Unanswered (l : Label V) : Prop := l.result = none

/-- The push has neither claimed a position nor returned. -/
def Unclaimed (l : Label V) : Prop := l.result = none ∧ l.effect = none

/-- Accesses a pop needs when nothing disturbs it. -/
def popPatience (z : BlockSize) : ℕ := 15 + 2 * blockCap z + budget 0

/-- Accesses a pop still needs when nothing disturbs it any more, at most. -/
def retryMeasure (z : BlockSize) (head : ℕ) : PopPc V → ℕ
  | .loadHead wait => 15 + 2 * blockCap z + budget wait
  | .loadBlock h wait => (if head = h then 14 else 17) + 2 * blockCap z + budget wait
  | .loadState h _ wait => (if head = h then 13 else 16) + 2 * blockCap z + budget wait
  | .reloadHead h _ wait => (if head = h then 12 else 15) + 2 * blockCap z + budget wait
  | .claim h _ wait => (if head = h then 12 else 15) + 2 * blockCap z + budget wait
  | .sample _ _ => 11 + 2 * blockCap z
  | .readValue _ => 10 + 2 * blockCap z
  | .loadNext _ _ => 9 + 2 * blockCap z
  | .storeBlock _ _ _ => 8 + 2 * blockCap z
  | .swapIndex _ _ => 7 + 2 * blockCap z
  | .readersDone _ _ i => 6 + blockCap z + (blockCap z - i)
  | .resetMark _ _ i => 5 + (blockCap z - i)
  | .resetStart _ _ => 4
  | .recycleSpare _ _ => 3
  | .recyclePool _ _ => 2
  | .markRead _ _ | .retire _ _ => 1

/-- Accesses the loop of `claim_bounded` needs when nothing disturbs it. -/
def loopMeasure (z : BlockSize) (tail : ℕ) : ℕ := if IsValue z tail then 4 else 5

/-- Accesses a push still needs to claim a position when nothing disturbs it any
more, at most. -/
def claimMeasure (z : BlockSize) (tail : ℕ) : PushPc V → ℕ
  | .loadContended _ => 6
  | .fetchAddLoad _ => if IsValue z tail then 2 else 5
  | .fetchAdd _ _ => if IsValue z tail then 1 else 4
  | .fetchAddContend _ _ => if IsValue z tail then 3 else 6
  | .casLoad _ => if IsValue z tail then 2 else 3
  | .casTry _ expected _ => (if tail = expected then 0 else 1) + if IsValue z tail then 1 else 2
  | .boundedLoad _ _ => 1 + loopMeasure z tail
  | .boundedSkip _ _ expected => if tail = expected then 5 else 1 + loopMeasure z tail
  | .boundedCached _ _ expected => 4 + if tail = expected then 0 else loopMeasure z tail
  | .boundedHead _ _ expected => 3 + if tail = expected then 0 else loopMeasure z tail
  | .boundedCache _ _ expected _ => 2 + if tail = expected then 0 else loopMeasure z tail
  | .boundedTry _ _ expected => 1 + if tail = expected then 0 else loopMeasure z tail
  | _ => 0

/-- The push has not claimed a position. -/
def Claiming (z : BlockSize) : PushPc V → Prop
  | .loadContended _ | .fetchAddLoad _ | .fetchAdd _ _ | .casLoad _ | .casTry _ _ _
  | .boundedLoad _ _ => True
  | .fetchAddContend _ tail | .boundedSkip _ _ tail => ¬IsValue z tail
  | .boundedCached _ _ tail | .boundedHead _ _ tail | .boundedCache _ _ tail _
  | .boundedTry _ _ tail => IsValue z tail
  | _ => False

section Pop

/-- A pop that has not returned needs another access. -/
theorem retryMeasure_pos (z : BlockSize) (head : ℕ) (pc : PopPc V) : 0 < retryMeasure z head pc := by
  cases pc <;> simp only [retryMeasure] <;> (try split) <;> omega

/-- A move of the head costs a pop at most three accesses. -/
theorem retryMeasure_moved (z : BlockSize) (head head' : ℕ) (pc : PopPc V) :
    retryMeasure z head' pc ≤ retryMeasure z head pc + 3 := by
  cases pc <;> simp only [retryMeasure] <;> (repeat' split) <;> omega

/-- Every access of a pop returns, or leaves less to do, unless its
compare-exchange fails on the expected index. -/
theorem pop_charges {pc pc' : PopPc V} {capacity : Option ℕ}
    (h : (pc.exec z capacity flag fail q).2.1 = .goto pc') :
    retryMeasure z (pc.exec z capacity flag fail q).1.head.index pc' + 1 ≤
        retryMeasure z q.head.index pc ∨
      headExpects (.pop pc) = some q.head.index ∧
        (pc.exec z capacity flag fail q).1.head.index = q.head.index ∧
        retryMeasure z q.head.index pc' + 1 ≤ retryMeasure z q.head.index pc + 3 := by
  cases pc with
  | loadHead wait =>
    left
    obtain rfl := Next.goto.inj h
    simp only [PopPc.exec, retryMeasure, if_true]
    omega
  | loadBlock head wait =>
    left
    simp only [PopPc.exec, popLoop] at h ⊢
    split at h
    · split at h
      · cases h
      · rename_i wait' hw
        obtain rfl := Next.goto.inj h
        obtain ⟨hlt, rfl⟩ := budget_snooze hw
        simp only [retryMeasure, budget]
        split <;> omega
    · obtain rfl := Next.goto.inj h
      simp only [retryMeasure]
      split <;> omega
  | loadState head block wait =>
    left
    obtain rfl := Next.goto.inj h
    simp only [PopPc.exec]
    split <;> simp only [retryMeasure] <;> split <;> omega
  | reloadHead head block wait =>
    left
    simp only [PopPc.exec] at h ⊢
    split at h
    · cases h
    · rename_i hne
      obtain rfl := Next.goto.inj h
      simp only [retryMeasure, if_true, if_neg hne]
      omega
  | claim head block wait =>
    have hspin := budget_spin wait
    by_cases hh : q.head.index = head
    · cases fail with
      | false =>
        left
        simp only [PopPc.exec, hh, and_self, if_true] at h ⊢
        obtain rfl := Next.goto.inj h
        simp only [retryMeasure, if_true]
        cases capacity <;> simp only <;> omega
      | true =>
        right
        simp only [PopPc.exec, hh, Bool.true_eq_false, and_false, if_false] at h ⊢
        obtain rfl := Next.goto.inj h
        refine ⟨rfl, trivial, ?_⟩
        simp only [retryMeasure, if_true]
        omega
    · left
      simp only [PopPc.exec, hh, false_and, if_false] at h ⊢
      obtain rfl := Next.goto.inj h
      simp only [retryMeasure, if_true, if_neg hh]
      omega
  | sample head block | storeBlock k v next | swapIndex k v | resetStart k v =>
    left
    obtain rfl := Next.goto.inj h
    simp only [retryMeasure]
    omega
  | readValue k =>
    left
    simp only [PopPc.exec] at h
    split at h
    · cases h
    · obtain rfl := Next.goto.inj h
      split <;> simp only [retryMeasure] <;> omega
  | loadNext k v =>
    left
    simp only [PopPc.exec] at h
    split at h
    · cases h
    · obtain rfl := Next.goto.inj h
      simp only [retryMeasure]
      omega
  | readersDone k v i =>
    left
    obtain rfl := Next.goto.inj h
    split
    · simp only [retryMeasure]
      omega
    · split <;> simp only [retryMeasure] <;> omega
  | resetMark k v i =>
    left
    obtain rfl := Next.goto.inj h
    split <;> simp only [retryMeasure] <;> omega
  | recycleSpare k v =>
    left
    simp only [PopPc.exec] at h
    split at h
    · cases h
    · obtain rfl := Next.goto.inj h
      simp only [retryMeasure]
      omega
  | markRead k v | retire k v | recyclePool k v => cases h

end Pop

section Claim

/-- A move of the tail costs a push at most five accesses. -/
theorem claimMeasure_moved (z : BlockSize) (tail tail' : ℕ) (pc : PushPc V) :
    claimMeasure z tail' pc ≤ claimMeasure z tail pc + 5 := by
  have hloop : loopMeasure z tail' ≤ 5 := by
    unfold loopMeasure
    split <;> omega
  have hloop' : 4 ≤ loopMeasure z tail := by
    unfold loopMeasure
    split <;> omega
  cases pc <;> simp only [claimMeasure] <;> (repeat' split) <;> omega

/-- A push that has not claimed a position needs another access. -/
theorem claimMeasure_pos {pc : PushPc V} {tail : ℕ} (h : Claiming z pc) :
    0 < claimMeasure z tail pc := by
  cases pc <;> first
    | exact h.elim
    | simp only [claimMeasure]
      (repeat' split) <;> omega

/-- The loop of `claim_bounded` begins with what its measure says. -/
theorem claim_boundedLoop (v : V) (cap tail : ℕ) :
    Claiming z (boundedLoop z v cap tail) ∧
      claimMeasure z tail (boundedLoop z v cap tail) = loopMeasure z tail := by
  unfold boundedLoop loopMeasure
  by_cases hv : IsValue z tail
  · have hv' : ¬offset z tail = blockCap z := hv
    rw [if_neg hv', if_pos hv]
    exact ⟨hv, by simp [claimMeasure]⟩
  · have hv' : offset z tail = blockCap z := not_not.mp hv
    rw [if_pos hv', if_neg hv]
    exact ⟨hv, by simp [claimMeasure]⟩

/-- Every access of a push that has not claimed a position claims one, returns, or
leaves less to do, unless its compare-exchange fails on the expected index. -/
theorem push_charges {pc pc' : PushPc V} (hc : Claiming z pc)
    (h : (pc.exec z flag fail q).2.1 = .goto pc') (he : (pc.exec z flag fail q).2.2 = none) :
    Claiming z pc' ∧
      (claimMeasure z (pc.exec z flag fail q).1.tail.index pc' + 1 ≤
          claimMeasure z q.tail.index pc ∨
        tailExpects (.push pc) = some q.tail.index ∧
          (pc.exec z flag fail q).1.tail.index = q.tail.index ∧
          claimMeasure z q.tail.index pc' + 1 ≤ claimMeasure z q.tail.index pc + 5) := by
  cases pc with
  | loadContended v =>
    obtain rfl := Next.goto.inj h
    simp only [PushPc.exec]
    split <;> refine ⟨trivial, .inl ?_⟩ <;> simp only [claimMeasure] <;> split <;> omega
  | fetchAddLoad v =>
    obtain rfl := Next.goto.inj h
    refine ⟨trivial, .inl ?_⟩
    by_cases hv : IsValue z q.tail.index <;> simp [PushPc.exec, claimMeasure, hv]
  | fetchAdd v expected =>
    have hv : ¬IsValue z q.tail.index := by
      intro hv
      have hv' : ¬offset z q.tail.index = blockCap z := hv
      simp only [PushPc.exec, if_neg hv'] at he
      split at he <;> cases he
    have hv' : offset z q.tail.index = blockCap z := not_not.mp hv
    simp only [PushPc.exec, if_pos hv'] at h ⊢
    split at h
    · rename_i hne
      obtain rfl := Next.goto.inj h
      refine ⟨hv, .inl ?_⟩
      simp only [if_pos hne, claimMeasure, if_neg hv, if_pos (isValue_succ_of_not_isValue hv)]
      omega
    · rename_i heq
      obtain rfl := Next.goto.inj h
      refine ⟨trivial, .inl ?_⟩
      simp only [if_neg heq, claimMeasure, if_neg hv, if_pos (isValue_succ_of_not_isValue hv)]
      omega
  | fetchAddContend v tail =>
    have hv' : offset z tail = blockCap z := not_not.mp hc
    obtain rfl := Next.goto.inj h
    simp only [PushPc.exec, if_pos hv']
    refine ⟨trivial, .inl ?_⟩
    simp only [claimMeasure]
    (repeat' split) <;> omega
  | casLoad v =>
    obtain rfl := Next.goto.inj h
    refine ⟨trivial, .inl ?_⟩
    by_cases hv : IsValue z q.tail.index <;> simp [PushPc.exec, claimMeasure, hv]
  | casTry v expected failed =>
    by_cases hh : q.tail.index = expected
    · cases fail with
      | false =>
        simp only [PushPc.exec, hh, and_self, if_true] at h he ⊢
        by_cases hv : IsValue z expected
        · have hv' : ¬offset z expected = blockCap z := hv
          simp only [if_neg hv'] at he
          cases he
        · have hv' : offset z expected = blockCap z := not_not.mp hv
          simp only [if_pos hv'] at h ⊢
          obtain rfl := Next.goto.inj h
          refine ⟨trivial, .inl ?_⟩
          simp only [claimMeasure, if_true, if_neg hv, if_pos (isValue_succ_of_not_isValue hv)]
          omega
      | true =>
        simp only [PushPc.exec, Bool.true_eq_false, and_false, if_false] at h ⊢
        obtain rfl := Next.goto.inj h
        refine ⟨trivial, .inr ⟨congrArg some hh.symm, trivial, ?_⟩⟩
        simp only [claimMeasure, if_true]
        (repeat' split) <;> omega
    · simp only [PushPc.exec, hh, false_and, if_false] at h ⊢
      obtain rfl := Next.goto.inj h
      refine ⟨trivial, .inl ?_⟩
      simp only [claimMeasure, if_true, if_neg hh]
      (repeat' split) <;> omega
  | boundedLoad v cap =>
    obtain rfl := Next.goto.inj h
    obtain ⟨hclaim, hloop⟩ := claim_boundedLoop (z := z) v cap q.tail.index
    refine ⟨hclaim, .inl ?_⟩
    simp only [PushPc.exec]
    rw [hloop, claimMeasure]
    omega
  | boundedSkip v cap expected =>
    obtain ⟨hclaim, hloop⟩ := claim_boundedLoop (z := z) v cap q.tail.index
    by_cases hh : q.tail.index = expected
    · cases fail with
      | false =>
        simp only [PushPc.exec, hh, and_self, if_true] at h ⊢
        obtain rfl := Next.goto.inj h
        have hv₁ := isValue_succ_of_not_isValue hc
        obtain ⟨hclaim₁, hloop₁⟩ := claim_boundedLoop (z := z) v cap (expected + 1)
        refine ⟨hclaim₁, .inl ?_⟩
        rw [hloop₁]
        simp only [claimMeasure, loopMeasure, if_true, if_pos hv₁]
        omega
      | true =>
        simp only [PushPc.exec, Bool.true_eq_false, and_false, if_false] at h ⊢
        obtain rfl := Next.goto.inj h
        refine ⟨hclaim, .inr ⟨congrArg some hh.symm, trivial, ?_⟩⟩
        rw [hloop]
        simp only [claimMeasure, loopMeasure, hh, if_true]
        (repeat' split) <;> omega
    · simp only [PushPc.exec, hh, false_and, if_false] at h ⊢
      obtain rfl := Next.goto.inj h
      refine ⟨hclaim, .inl ?_⟩
      rw [hloop]
      simp only [claimMeasure, if_neg hh]
      omega
  | boundedCached v cap expected =>
    obtain rfl := Next.goto.inj h
    simp only [PushPc.exec]
    split <;> refine ⟨hc, .inl ?_⟩ <;> simp only [claimMeasure] <;> (repeat' split) <;> omega
  | boundedHead v cap expected =>
    simp only [PushPc.exec] at h ⊢
    split at h
    · cases h
    · rename_i hroom
      obtain rfl := Next.goto.inj h
      refine ⟨hc, .inl ?_⟩
      simp only [if_neg hroom, claimMeasure]
      omega
  | boundedCache v cap expected head =>
    obtain rfl := Next.goto.inj h
    have hless : claimMeasure z q.tail.index (.boundedTry v cap expected) + 1 ≤
        claimMeasure z q.tail.index (.boundedCache v cap expected head) := by
      simp only [claimMeasure]
      omega
    exact ⟨hc, .inl hless⟩
  | boundedTry v cap expected =>
    obtain ⟨hclaim, hloop⟩ := claim_boundedLoop (z := z) v cap q.tail.index
    by_cases hh : q.tail.index = expected
    · cases fail with
      | false =>
        simp only [PushPc.exec, hh, and_self, if_true] at he
        cases he
      | true =>
        simp only [PushPc.exec, Bool.true_eq_false, and_false, if_false] at h ⊢
        obtain rfl := Next.goto.inj h
        refine ⟨hclaim, .inr ⟨congrArg some hh.symm, trivial, ?_⟩⟩
        rw [hloop]
        simp only [claimMeasure, loopMeasure, hh, if_true]
        (repeat' split) <;> omega
    · simp only [PushPc.exec, hh, false_and, if_false] at h ⊢
      obtain rfl := Next.goto.inj h
      refine ⟨hclaim, .inl ?_⟩
      rw [hloop]
      simp only [claimMeasure, if_neg hh]
      omega
  | _ => exact hc.elim

end Claim

section Watch

variable [DecidableEq Tid] {disturbs : State Tid V → Tid → State Tid V → Prop}
  {underway : Label V → Prop} {σ : List (Tid × Label V × Bool)}

/-- What a watched step shows without its mark. -/
def unmark (l : Tid × Label V × Bool) : Tid × Label V := (l.1, l.2.1)

/-- A watched run is a run. -/
theorem reach_of_during (h : Reach cfg τ m) (hσ : Run (During cfg t disturbs underway) m σ s) :
    Reach cfg (τ ++ σ.map unmark) s := by
  induction hσ with
  | refl => rwa [List.map_nil, List.append_nil]
  | tail _ hs ih =>
    rw [List.map_append, ← List.append_assoc]
    exact ih.tail hs.step

/-- Every run is watched, as long as the thread is under way. -/
theorem during_of_run (h : Run (Step cfg) m τ s) (hu : ∀ l ∈ τ, l.1 = t → underway l.2) :
    ∃ σ, Run (During cfg t disturbs underway) m σ s ∧ σ.map unmark = τ := by
  induction h with
  | refl => exact ⟨[], .refl, rfl⟩
  | @tail τ s s' l hr hs ih =>
    classical
    obtain ⟨σ, hσ, hmap⟩ := ih fun l hl => hu l (List.mem_append_left _ hl)
    have hlast := hu l (List.mem_append_right _ (List.mem_singleton_self _))
    refine ⟨σ ++ [(l.1, l.2, decide (disturbs s l.1 s'))], hσ.tail ⟨hs, by simp, hlast⟩, ?_⟩
    rw [List.map_append, hmap]
    rfl

/-- The steps of other threads leave the program point alone. -/
theorem pc_of_other (h : Step cfg s (u, l) s') (hu : u ≠ t) : s'.pc t = s.pc t := by
  rcases step_cases h with ⟨op, -, -, -, rfl⟩ | ⟨flag, fail, o, -, -, rfl⟩
  · exact Function.update_of_ne hu.symm _ _
  · exact Function.update_of_ne hu.symm _ _

/-- A thread that neither calls nor returns goes on inside its operation. -/
theorem goes_on (h : Reach cfg τ s) (hs : Step cfg s (t, l) s') (hpc : s.pc t ≠ .idle)
    (hl : l.result = none) : ∃ flag fail o pc', (s.pc t).exec cfg flag fail s.queue = some o ∧
      o.2.1 = .goto pc' ∧ o.2.2 = l.effect ∧ s'.queue = o.1 ∧ s'.pc t = pc' := by
  have hsound := no_fault (h.tail hs) t
  rcases step_cases hs with ⟨op, -, hidle, -, -⟩ | ⟨flag, fail, o, ho, rfl, rfl⟩
  · exact absurd hidle hpc
  · simp only [Function.update_self] at hsound
    cases hn : o.2.1 with
    | goto pc' =>
      refine ⟨flag, fail, o, pc', ho, hn, rfl, rfl, ?_⟩
      simp [nextPc]
    | ret r =>
      simp only [Label.result, hn, nextRet] at hl
      cases hl
    | fault =>
      rw [hn] at hsound
      exact absurd rfl hsound

/-- Bounds on watched runs. If each access of the thread lowers what remains to be
done, and only the marked steps raise it, the accesses are bounded by what there
was to do and a number for each mark. -/
theorem during_bound {P : Pc V → Prop} {μ : Queue V → Pc V → ℕ} {c : ℕ} (h : Reach cfg τ m)
    (hσ : Run (During cfg t disturbs underway) m σ s) (hm : P (m.pc t))
    (hmine : ∀ τ s s' l, Reach cfg τ s → During cfg t disturbs underway s (t, l) s' →
      P (s.pc t) → P (s'.pc t) ∧ μ s'.queue (s'.pc t) + 1 ≤ μ s.queue (s.pc t) + c * l.2.toNat)
    (hothers : ∀ s s' u l, During cfg t disturbs underway s (u, l) s' → u ≠ t →
      μ s'.queue (s.pc t) ≤ μ s.queue (s.pc t) + c * l.2.toNat) :
    P (s.pc t) ∧ μ s.queue (s.pc t) + own t σ ≤ μ m.queue (m.pc t) + c * disturbances σ := by
  have hstays : ∀ {σ s}, Run (During cfg t disturbs underway) m σ s → P (s.pc t) := by
    intro σ s hσ
    refine hσ.invariant (P := fun _ s => P (s.pc t)) hm ?_
    rintro σ s ⟨u, l⟩ s' hr hp hs
    by_cases hu : u = t
    · subst hu
      exact (hmine _ s s' l (reach_of_during h hr) hs hp).1
    · rwa [pc_of_other hs.step hu]
  refine ⟨hstays hσ, ?_⟩
  refine Run.amortized (μ := fun s => μ s.queue (s.pc t)) ?_ hσ
  rintro σ s ⟨u, l⟩ s' hr hs
  by_cases hu : u = t
  · subst hu
    simpa using (hmine _ s s' l (reach_of_during h hr) hs (hstays hr)).2
  · have hother := hothers s s' u l hs hu
    rw [← pc_of_other hs.step hu] at hother
    simpa [hu, pc_of_other hs.step hu] using hother

end Watch

section Bounds

variable [DecidableEq Tid] {σ : List (Tid × Label V × Bool)}

/-- What a pop still needs. -/
def popLeft (z : BlockSize) (q : Queue V) : Pc V → ℕ
  | .pop pc => retryMeasure z q.head.index pc
  | _ => 0

/-- What a push still needs to claim a position. -/
def claimLeft (z : BlockSize) (q : Queue V) : Pc V → ℕ
  | .push pc => claimMeasure z q.tail.index pc
  | _ => 0

/-- What an exclusive receive still needs. -/
def singleLeft : Pc V → ℕ
  | .single pc => singleMeasure pc
  | _ => 0

/-- The steps of other threads without a mark leave the index alone. -/
theorem index_still {index : Queue V → ℕ} {expects : Pc V → Option ℕ} {underway : Label V → Prop}
    {l : Label V × Bool} (hs : During cfg t (Disturbs index expects t) underway s (u, l) s')
    (hu : u ≠ t) (hl : l.2 = false) : index s'.queue = index s.queue := by
  have hmark := hs.marked.not.mp (by simp [hl])
  rw [Disturbs, if_neg hu] at hmark
  exact not_not.mp hmark

/-- A pop goes on at the expense of what it still needs, or of a mark. -/
theorem pop_goes_on {l : Label V × Bool} (h : Reach cfg τ s)
    (hs : During cfg t (Disturbs (·.head.index) headExpects t) Unanswered s (t, l) s')
    (hpc : ∃ pc, s.pc t = .pop pc) : (∃ pc, s'.pc t = .pop pc) ∧
      popLeft cfg.size s'.queue (s'.pc t) + 1 ≤
        popLeft cfg.size s.queue (s.pc t) + 3 * l.2.toNat := by
  obtain ⟨pc, hpc⟩ := hpc
  obtain ⟨flag, fail, o, pc', ho, hgoto, -, hq, hpc'⟩ :=
    goes_on h hs.step (by simp [hpc]) (hs.underway rfl)
  rw [hpc, Pc.exec, Option.some.injEq] at ho
  subst ho
  obtain ⟨pc₁, hn, rfl⟩ := QueueAlone.goto_of_map hgoto
  refine ⟨⟨pc₁, hpc'⟩, ?_⟩
  rw [hq, hpc', hpc]
  rcases pop_charges hn with hless | ⟨hexpects, hstill, hless⟩
  · exact hless.trans (Nat.le_add_right _ _)
  · have hmark : l.2 = true := by
      refine hs.marked.mpr ?_
      rw [Disturbs, if_pos rfl, hpc, hq]
      exact ⟨hexpects, hstill⟩
    simp only [popLeft, hstill, hmark]
    exact hless

/-- A push goes on to claim at the expense of what it still needs, or of a mark. -/
theorem claim_goes_on {l : Label V × Bool} (h : Reach cfg τ s)
    (hs : During cfg t (Disturbs (·.tail.index) tailExpects t) Unclaimed s (t, l) s')
    (hpc : ∃ pc, s.pc t = .push pc ∧ Claiming cfg.size pc) :
    (∃ pc, s'.pc t = .push pc ∧ Claiming cfg.size pc) ∧
      claimLeft cfg.size s'.queue (s'.pc t) + 1 ≤
        claimLeft cfg.size s.queue (s.pc t) + 5 * l.2.toNat := by
  obtain ⟨pc, hpc, hclaiming⟩ := hpc
  obtain ⟨hresult, heffect⟩ := hs.underway rfl
  obtain ⟨flag, fail, o, pc', ho, hgoto, he, hq, hpc'⟩ :=
    goes_on h hs.step (by simp [hpc]) hresult
  rw [heffect] at he
  rw [hpc, Pc.exec, Option.some.injEq] at ho
  subst ho
  obtain ⟨pc₁, hn, rfl⟩ := QueueAlone.goto_of_map hgoto
  obtain ⟨hclaiming', hcharge⟩ := push_charges hclaiming hn he
  refine ⟨⟨pc₁, hpc', hclaiming'⟩, ?_⟩
  rw [hq, hpc', hpc]
  rcases hcharge with hless | ⟨hexpects, hstill, hless⟩
  · exact hless.trans (Nat.le_add_right _ _)
  · have hmark : l.2 = true := by
      refine hs.marked.mpr ?_
      rw [Disturbs, if_pos rfl, hpc, hq]
      exact ⟨hexpects, hstill⟩
    simp only [claimLeft, hstill, hmark]
    exact hless

/-- An exclusive receive goes on at the expense of what it still needs. -/
theorem single_goes_on {l : Label V} (h : Reach cfg τ s) (hs : Step cfg s (t, l) s')
    (hl : l.result = none) (hpc : ∃ pc, s.pc t = .single pc) : (∃ pc, s'.pc t = .single pc) ∧
      singleLeft (s'.pc t) + 1 ≤ singleLeft (s.pc t) := by
  obtain ⟨pc, hpc⟩ := hpc
  obtain ⟨flag, fail, o, pc', ho, hgoto, -, -, hpc'⟩ := goes_on h hs (by simp [hpc]) hl
  rw [hpc, Pc.exec, Option.some.injEq] at ho
  subst ho
  obtain ⟨pc₁, hn, rfl⟩ := QueueAlone.goto_of_map hgoto
  refine ⟨⟨pc₁, hpc'⟩, ?_⟩
  rw [hpc', hpc]
  exact single_lowers hn

/-- Progress of receives. A pop that has not returned has made fewer accesses than it
needs undisturbed and three for each move of the head by another consumer, or
failure of its compare-exchange on the expected head; an exclusive receive returns
within a number of accesses that nobody else can raise. -/
theorem receive_retries (h : Reach cfg τ m)
    (hσ : Run (During cfg t (Disturbs (·.head.index) headExpects t) Unanswered) m σ s) :
    (m.pc t = Op.pop.entry cfg.capacity → own t σ < popPatience cfg.size + 3 * disturbances σ) ∧
    (m.pc t = Op.popSingle.entry cfg.capacity → own t σ < 11) ∧
    ∀ limit, m.pc t = (Op.popSingleBatch limit).entry cfg.capacity → own t σ < 13 + 2 * limit := by
  have hsingle : (∃ pc, m.pc t = .single pc) → own t σ < singleLeft (m.pc t) := by
    intro hm
    obtain ⟨⟨pc, hpc⟩, hbound⟩ := during_bound (P := fun pc => ∃ p, pc = .single p)
      (μ := fun _ pc => singleLeft pc) (c := 0) h hσ hm
      (fun τ s s' l hr hs hp => by
        simpa using single_goes_on hr hs.step (hs.underway rfl) hp)
      (fun s s' u l _ _ => Nat.le_add_right _ _)
    have hpos : 0 < singleLeft (s.pc t) := by
      rw [hpc]
      cases pc with
      | leave batch pc => cases pc <;> simp [singleLeft, singleMeasure]
      | _ => simp [singleLeft, singleMeasure]
    omega
  refine ⟨fun hm => ?_, fun hm => ?_, fun limit hm => ?_⟩
  · obtain ⟨⟨pc, hpc⟩, hbound⟩ := during_bound (P := fun pc => ∃ p, pc = .pop p)
      (μ := popLeft cfg.size) (c := 3) h hσ ⟨_, hm⟩ (fun τ s s' l hr hs hp => pop_goes_on hr hs hp)
      (fun s s' u l hs hu => by
        cases hpc : s.pc t with
        | pop pc =>
          cases hl : l.2 with
          | true => exact retryMeasure_moved _ _ _ _
          | false => simp [popLeft, index_still hs hu hl]
        | _ => exact Nat.zero_le _)
    have hstart : popLeft cfg.size m.queue (m.pc t) = popPatience cfg.size := by
      rw [hm]
      rfl
    have hend : 0 < popLeft cfg.size s.queue (s.pc t) := by
      rw [hpc]
      exact retryMeasure_pos _ _ _
    omega
  · have hlt := hsingle ⟨_, hm⟩
    rwa [hm] at hlt
  · have hlt := hsingle ⟨_, hm⟩
    rwa [hm] at hlt

omit [DecidableEq Tid] in
/-- The marks do not count. -/
theorem own_unmark [DecidableEq Tid] : own t σ = (σ.map unmark).countP fun l => l.1 = t := by
  rw [own, List.countP_map]
  rfl

/-- A value is there, and a pop of thread 0 takes it under the eyes of thread 1. -/
def overtake : List (Fin 2 × Choice ℕ) :=
  List.replicate 3 (1, .run 0 false) ++
  (0, .call .pop) :: List.replicate 6 (0, .run 0 false) ++ List.replicate 3 (1, .run 0 false)

/-- In that run thread 1 has gone round its loop again, and is within its bound. -/
theorem receive_retries_of_overtake :
    ∃ (τ : List (Fin 2 × Label ℕ)) (m : State (Fin 2) ℕ) (σ : List (Fin 2 × Label ℕ × Bool))
      (s : State (Fin 2) ℕ), Reach QueueBlocks.shared τ m ∧ m.pc 1 = Op.pop.entry none ∧
      Run (During QueueBlocks.shared 1 (Disturbs (·.head.index) headExpects 1) Unanswered) m σ s ∧
      own 1 σ = 6 ∧ own 1 σ < popPatience .small + 3 * disturbances σ := by
  have h : (((State.init (Fin 2) ℕ).runs QueueBlocks.shared
      ((0, .call (.push 7)) :: List.replicate 8 (0, .run 0 false))).bind fun r =>
      ((r.2.setPc 1 (Op.pop.entry none)).runs QueueBlocks.shared overtake).map fun r' =>
        ((r.2.pc 1).isIdle, r'.1.all fun l => l.1 ≠ 1 || l.2.result.isNone,
          r'.1.countP fun l => l.1 = 1)) = some (true, true, 6) := by
    decide +kernel
  obtain ⟨⟨τ, m⟩, hrun, h⟩ := Option.bind_eq_some_iff.mp h
  obtain ⟨⟨ρ, s⟩, hrace, he⟩ := Option.map_eq_some_iff.mp h
  simp only [Prod.mk.injEq, Pc.isIdle_iff, List.all_eq_true, Bool.or_eq_true, decide_eq_true_eq,
    Option.isNone_iff_eq_none] at he
  obtain ⟨hidle, hopen, hcount⟩ := he
  have hcall : Step QueueBlocks.shared m (1, .call .pop) (m.setPc 1 (Op.pop.entry none)) :=
    ⟨.call .pop, by simp [State.step, hidle, Op.Allowed, QueueBlocks.shared]⟩
  have hreach := (State.runs_run hrun).tail hcall
  have hpc : (m.setPc 1 (Op.pop.entry none)).pc 1 = Op.pop.entry none := by simp [State.setPc]
  have hwatched : ∃ σ, Run (During QueueBlocks.shared 1 (Disturbs (·.head.index) headExpects 1)
      Unanswered) (m.setPc 1 (Op.pop.entry none)) σ s ∧ σ.map unmark = ρ :=
    during_of_run (State.runs_run hrace) fun l hl ht => (hopen l hl).resolve_left fun hne => hne ht
  obtain ⟨σ, hσ, hmap⟩ := hwatched
  have hown : own 1 σ = 6 := by rw [own_unmark, hmap, hcount]
  exact ⟨_, _, σ, s, hreach, hpc, hσ, hown, (receive_retries hreach hσ).1 hpc⟩

/-- Progress of claims. A push that has neither claimed a position nor returned has
made fewer accesses than six and five for each move of the tail by another producer,
or failure of its compare-exchange on the expected tail. -/
theorem push_claims (h : Reach cfg τ m) {v : V}
    (hσ : Run (During cfg t (Disturbs (·.tail.index) tailExpects t) Unclaimed) m σ s)
    (hm : m.pc t = (Op.push v).entry cfg.capacity) : own t σ < 6 + 5 * disturbances σ := by
  have hentry : ∃ pc, m.pc t = .push pc ∧ Claiming cfg.size pc ∧
      claimMeasure cfg.size m.queue.tail.index pc ≤ 6 := by
    rw [hm]
    cases hc : cfg.capacity with
    | none => exact ⟨_, rfl, trivial, le_rfl⟩
    | some cap =>
      refine ⟨_, rfl, trivial, ?_⟩
      simp only [PushPc.entry, claimMeasure, loopMeasure]
      split <;> omega
  obtain ⟨pc₀, hpc₀, hclaiming, hstart⟩ := hentry
  obtain ⟨⟨pc, hpc, hpending⟩, hbound⟩ := during_bound
    (P := fun pc => ∃ p, pc = .push p ∧ Claiming cfg.size p) (μ := claimLeft cfg.size) (c := 5) h hσ
    ⟨pc₀, hpc₀, hclaiming⟩ (fun τ s s' l hr hs hp => claim_goes_on hr hs hp)
    (fun s s' u l hs hu => by
      cases hpc : s.pc t with
      | push pc =>
        cases hl : l.2 with
        | true => exact claimMeasure_moved _ _ _ _
        | false => simp [claimLeft, index_still hs hu hl]
      | _ => exact Nat.zero_le _)
  have hend : 0 < claimLeft cfg.size s.queue (s.pc t) := by
    rw [hpc]
    exact claimMeasure_pos hpending
  have hbegin : claimLeft cfg.size m.queue (m.pc t) ≤ 6 := by
    rw [hpc₀]
    exact hstart
  omega

/-- A bounded queue of small blocks for two threads. -/
def two : Config (Fin 2) := ⟨.small, some 2, by simp, none⟩

/-- Thread 0 claims the position that thread 1 has its eyes on. -/
def overtaken : List (Fin 2 × Choice ℕ) :=
  List.replicate 2 (1, .run 0 false) ++
  (0, .call (.push 7)) :: List.replicate 8 (0, .run 0 false) ++ List.replicate 2 (1, .run 0 false)

/-- In that run thread 1 has tried once, and is within its bound. -/
theorem push_claims_of_overtaken :
    ∃ (τ : List (Fin 2 × Label ℕ)) (m : State (Fin 2) ℕ) (σ : List (Fin 2 × Label ℕ × Bool))
      (s : State (Fin 2) ℕ), Reach two τ m ∧ m.pc 1 = (Op.push 8).entry (some 2) ∧
      Run (During two 1 (Disturbs (·.tail.index) tailExpects 1) Unclaimed) m σ s ∧
      own 1 σ = 4 ∧ own 1 σ < 6 + 5 * disturbances σ := by
  have hcall : Step two (State.init (Fin 2) ℕ) (1, .call (.push 8))
      ((State.init (Fin 2) ℕ).setPc 1 ((Op.push 8).entry (some 2))) :=
    ⟨.call (.push 8), by simp [State.step, State.init, Op.Allowed, two]⟩
  have h : (((State.init (Fin 2) ℕ).setPc 1 ((Op.push 8).entry (some 2))).runs two overtaken).map
      (fun r => (r.1.all fun l => l.1 ≠ 1 || l.2.result.isNone && l.2.effect.isNone,
        r.1.countP fun l => l.1 = 1)) = some (true, 4) := by
    decide +kernel
  obtain ⟨⟨ρ, s⟩, hrace, he⟩ := Option.map_eq_some_iff.mp h
  simp only [Prod.mk.injEq, List.all_eq_true, Bool.or_eq_true, Bool.and_eq_true, decide_eq_true_eq,
    Option.isNone_iff_eq_none] at he
  obtain ⟨hopen, hcount⟩ := he
  have hreach := Runs.Run.single hcall
  have hpc : ((State.init (Fin 2) ℕ).setPc 1 ((Op.push 8).entry (some 2))).pc 1 =
      (Op.push 8).entry (some 2) := by simp [State.setPc]
  have hwatched : ∃ σ, Run (During two 1 (Disturbs (·.tail.index) tailExpects 1) Unclaimed)
      ((State.init (Fin 2) ℕ).setPc 1 ((Op.push 8).entry (some 2))) σ s ∧ σ.map unmark = ρ :=
    during_of_run (State.runs_run hrace) fun l hl ht => (hopen l hl).resolve_left fun hne => hne ht
  obtain ⟨σ, hσ, hmap⟩ := hwatched
  have hown : own 1 σ = 4 := by rw [own_unmark, hmap, hcount]
  exact ⟨_, _, σ, s, hreach, hpc, hσ, hown, push_claims hreach hσ hpc⟩

end Bounds

end Rapidfire.QueueRetries
