import Rapidfire.QueueHistory
import Mathlib.Data.List.Sort

/-!
# Exactly-once, in-order delivery

Positions order everything: the claims of a run fill the value positions below
the tail, the takes fill those below the head, and a value travels from the
push that claimed its position to the receive that took it.
-/

namespace Rapidfire.QueueDelivery

open Positions QueueMemory QueueMachine QueueCoherence QueueLocal QueueInvariant QueueHistory

variable {Tid V : Type} [DecidableEq Tid] {cfg : Config Tid} {s : State Tid V} {g : Ghost Tid V}
  {τ : List (Tid × Label V)}

/-- Lists sorted by position: a list of entries of another one is a sublist. -/
theorem sublist_of_positions {xs ys : List (ℕ × V)}
    (hx : (xs.map Prod.fst).Pairwise (· < ·)) (hy : (ys.map Prod.fst).Pairwise (· < ·))
    (h : xs ⊆ ys) : xs.Sublist ys := by
  rw [List.pairwise_map] at hx hy
  have hanti : Std.Antisymm fun a b : ℕ × V => a.1 < b.1 :=
    ⟨fun a b hab hba => absurd hab (Nat.lt_asymm hba)⟩
  refine List.sublist_of_subperm_of_pairwise (List.subperm_of_subset ?_ h) hx hy
  exact hx.imp fun hab he => absurd hab (by rw [he]; exact lt_irrefl _)

/-- What a consumer takes, it takes in increasing order. -/
theorem taken_increasing (h : History cfg τ s g) (c : Tid) :
    (ofThread c (taken τ)).Pairwise (· < ·) := by
  refine List.Pairwise.sublist (ofThread_sublist c _) ?_
  rw [h.taken]
  exact valuePositions_pairwise _

/-- What a consumer returns, it returns in increasing order. -/
theorem returned_increasing (h : History cfg τ s g) (c : Tid) :
    ((ofThread c (returned τ)).map Prod.fst).Pairwise (· < ·) := by
  have hc := taken_increasing h c
  rw [h.inflight c] at hc
  exact (List.pairwise_append.mp hc).1

/-- Of the values a consumer returns, those of one producer come in the order
of its claims. -/
theorem producer_order (h : History cfg τ s g) (c u : Tid) :
    ((ofThread c (returned τ)).filter fun x =>
      x.1 ∈ (ofThread u (claimed τ)).map Prod.fst).Sublist (ofThread u (claimed τ)) := by
  refine sublist_of_positions ?_ (claimed_increasing h u) ?_
  · exact List.Pairwise.sublist (List.filter_sublist.map _) (returned_increasing h c)
  · rintro ⟨p, v⟩ hx
    obtain ⟨hx, hp⟩ := List.mem_filter.mp hx
    obtain ⟨⟨p', w⟩, hw, hpp⟩ := List.mem_map.mp (of_decide_eq_true hp)
    obtain rfl : p' = p := hpp
    obtain ⟨t, ht⟩ := (h.val p' v).mp (h.returned c p' v (mem_ofThread.mp hx))
    have he := claimed_unique h ht (mem_ofThread.mp hw) rfl
    obtain ⟨rfl, -, rfl⟩ : t = u ∧ p' = p' ∧ v = w := by simpa using he
    exact hw

/-- No position is returned twice, by whatever consumers. -/
theorem returned_nodup (h : History cfg τ s g) :
    ((returned τ).map fun c => c.2.1).Nodup := by
  have htaken : ((taken τ).map Prod.snd).Nodup := by
    rw [h.taken]
    exact (valuePositions_pairwise _).imp Nat.ne_of_lt
  have hmem : ∀ c p v, (c, p, v) ∈ returned τ → (c, p) ∈ taken τ := by
    intro c p v hm
    refine mem_ofThread.mp ?_
    rw [h.inflight c]
    exact List.mem_append_left _ (List.mem_map.mpr ⟨(p, v), mem_ofThread.mpr hm, rfl⟩)
  have hpair : ((returned τ).map Prod.snd).Pairwise fun a b => a.1 ≠ b.1 := by
    refine pairwise_of_threads (fun c => ?_) fun x hx y hy hne he => hne ?_
    · exact List.pairwise_map.mp ((returned_increasing h c).imp Nat.ne_of_lt)
    · obtain ⟨c, p, v⟩ := x
      obtain ⟨c', p', v'⟩ := y
      obtain rfl : p = p' := he
      have heq := List.inj_on_of_nodup_map htaken (hmem c p v hx) (hmem c' p v' hy) rfl
      exact (Prod.mk.inj heq).1
  rw [List.Nodup, ← List.pairwise_map, List.map_map] at *
  exact List.pairwise_map.mpr (List.pairwise_map.mp hpair)

/-- Delivery through the queue, in any run. The claims fill the value positions
below the tail, in order, and the takes those below the head. A producer claims
for the values it sends, in the order it sends them, and every push that
returned `Ok` has its position among the claims. What a consumer has taken it
has returned, in order, up to the receive it is in; a returned value is the one
its position was claimed for. No position is returned twice, of one producer's
values each consumer returns a part in their order, and no assertion fails and
no unwritten slot is read. -/
theorem exactly_once_in_order (h : Reach cfg τ s) :
    (claimed τ).map (fun c => c.2.1) = valuePositions cfg.size s.queue.tail.index ∧
    (taken τ).map Prod.snd = valuePositions cfg.size s.queue.head.index ∧
    (∀ u, ((ofThread u (claimed τ)).map Prod.snd).Sublist (ofThread u (sent τ)) ∧
      (ofThread u (claimed τ)).map Prod.fst =
        ofThread u (accepted τ) ++ claimOf cfg.size (s.pc u)) ∧
    (∀ c, ofThread c (taken τ) =
      (ofThread c (returned τ)).map Prod.fst ++ inflight (s.pc c)) ∧
    (∀ x ∈ returned τ, x.2 ∈ (claimed τ).map Prod.snd) ∧
    ((returned τ).map fun c => c.2.1).Nodup ∧
    (∀ c u, ((ofThread c (returned τ)).filter fun x =>
      x.1 ∈ (ofThread u (claimed τ)).map Prod.fst).Sublist (ofThread u (claimed τ))) ∧
    ∀ t, s.pc t ≠ .fault := by
  obtain ⟨g, hg⟩ := reach_history h
  refine ⟨hg.claimed, hg.taken, fun u => ⟨?_, hg.claim u⟩, hg.inflight, ?_, returned_nodup hg,
    producer_order hg, no_fault h⟩
  · exact (List.sublist_append_left _ _).trans (hg.offer u)
  · rintro ⟨c, p, v⟩ hx
    obtain ⟨t, ht⟩ := (hg.val p v).mp (hg.returned c p v hx)
    exact List.mem_map.mpr ⟨(t, p, v), ht, rfl⟩

/-- An unbounded queue of small blocks between two threads. -/
def plain : Config (Fin 2) := ⟨.small, none, Config.unbounded_pos, none⟩

/-- Thread 0 pushes 7 and 8, thread 1 pops once. -/
def pushPushPop : List (Fin 2 × Choice ℕ) :=
  (0, .call (.push 7)) :: List.replicate 8 (0, .run 0 false) ++
  (0, .call (.push 8)) :: List.replicate 8 (0, .run 0 false) ++
  (1, .call .pop) :: List.replicate 6 (1, .run 0 false)

/-- In that run the value of the first position is returned, once. -/
theorem exactly_once_of_pushPushPop : ∃ (τ : List (Fin 2 × Label ℕ)) (s : State (Fin 2) ℕ),
    Reach plain τ s ∧ claimed τ = [(0, 0, 7), (0, 1, 8)] ∧ returned τ = [(1, 0, 7)] ∧
      (claimed τ).map (fun c => c.2.1) = valuePositions .small s.queue.tail.index ∧
      (taken τ).map Prod.snd = valuePositions .small s.queue.head.index ∧
      ((returned τ).map fun c => c.2.1).Nodup := by
  have h : ((State.init (Fin 2) ℕ).runs plain pushPushPop).map
      (fun r => (claimed r.1, returned r.1)) = some ([(0, 0, 7), (0, 1, 8)], [(1, 0, 7)]) := by
    decide +kernel
  obtain ⟨⟨τ, s⟩, hr, he⟩ := Option.map_eq_some_iff.mp h
  have hreach : Reach plain τ s := State.runs_run hr
  obtain ⟨hc, ht, -, -, -, hn, -⟩ := exactly_once_in_order hreach
  exact ⟨τ, s, hreach, (Prod.mk.inj he).1, (Prod.mk.inj he).2, hc, ht, hn⟩

end Rapidfire.QueueDelivery
