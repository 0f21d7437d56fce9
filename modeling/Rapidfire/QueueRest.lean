import Rapidfire.QueueBlocks
import Rapidfire.QueuePairing

/-!
# The queue at rest

When no operation is in flight, the unread part of the queue is the claims that
nobody took, in order: the slots between the indices hold exactly their values,
and these are what `Drop` destroys.
-/

namespace Rapidfire.QueueRest

open Positions QueueMemory QueueMachine QueueCoherence QueueLocal QueueInvariant QueueHistory
  QueueBlocks QueuePairing

variable {Tid V : Type} {cfg : Config Tid} {s : State Tid V} {g : Ghost Tid V}
  {τ : List (Tid × Label V)} {z : BlockSize}

/-- No operation is in flight. -/
def Rest (s : State Tid V) : Prop := ∀ u, s.pc u = .idle

/-- Positions claimed and not taken, with their values, in order. -/
def unread (τ : List (Tid × Label V)) : List (ℕ × V) :=
  ((claimed τ).map Prod.snd).drop (taken τ).length

section Views

/-- At rest nobody writes. -/
theorem Rest.writes (h : Rest s) (t : Tid) : (views z s.pc).writes t = none := by
  simp [views, QueueLocal.writes, h t]

/-- At rest no block is being linked. -/
theorem Rest.stage (h : Rest s) (t : Tid) : (views z s.pc).stage t ≠ .linking := by
  simp [views, QueueLocal.stage, h t]

/-- At rest nobody crosses to the next block. -/
theorem Rest.crossing (h : Rest s) (t : Tid) : (views z s.pc).crossing t = false := by
  simp [views, QueueLocal.crossing, h t]

/-- At rest every claimed position is published. -/
theorem Rest.published (h : Rest s) (hg : Coherent cfg s.queue (views cfg.size s.pc) g) {p : ℕ} :
    g.published p ↔ IsValue cfg.size p ∧ p < s.queue.tail.index := by
  rw [hg.published_iff]
  refine ⟨fun ⟨hv, hlt, _⟩ => ⟨hv, hlt⟩, fun ⟨hv, hlt⟩ => ⟨hv, hlt, fun t => ?_⟩⟩
  rw [h.writes t]
  simp

end Views

section Head

variable [DecidableEq Tid]

/-- At rest the head is on a value position of the head block. -/
theorem Rest.head (h : Rest s) (hr : Reach cfg τ s) (hg : Inv cfg s g) :
    IsValue cfg.size s.queue.head.index ∧ lapOf cfg.size s.queue.head.index = g.headLap := by
  cases hx : cfg.exclusive with
  | none =>
    have hvalue : IsValue cfg.size s.queue.head.index := by
      by_contra hv
      obtain ⟨u, p, hreads, -⟩ := crossing_of_sentinel hr hx hv
      rw [h u] at hreads
      cases hreads
    exact ⟨hvalue, hg.coherent.head_shared hx hvalue⟩
  | some c =>
    obtain ⟨hvalue, hlap⟩ := hg.coherent.head_exclusive c hx
    exact ⟨hvalue, hlap (h.crossing c)⟩

end Head

section Drop

/-- Between the head and the tail, the first loop of `Drop` meets the claimed
values, each once and in order. -/
theorem dropValues_eq (h : Rest s) (hg : Coherent cfg s.queue (views cfg.size s.pc) g) (n head : ℕ)
    (block : Option BlockId) (hle : s.queue.head.index ≤ head)
    (htail : head + n = s.queue.tail.index) (hlap : g.headLap ≤ lapOf cfg.size head)
    (hblock : 0 < n → block = some (g.chain (lapOf cfg.size head))) :
    dropValues cfg.size s.queue n head block =
      ((List.range' head n).filter fun p => IsValue cfg.size p).map g.val := by
  induction n generalizing head block with
  | zero => rfl
  | succ n ih =>
    obtain rfl := hblock (Nat.succ_pos n)
    rw [List.range'_succ]
    by_cases hv : IsValue cfg.size head
    · have hpub : g.published head := (h.published hg).mpr ⟨hv, by omega⟩
      have hunread : ¬g.finished head := fun hf => by
        have := hg.lt_of_finished hf
        omega
      obtain ⟨-, -, htag, v, hval, hslot⟩ := hg.slot head hpub hunread
      have hlapSucc := lapOf_succ_of_isValue hv
      have hrest := ih (head + 1) (some (g.chain (lapOf cfg.size head))) (by omega) (by omega)
        (hlapSucc.symm ▸ hlap) fun _ => by rw [hlapSucc]
      rw [dropValues, if_neg hv, if_pos htag, hrest, hslot, List.filter_cons_of_pos (by simpa using hv),
        List.map_cons, hval]
    · have hlapSucc := lapOf_succ_of_not_isValue hv
      have hrest := ih (head + 1) (s.queue.next (g.chain (lapOf cfg.size head))) (by omega) (by omega)
        (by omega) fun _ => ?_
      · rw [dropValues, if_pos (by simpa [IsValue] using hv), hrest,
          List.filter_cons_of_neg (by simpa using hv)]
      · obtain ⟨last, rfl, hlast⟩ := last_of_sentinel hv
        have hlaps := hg.last_published last ((h.published hg).mpr ⟨hlast.isValue, by omega⟩) hlast
        rw [lapOf_succ_of_isValue hlast.isValue] at hlap hlapSucc ⊢
        rw [hlapSucc]
        exact hg.next_settled h.stage hlap hlaps

end Drop

section Unread

variable [DecidableEq Tid]

omit [DecidableEq Tid] in
/-- The value positions below an index, and those from there to a later one. -/
theorem valuePositions_split {m n : ℕ} (h : m ≤ n) : valuePositions z n =
    valuePositions z m ++ (List.range' m (n - m)).filter fun p => IsValue z p := by
  have hrange : List.range n = List.range m ++ List.range' m (n - m) := by
    have happend := List.range'_append_1 (s := 0) (m := m) (n := n - m)
    rw [Nat.zero_add, Nat.add_sub_cancel' h] at happend
    rw [List.range_eq_range', List.range_eq_range', happend]
  rw [valuePositions, valuePositions, hrange, List.filter_append]

omit [DecidableEq Tid] in
theorem valuePositions_begins {m n : ℕ} (h : m ≤ n) :
    valuePositions z m <+: valuePositions z n :=
  ⟨_, (valuePositions_split h).symm⟩

/-- The positions taken begin the positions claimed. -/
theorem taken_prefix (h : History cfg τ s g) :
    (taken τ).map Prod.snd <+: (claimed τ).map fun c => c.2.1 := by
  rw [h.taken, h.claimed]
  rcases Nat.le_total s.queue.head.index s.queue.tail.index with hle | hle
  · exact valuePositions_begins hle
  · have hsub : (valuePositions cfg.size s.queue.head.index).Subperm
        (valuePositions cfg.size s.queue.tail.index) := by
      refine List.subperm_of_subset ((valuePositions_pairwise _).imp Nat.ne_of_lt) fun p hp => ?_
      obtain ⟨hlt, hv⟩ := mem_valuePositions.mp hp
      exact mem_valuePositions.mpr ⟨h.inv.coherent.taken_claimed p hv hlt, hv⟩
    rw [(valuePositions_begins hle).eq_of_length_le hsub.length_le]

/-- The unread positions are the value positions between the indices. -/
theorem unread_positions (h : History cfg τ s g) : (unread τ).map Prod.fst =
    (List.range' s.queue.head.index (s.queue.tail.index - s.queue.head.index)).filter
      fun p => IsValue cfg.size p := by
  have htaken : (taken τ).length = (valuePositions cfg.size s.queue.head.index).length := by
    rw [← h.taken, List.length_map]
  rw [unread, List.map_drop, List.map_map, htaken]
  rw [show Prod.fst ∘ Prod.snd = fun c : Tid × ℕ × V => c.2.1 from rfl, h.claimed]
  rcases Nat.le_total s.queue.head.index s.queue.tail.index with hle | hle
  · rw [valuePositions_split hle, List.drop_left]
  · have hpre := (valuePositions_begins (z := cfg.size) hle).length_le
    rw [Nat.sub_eq_zero_of_le hle, List.drop_of_length_le hpre]
    rfl

/-- An unread value was claimed for its position. -/
theorem val_of_unread (h : History cfg τ s g) {c : ℕ × V} (hc : c ∈ unread τ) :
    g.val c.1 = some c.2 := by
  obtain ⟨⟨t, p, v⟩, hmem, rfl⟩ := List.mem_map.mp (List.mem_of_mem_drop hc)
  exact (h.val p v).mpr ⟨t, hmem⟩

/-- The unread claims are those at or after the head. -/
theorem unread_eq_filter (h : History cfg τ s g) :
    unread τ = ((claimed τ).map Prod.snd).filter fun c => s.queue.head.index ≤ c.1 := by
  obtain ⟨rest, hrest⟩ := taken_prefix h
  have hread : (((claimed τ).map Prod.snd).take (taken τ).length).filter
      (fun c => s.queue.head.index ≤ c.1) = [] := by
    refine List.filter_eq_nil_iff.mpr fun c hc => ?_
    have hmem : c.1 ∈ (taken τ).map Prod.snd := by
      have hfst := List.mem_map_of_mem (f := Prod.fst) hc
      rw [List.map_take, List.map_map] at hfst
      rw [show Prod.fst ∘ Prod.snd = fun c : Tid × ℕ × V => c.2.1 from rfl, ← hrest,
        List.take_append_of_le_length (by simp), List.take_of_length_le (by simp)] at hfst
      exact hfst
    rw [h.taken] at hmem
    have := (mem_valuePositions.mp hmem).1
    simp only [decide_eq_true_eq]
    omega
  have hunread : (unread τ).filter (fun c => s.queue.head.index ≤ c.1) = unread τ := by
    refine List.filter_eq_self.mpr fun c hc => ?_
    have hmem := List.mem_map_of_mem (f := Prod.fst) hc
    rw [unread_positions h, List.mem_filter, List.mem_range'_1] at hmem
    exact decide_eq_true hmem.1.1
  rw [← List.take_append_drop (taken τ).length ((claimed τ).map Prod.snd), List.filter_append,
    hread, List.nil_append]
  exact hunread.symm

/-- At rest, the first loop of `Drop` destroys the unread values, each once and
in order. -/
theorem dropped_values (hr : Reach cfg τ s) (h : History cfg τ s g)
    (hrest : Rest s) :
    dropValues cfg.size s.queue (s.queue.tail.index - s.queue.head.index) s.queue.head.index
      (some s.queue.head.block) = (unread τ).map fun c => some c.2 := by
  obtain ⟨hvalue, hlap⟩ := hrest.head hr h.inv
  have hvals : (unread τ).map (fun c => some c.2) = ((unread τ).map Prod.fst).map g.val := by
    rw [List.map_map]
    exact List.map_congr_left fun c hc => (val_of_unread h hc).symm
  rw [hvals, unread_positions h]
  rcases Nat.le_total s.queue.head.index s.queue.tail.index with hle | hle
  · refine dropValues_eq hrest h.inv.coherent _ _ _ le_rfl (by omega) hlap.ge fun _ => ?_
    rw [hlap, h.inv.coherent.head_block]
  · rw [Nat.sub_eq_zero_of_le hle]
    rfl

end Unread

end Rapidfire.QueueRest
