import Rapidfire.QueueProduce

/-!
# Effects of consumers

One theorem for every access of a receive that changes memory. The shared
receive takes one position at a time; the exclusive one takes a whole run of
positions when it advances the head.
-/

namespace Rapidfire.QueueConsume

open Positions QueueMemory QueueMachine QueueCoherence QueueLocal QueueRely QueueProduce Updates

variable {Tid V : Type} [DecidableEq Tid] {cfg : Config Tid} {q : Queue V} {vw : Views Tid}
  {g : Ghost Tid V} {t t' : Tid} {b : BlockId} {p : ℕ}

/-- Store to `head.index`. -/
def setHead (q : Queue V) (index : ℕ) : Queue V :=
  { q with head := { q.head with index := index } }

/-- Store to `head.block`. -/
def setHeadBlock (q : Queue V) (b : BlockId) : Queue V :=
  { q with head := { q.head with block := b } }

section Take

omit [DecidableEq Tid] in
/-- While the head stands on a value position no reader of a last slot is
under way. -/
theorem not_isLast_of_reads (h : Coherent cfg q vw g) (hv : IsValue cfg.size q.head.index)
    (hr : vw.reads t = some p) : ¬IsLast cfg.size p := by
  intro hl
  rw [h.head_waits t p hr hl] at hv
  exact (isLast_iff.mp hl).2 hv

/-- The published position at the head is taken. -/
theorem take_coherent (h : Coherent cfg q vw g) (hx : cfg.exclusive = none)
    (hr : vw.reads t = none) (hpub : g.published q.head.index) :
    Coherent cfg (setHead q (q.head.index + 1)) (vw.setReads t (some q.head.index)) g := by
  obtain ⟨hv, htail, hw⟩ := (h.published_iff _).mp hpub
  have hr' : ∀ t' p, (vw.setReads t (some q.head.index)).reads t' = some p →
      t' = t ∧ q.head.index = p ∨ t' ≠ t ∧ vw.reads t' = some p := fun t' p => update_some_iff.mp
  have hnot : cfg.exclusive ≠ none → False := fun hne => hne hx
  exact { h with
    writes_spec := by
      intro t' p hp
      obtain ⟨h1, h2, h3⟩ := h.writes_spec t' p hp
      have hne : q.head.index ≠ p := by
        rintro rfl
        exact hw t' hp
      refine ⟨h1, ?_, h3⟩
      change q.head.index + 1 ≤ p
      omega
    reads_spec := by
      intro t' p hp
      change _ ∧ p < q.head.index + 1
      rcases hr' t' p hp with ⟨-, rfl⟩ | ⟨-, hp⟩
      · exact ⟨hv, Nat.lt_succ_self _⟩
      · exact ⟨(h.reads_spec t' p hp).1, Nat.lt_succ_of_lt (h.reads_spec t' p hp).2⟩
    reads_inj := by
      intro t₁ t₂ p h₁ h₂
      rcases hr' t₁ p h₁ with ⟨e₁, hp₁⟩ | ⟨-, h₁⟩ <;> rcases hr' t₂ p h₂ with ⟨e₂, hp₂⟩ | ⟨-, h₂⟩
      · exact e₁.trans e₂.symm
      · exact absurd hp₁.symm (Nat.ne_of_lt (h.reads_spec t₂ p h₂).2)
      · exact absurd hp₂.symm (Nat.ne_of_lt (h.reads_spec t₁ p h₁).2)
      · exact h.reads_inj t₁ t₂ p h₁ h₂
    taken_claimed := by
      intro p hp hlt
      rcases Nat.lt_succ_iff_lt_or_eq.mp hlt with hlt | rfl
      · exact h.taken_claimed p hp hlt
      · exact htail
    finished_iff := by
      intro p
      rw [h.finished_iff]
      change _ ↔ _ ∧ p < q.head.index + 1 ∧ ∀ t', _
      constructor
      · rintro ⟨h1, h2, h3⟩
        refine ⟨h1, Nat.lt_succ_of_lt h2, fun t' ht' => ?_⟩
        rcases hr' t' p ht' with ⟨-, rfl⟩ | ⟨-, ht'⟩
        · exact lt_irrefl _ h2
        · exact h3 t' ht'
      · rintro ⟨h1, h2, h3⟩
        have hne : q.head.index ≠ p := fun he => h3 t (update_some_iff.mpr (.inl ⟨rfl, he⟩))
        refine ⟨h1, by omega, fun t' ht' => ?_⟩
        have ht : t' ≠ t := by
          rintro rfl
          simp [hr] at ht'
        exact h3 t' (update_some_iff.mpr (.inr ⟨ht, ht'⟩))
    reads_shared := fun hne => (hnot hne).elim
    head_waits := by
      intro t' p hp hl
      rcases hr' t' p hp with ⟨-, rfl⟩ | ⟨-, hp⟩
      · rfl
      · exact absurd hl (not_isLast_of_reads h hv hp)
    head_shared := by
      intro _ _
      exact (lapOf_succ_of_isValue hv).trans (h.head_shared hx hv)
    head_exclusive := fun c hc => (hnot (by simp [hc])).elim
    capacity := fun cap hc => (itemsBetween_anti_left (Nat.le_succ _)).trans (h.capacity cap hc)
    cached_le := Nat.le_succ_of_le h.cached_le }

omit [DecidableEq Tid] in
theorem take_rely (h : Coherent cfg q vw g) (hx : cfg.exclusive = none)
    (hv : IsValue cfg.size q.head.index) :
    Rely cfg q g (setHead q (q.head.index + 1)) g vw t' :=
  { (Rely.refl : Rely cfg q g q g vw t') with
    head_le := Nat.le_succ _
    still := fun _ hp hl => absurd hl (not_isLast_of_reads h hv hp)
    exclusive := fun hc => by simp [hx] at hc }

end Take

section Finish

/-- Which positions are finished once a reader is through with its own. -/
theorem finish_iff (h : Coherent cfg q vw g) (hr : vw.reads t = some p) (p' : ℕ) :
    (g.finish p 1).finished p' ↔ IsValue cfg.size p' ∧ p' < q.head.index ∧
      ∀ t', (vw.setReads t none).reads t' ≠ some p' := by
  change g.finished p' ∨ p ≤ p' ∧ p' < p + 1 ↔ _
  constructor
  · rintro (hf | hpp)
    · obtain ⟨h1, h2, h3⟩ := (h.finished_iff p').mp hf
      exact ⟨h1, h2, fun t' ht' => h3 t' (update_none_iff.mp ht').2⟩
    · obtain rfl : p' = p := by omega
      refine ⟨(h.reads_spec t p' hr).1, (h.reads_spec t p' hr).2, fun t' ht' => ?_⟩
      obtain ⟨hne, ht'⟩ := update_none_iff.mp ht'
      exact hne (h.reads_inj t' t p' ht' hr)
  · rintro ⟨h1, h2, h3⟩
    by_cases hpp : p' = p
    · exact .inr (by omega)
    · refine .inl ((h.finished_iff p').mpr ⟨h1, h2, fun t' ht' => ?_⟩)
      have ht : t' ≠ t := by
        rintro rfl
        rw [hr, Option.some.injEq] at ht'
        exact hpp ht'.symm
      exact h3 t' (update_none_iff.mpr ⟨ht, ht'⟩)

omit [DecidableEq Tid] in
/-- A position that is being read is not finished. -/
theorem not_finished (h : Coherent cfg q vw g) (hr : vw.reads t = some p) : ¬g.finished p :=
  fun hf => ((h.finished_iff p).mp hf).2.2 t hr

omit [DecidableEq Tid] in
/-- A block that is being read still serves the lap of the position. -/
theorem start_of_reads (h : Coherent cfg q vw g) (hr : vw.reads t = some p) :
    q.start (g.chain (lapOf cfg.size p)) = some (lapOf cfg.size p * lap cfg.size) :=
  (h.slot p (h.published_of_lt (h.reads_spec t p hr).1 (h.reads_spec t p hr).2)
    (not_finished h hr)).2.1

/-- The reader of a slot that is not the last one marks it. -/
theorem markRead_coherent (h : Coherent cfg q vw g) (hx : cfg.exclusive = none)
    (hr : vw.reads t = some p) :
    Coherent cfg (q.setMark (g.chain (lapOf cfg.size p)) (offset cfg.size p) true)
      (vw.setReads t none) (g.finish p 1) := by
  have hstart := start_of_reads h hr
  have hr' : ∀ t' p', (vw.setReads t none).reads t' = some p' → vw.reads t' = some p' :=
    fun t' p' hp' => (update_none_iff.mp hp').2
  have hnot : cfg.exclusive ≠ none → False := fun hne => hne hx
  exact { h with
    reads_spec := fun t' p' hp' => h.reads_spec t' p' (hr' t' p' hp')
    reads_inj := fun t₁ t₂ p' h₁ h₂ => h.reads_inj t₁ t₂ p' (hr' t₁ p' h₁) (hr' t₂ p' h₂)
    finished_iff := fun p' => finish_iff h hr p'
    slot := fun p' hp' hf => h.slot p' hp' fun hf' => hf (.inl hf')
    marked := by
      intro b' p' hs hv hm
      rw [Queue.mark_setMark, update_update_apply] at hm
      split at hm
      · rename_i heq
        obtain ⟨rfl, ho⟩ := heq
        change q.start _ = _ at hs
        rw [hstart, Option.some.injEq] at hs
        refine .inr ?_
        rw [position_ext (mul_lap_injective hs).symm ho]
        omega
      · exact .inl (h.marked b' p' hs hv hm)
    reads_shared := fun hne => (hnot hne).elim
    unmarked := fun hne => (hnot hne).elim
    pooled := by
      intro b' hb'
      obtain ⟨h1, h2⟩ := h.pooled b' hb'
      refine ⟨h1, fun i hi => ?_⟩
      rw [Queue.mark_setMark, update_update_apply, if_neg ?_]
      · exact h2 i hi
      · rintro ⟨rfl, -⟩
        simp [h1] at hstart
    retired := by
      intro b' hb'
      obtain ⟨p', h1, h2, h3, h4⟩ := h.retired b' hb'
      exact ⟨p', h1, .inl h2, h3, h4⟩
    head_waits := fun t' p' hp' hl => h.head_waits t' p' (hr' t' p' hp') hl }

omit [DecidableEq Tid] in
theorem markRead_rely (h : Coherent cfg q vw g) (hr : vw.reads t = some p) :
    Rely cfg q g (q.setMark (g.chain (lapOf cfg.size p)) (offset cfg.size p) true)
      (g.finish p 1) vw t' :=
  { (Rely.refl : Rely cfg q g q g vw t') with
    finished := fun _ => .inl
    held := by
      intro b' _
      refine ⟨rfl, rfl, rfl, fun i => ?_⟩
      rw [Queue.mark_setMark, update_update_apply]
      split
      · rename_i heq
        obtain ⟨rfl, rfl⟩ := heq
        exact .inr ⟨rfl, p, (h.reads_spec t p hr).1, rfl, not_finished h hr, start_of_reads h hr⟩
      · exact .inl rfl }

/-- The consumer of a last slot moves the head over the sentinel. -/
theorem swapIndex_coherent (h : Coherent cfg q vw g) (hx : cfg.exclusive = none)
    (hr : vw.reads t = some p) (hl : IsLast cfg.size p) (hlap : g.headLap = lapOf cfg.size p + 1) :
    Coherent cfg (setHead q (p + 2)) (vw.setReads t none) (g.finish p 1) := by
  have hhead := h.head_waits t p hr hl
  have hsent := (isLast_iff.mp hl).2
  have hr' : ∀ t' p', (vw.setReads t none).reads t' = some p' →
      t' ≠ t ∧ vw.reads t' = some p' := fun t' p' => update_none_iff.mp
  have hnot : cfg.exclusive ≠ none → False := fun hne => hne hx
  have hval : ∀ p', IsValue cfg.size p' → (p' < p + 2 ↔ p' < q.head.index) := by
    intro p' hv
    have hne : p' ≠ p + 1 := by
      rintro rfl
      exact hsent hv
    omega
  exact { h with
    writes_spec := by
      intro t' p' hp'
      obtain ⟨h1, h2, h3⟩ := h.writes_spec t' p' hp'
      have hiff := hval p' h1
      refine ⟨h1, ?_, h3⟩
      change p + 2 ≤ p'
      omega
    reads_spec := by
      intro t' p' hp'
      obtain ⟨h1, h2⟩ := h.reads_spec t' p' (hr' t' p' hp').2
      exact ⟨h1, (hval p' h1).mpr h2⟩
    reads_inj := fun t₁ t₂ p' h₁ h₂ => h.reads_inj t₁ t₂ p' (hr' t₁ p' h₁).2 (hr' t₂ p' h₂).2
    taken_claimed := fun p' hv hlt => h.taken_claimed p' hv ((hval p' hv).mp hlt)
    finished_iff := by
      intro p'
      rw [finish_iff h hr]
      exact and_congr_right fun hv => and_congr_left fun _ => (hval p' hv).symm
    slot := fun p' hp' hf => h.slot p' hp' fun hf' => hf (.inl hf')
    marked := fun b' p' hs hv hm => .inl (h.marked b' p' hs hv hm)
    reads_shared := fun hne => (hnot hne).elim
    retired := by
      intro b' hb'
      obtain ⟨p', h1, h2, h3, h4⟩ := h.retired b' hb'
      exact ⟨p', h1, .inl h2, h3, h4⟩
    head_waits := by
      intro t' p' hp' hl'
      have he := h.head_waits t' p' (hr' t' p' hp').2 hl'
      obtain rfl : p' = p := by omega
      exact absurd (h.reads_inj t' t p' (hr' t' p' hp').2 hr) (hr' t' p' hp').1
    head_shared := fun _ _ => (lapOf_add_two_of_isLast hl).trans hlap.symm
    head_exclusive := fun c hc => (hnot (by simp [hc])).elim
    capacity := fun cap hc =>
      (itemsBetween_anti_left (by rw [hhead]; exact Nat.le_succ _)).trans (h.capacity cap hc)
    cached_le := h.cached_le.trans (by rw [hhead]; exact Nat.le_succ _) }

omit [DecidableEq Tid] in
/-- Only the consumer of the last slot moves a head that waits. -/
theorem still_of_ne (h : Coherent cfg q vw g) (hr : vw.reads t = some p)
    (hl : IsLast cfg.size p) (hne : t' ≠ t) {p' : ℕ} (hp' : vw.reads t' = some p') :
    ¬IsLast cfg.size p' := by
  intro hl'
  have h1 := h.head_waits t p hr hl
  have h2 := h.head_waits t' p' hp' hl'
  obtain rfl : p' = p := by omega
  exact hne (h.reads_inj t' t p' hp' hr)

omit [DecidableEq Tid] in
theorem swapIndex_rely (h : Coherent cfg q vw g) (hx : cfg.exclusive = none)
    (hr : vw.reads t = some p) (hl : IsLast cfg.size p) (hne : t' ≠ t) :
    Rely cfg q g (setHead q (p + 2)) (g.finish p 1) vw t' :=
  { (Rely.refl : Rely cfg q g q g vw t') with
    head_le := by
      rw [h.head_waits t p hr hl]
      exact Nat.le_succ _
    finished := fun _ => .inl
    still := fun _ hp' hl' => absurd hl' (still_of_ne h hr hl hne hp')
    exclusive := fun hc => by simp [hx] at hc }

end Finish

section Leave

/-- The head block is left by the thread that consumed its last slot, once all
its positions are published. -/
theorem leave_coherent (h : Coherent cfg q vw g) (crossing : Tid → Bool)
    (hh : vw.holds t = none) (hL : g.headLap + 1 < g.laps)
    (hpub : ∀ p, IsValue cfg.size p → lapOf cfg.size p = g.headLap → g.published p)
    (hs : cfg.exclusive = none → ¬IsValue cfg.size q.head.index)
    (hx : ∀ c, cfg.exclusive = some c → crossing c = true) :
    Coherent cfg (setHeadBlock q (g.chain (g.headLap + 1)))
      { vw.setHolds t (some (g.chain g.headLap)) with crossing := crossing } (g.leave t) := by
  have hplace := h.place_chain le_rfl h.headLap_lt
  exact { h with
    headLap_lt := hL
    head_block := rfl
    start_chain := fun L hL₁ => h.start_chain L (Nat.le_of_succ_le hL₁)
    next_chain := fun L hL₁ => h.next_chain L (Nat.le_of_succ_le hL₁)
    next_live := fun L b' hL₁ => h.next_live L b' (Nat.le_of_succ_le hL₁)
    prev_chain := fun L hL₁ => h.prev_chain L (Nat.le_of_succ_le hL₁)
    behind := by
      intro p hv hlt
      rcases Nat.lt_succ_iff_lt_or_eq.mp hlt with hlt | heq
      · exact h.behind p hv hlt
      · exact hpub p hv heq
    tagged := fun p hv hL₁ => h.tagged p hv (Nat.le_of_succ_le hL₁)
    pooled := fun b' hb' => h.pooled b' (Ghost.pooled_of_move hb' (by simp) (by simp)).2
    retired := by
      intro b' hb'
      obtain ⟨p, h1, h2, h3, h4⟩ := h.retired b' (Ghost.place_of_move hb' (by simp)).2
      exact ⟨p, h1, h2, Nat.lt_succ_of_lt h3, h4⟩
    spare_iff := class_other h.spare_iff (by simp [hplace]) (by simp)
    ready_iff := class_other h.ready_iff (by simp [hplace]) (by simp)
    retired_iff := class_other h.retired_iff (by simp [hplace]) (by simp)
    hand_iff := by
      intro t'
      refine class_enter (h.hand_iff t') (by simp [hplace]) fun b' => ?_
      rw [Place.hand.injEq]
      by_cases ht : t' = t
      · subst ht
        simp [Views.setHolds, hh, eq_comm]
      · simp [Views.setHolds, ht, Ne.symm ht]
    serving_iff := by
      refine class_leave h.serving_iff (fun b' => ?_) (by simp)
      constructor
      · rintro ⟨L, hL₁, hL₂, rfl⟩
        refine ⟨⟨L, Nat.le_of_succ_le hL₁, hL₂, rfl⟩, fun hc => ?_⟩
        have he := h.chain_inj (Nat.le_of_succ_le hL₁) hL₂ le_rfl h.headLap_lt hc
        exact absurd hL₁ (by rw [he]; exact Nat.not_succ_le_self _)
      · rintro ⟨⟨L, hL₁, hL₂, rfl⟩, hne⟩
        refine ⟨L, Nat.lt_of_le_of_ne hL₁ ?_, hL₂, rfl⟩
        rintro rfl
        exact hne rfl
    fresh_iff := class_other h.fresh_iff (by simp [hplace]) (by simp)
    head_shared := fun hc hv => absurd hv (hs hc)
    head_exclusive := fun c hc =>
      ⟨(h.head_exclusive c hc).1, fun hf => by simp [hx c hc] at hf⟩ }

omit [DecidableEq Tid] in
theorem leave_rely (h : ∀ p, vw.reads t' = some p → ¬IsLast cfg.size p)
    (hx : cfg.exclusive ≠ some t') (b : BlockId) :
    Rely cfg q g (setHeadBlock q b) (g.leave t) vw t' :=
  { (Rely.refl : Rely cfg q g q g vw t') with
    headLap_le := Nat.le_succ _
    still := fun p hp hl => absurd hl (h p hp)
    exclusive := fun hc => absurd hc hx }

/-- A block in the hands of a thread is given to the spare slot or the pool. -/
theorem release_coherent (h : Coherent cfg q vw g) (hb : vw.holds t = some b)
    {P : Place Tid} (hP : P = .spare ∨ P = .ready ∨ P = .retired)
    {spare : Option BlockId} {pool : BlockPool}
    (hspare : ∀ b', spare = some b' ↔ q.spare = some b' ∨ P = .spare ∧ b' = b)
    (hready : ∀ b', b' ∈ pool.ready ↔ b' ∈ q.pool.ready ∨ P = .ready ∧ b' = b)
    (hretired : ∀ b', b' ∈ pool.retired ↔ b' ∈ q.pool.retired ∨ P = .retired ∧ b' = b)
    (hn₁ : pool.ready.Nodup) (hn₂ : pool.retired.Nodup)
    (hblank : P ≠ .retired → Blank cfg q b)
    (hold : P = .retired → ∃ p, IsLast cfg.size p ∧ g.finished p ∧
      lapOf cfg.size p < g.headLap ∧ q.start b = some (lapOf cfg.size p * lap cfg.size)) :
    Coherent cfg { q with spare := spare, pool := pool } (vw.setHolds t none) (g.move b P) := by
  have hplace := (h.hand_iff t b).mp hb
  have hmove : ∀ b' Q, (g.move b P).place b' = Q → b' = b ∧ Q = P ∨ g.place b' = Q := by
    intro b' Q hb'
    by_cases hQ : Q = P
    · by_cases hbb : b' = b
      · exact .inl ⟨hbb, hQ⟩
      · rw [Ghost.move_place, Function.update_of_ne hbb] at hb'
        exact .inr hb'
    · exact .inr (Ghost.place_of_move hb' hQ).2
  exact { h with
    pooled := by
      rintro b' (hb' | hb')
      · rcases hmove b' _ hb' with ⟨rfl, rfl⟩ | hb'
        · exact hblank (by simp)
        · exact h.pooled b' (.inl hb')
      · rcases hmove b' _ hb' with ⟨rfl, rfl⟩ | hb'
        · exact hblank (by simp)
        · exact h.pooled b' (.inr hb')
    retired := by
      intro b' hb'
      rcases hmove b' _ hb' with ⟨rfl, rfl⟩ | hb'
      · exact hold rfl
      · exact h.retired b' hb'
    spare_iff := class_enter h.spare_iff (by simp [hplace]) hspare
    ready_iff := class_enter h.ready_iff (by simp [hplace]) hready
    ready_nodup := hn₁
    retired_iff := class_enter h.retired_iff (by simp [hplace]) hretired
    retired_nodup := hn₂
    hand_iff := by
      intro t'
      by_cases ht : t' = t
      · subst ht
        refine class_leave (h.hand_iff t') (fun b' => ?_) (by rcases hP with rfl | rfl | rfl <;> simp)
        simp only [Views.setHolds, Function.update_self, reduceCtorEq, hb, Option.some.injEq,
          false_iff, not_and, not_not]
        exact Eq.symm
      · refine fun b' => ?_
        simp only [Views.setHolds, Function.update_of_ne ht]
        exact class_other (h.hand_iff t') (by simp [hplace, Ne.symm ht])
          (by rcases hP with rfl | rfl | rfl <;> simp) b'
    serving_iff := class_other h.serving_iff (by simp [hplace])
      (by rcases hP with rfl | rfl | rfl <;> simp)
    fresh_iff := class_other h.fresh_iff (by simp [hplace])
      (by rcases hP with rfl | rfl | rfl <;> simp) }

/-- A pooled block is put into the empty spare slot. -/
theorem giveSpare_coherent (h : Coherent cfg q vw g) (hb : vw.holds t = some b)
    (hs : q.spare = none) (hblank : Blank cfg q b) :
    Coherent cfg { q with spare := some b } (vw.setHolds t none) (g.move b .spare) := by
  refine release_coherent h hb (.inl rfl) (fun b' => ?_) (fun b' => ?_) (fun b' => ?_)
    h.ready_nodup h.retired_nodup (fun _ => hblank) nofun
  · simp [hs, eq_comm]
  · simp
  · simp

/-- A pooled block is put on top of the ready stack. -/
theorem giveReady_coherent (h : Coherent cfg q vw g) (hb : vw.holds t = some b)
    (hblank : Blank cfg q b) :
    Coherent cfg { q with pool := { q.pool with ready := q.pool.ready ++ [b] } }
      (vw.setHolds t none) (g.move b .ready) := by
  refine release_coherent h hb (.inr (.inl rfl)) (fun b' => ?_) (fun b' => ?_) (fun b' => ?_)
    ?_ h.retired_nodup (fun _ => hblank) nofun
  · simp
  · simp
  · simp
  · have hnot : b ∉ q.pool.ready := by simp [h.ready_iff, (h.hand_iff t b).mp hb]
    exact h.ready_nodup.append (List.nodup_singleton b) (by simpa using hnot)

/-- A block with readers under way is put on top of the retired stack. -/
theorem giveRetired_coherent (h : Coherent cfg q vw g) (hb : vw.holds t = some b)
    (hold : ∃ p, IsLast cfg.size p ∧ g.finished p ∧ lapOf cfg.size p < g.headLap ∧
      q.start b = some (lapOf cfg.size p * lap cfg.size)) :
    Coherent cfg { q with pool := { q.pool with retired := q.pool.retired ++ [b] } }
      (vw.setHolds t none) (g.move b .retired) := by
  refine release_coherent h hb (.inr (.inr rfl)) (fun b' => ?_) (fun b' => ?_) (fun b' => ?_)
    h.ready_nodup ?_ (fun hne => absurd rfl hne) fun _ => hold
  · simp
  · simp
  · simp
  · have hnot : b ∉ q.pool.retired := by simp [h.retired_iff, (h.hand_iff t b).mp hb]
    exact h.retired_nodup.append (List.nodup_singleton b) (by simpa using hnot)

end Leave

section Advance

/-- The exclusive consumer advances the head over the `n` positions it has
read, and over the sentinel if they end the block. -/
theorem advance_coherent (h : Coherent cfg q vw g) (hx : cfg.exclusive = some t) {n step : ℕ}
    (hpub : ∀ p, q.head.index ≤ p → p < q.head.index + n → g.published p)
    (hstep : step = n ∨ step = n + 1 ∧ ¬IsValue cfg.size (q.head.index + n))
    (hv : IsValue cfg.size (q.head.index + step))
    (hlap : lapOf cfg.size (q.head.index + step) = g.headLap) :
    Coherent cfg (setHead q (q.head.index + step)) (vw.setCrossing t false)
      (g.finish q.head.index n) := by
  have hval : ∀ p, IsValue cfg.size p →
      (p < q.head.index + step ↔ p < q.head.index + n) := by
    intro p hp
    rcases hstep with rfl | ⟨rfl, hs⟩
    · rfl
    · have hne : p ≠ q.head.index + n := by
        rintro rfl
        exact hs hp
      omega
  have hreads : ∀ t' p, vw.reads t' ≠ some p := by
    simp [h.reads_shared (by simp [hx])]
  exact { h with
    writes_spec := by
      intro t' p hp
      obtain ⟨h1, h2, h3⟩ := h.writes_spec t' p hp
      refine ⟨h1, Nat.le_of_not_lt fun hlt => ?_, h3⟩
      exact h.not_published hp (hpub p h2 ((hval p h1).mp hlt))
    reads_spec := fun t' p hp => absurd hp (hreads t' p)
    taken_claimed := by
      intro p hp hlt
      rcases Nat.lt_or_ge p q.head.index with hlt' | hge
      · exact h.taken_claimed p hp hlt'
      · exact ((h.published_iff p).mp (hpub p hge ((hval p hp).mp hlt))).2.1
    finished_iff := by
      intro p
      change g.finished p ∨ q.head.index ≤ p ∧ p < q.head.index + n ↔
        _ ∧ p < q.head.index + step ∧ _
      rw [h.finished_iff]
      constructor
      · rintro (⟨h1, h2, h3⟩ | ⟨h1, h2⟩)
        · exact ⟨h1, Nat.lt_add_right _ h2, h3⟩
        · have hp := ((h.published_iff p).mp (hpub p h1 h2)).1
          exact ⟨hp, (hval p hp).mpr h2, fun t' => hreads t' p⟩
      · rintro ⟨h1, h2, h3⟩
        rcases Nat.lt_or_ge p q.head.index with hlt | hge
        · exact .inl ⟨h1, hlt, h3⟩
        · exact .inr ⟨hge, (hval p h1).mp h2⟩
    slot := fun p hp hf => h.slot p hp fun hf' => hf (.inl hf')
    marked := fun b' p hs hp hm => .inl (h.marked b' p hs hp hm)
    retired := by
      intro b' hb'
      obtain ⟨p, h1, h2, h3, h4⟩ := h.retired b' hb'
      exact ⟨p, h1, .inl h2, h3, h4⟩
    head_waits := fun t' p hp => absurd hp (hreads t' p)
    head_shared := fun hc => by simp [hx] at hc
    head_exclusive := fun c _ => ⟨hv, fun _ => hlap⟩
    capacity := fun cap hc =>
      (itemsBetween_anti_left (Nat.le_add_right _ _)).trans (h.capacity cap hc)
    cached_le := h.cached_le.trans (Nat.le_add_right _ _) }

omit [DecidableEq Tid] in
theorem advance_rely (h : Coherent cfg q vw g) (hx : cfg.exclusive = some t) (hne : t' ≠ t)
    (n step : ℕ) :
    Rely cfg q g (setHead q (q.head.index + step)) (g.finish q.head.index n) vw t' :=
  { (Rely.refl : Rely cfg q g q g vw t') with
    head_le := Nat.le_add_right _ _
    finished := fun _ => .inl
    still := fun p hp => by simp [h.reads_shared (by simp [hx])] at hp
    exclusive := fun hc => absurd (Option.some.inj (hc.symm.trans hx)) hne }

end Advance

end Rapidfire.QueueConsume
