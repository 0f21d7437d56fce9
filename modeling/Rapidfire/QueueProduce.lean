import Rapidfire.QueueRely

/-!
# Effects of producers

One theorem for every access of a push that changes memory: coherence is kept,
with views and record changed accordingly, and the other threads see no more
than they rely on.
-/

namespace Rapidfire.QueueProduce

open Positions QueueMemory QueuePush QueueMachine QueueCoherence QueueLocal QueueRely Updates

variable {Tid V : Type} [DecidableEq Tid] {cfg : Config Tid} {q : Queue V} {vw : Views Tid}
  {g : Ghost Tid V} {t t' : Tid}

section Claims

/-- Advance of the tail by one. -/
def advanceTail (q : Queue V) : Queue V :=
  { q with tail := { q.tail with index := q.tail.index + 1 } }

omit [DecidableEq Tid] in
/-- The head is not past a tail that stands on a value position. -/
theorem head_le_tail (h : Coherent cfg q vw g) (hv : IsValue cfg.size q.tail.index) :
    q.head.index ≤ q.tail.index :=
  Nat.le_of_not_lt fun hlt => absurd (h.taken_claimed _ hv hlt) (lt_irrefl _)

/-- The tail is claimed with its value, by a thread that has no claim. -/
theorem claim_coherent (h : Coherent cfg q vw g) (hv : IsValue cfg.size q.tail.index)
    (hw : vw.writes t = none)
    (hcap : ∀ cap, cfg.capacity = some cap →
      itemsBetween cfg.size q.head.index q.tail.index < cap) (v : V) :
    Coherent cfg (advanceTail q) (vw.setWrites t (some q.tail.index))
      (g.claim q.tail.index v) := by
  have hle := head_le_tail h hv
  have hold : ∀ t' p, vw.writes t' = some p → p ≠ q.tail.index := by
    intro t' p hp
    have := (h.writes_spec t' p hp).2.2
    omega
  exact { h with
    writes_spec := by
      intro t' p hp
      change _ ∧ _ ∧ p < q.tail.index + 1
      rcases update_some_iff.mp hp with ⟨-, rfl⟩ | ⟨-, hp⟩
      · exact ⟨hv, hle, by omega⟩
      · obtain ⟨h1, h2, h3⟩ := h.writes_spec t' p hp
        exact ⟨h1, h2, by omega⟩
    writes_inj := by
      intro t₁ t₂ p h₁ h₂
      rcases update_some_iff.mp h₁ with ⟨ht₁, hp₁⟩ | ⟨-, h₁⟩ <;>
        rcases update_some_iff.mp h₂ with ⟨ht₂, hp₂⟩ | ⟨-, h₂⟩
      · exact ht₁.trans ht₂.symm
      · exact absurd hp₁.symm (hold t₂ p h₂)
      · exact absurd hp₂.symm (hold t₁ p h₁)
      · exact h.writes_inj t₁ t₂ p h₁ h₂
    taken_claimed := fun p hp hlt => Nat.lt_succ_of_lt (h.taken_claimed p hp hlt)
    published_iff := by
      intro p
      change g.published p ↔ _ ∧ p < q.tail.index + 1 ∧ ∀ t', _
      rw [h.published_iff]
      constructor
      · rintro ⟨h1, h2, h3⟩
        refine ⟨h1, by omega, fun t' ht' => ?_⟩
        rcases update_some_iff.mp ht' with ⟨-, rfl⟩ | ⟨-, ht'⟩
        · exact lt_irrefl _ h2
        · exact h3 t' ht'
      · rintro ⟨h1, h2, h3⟩
        have hne : q.tail.index ≠ p := fun he => h3 t (update_some_iff.mpr (.inl ⟨rfl, he⟩))
        refine ⟨h1, by omega, fun t' ht' => ?_⟩
        have ht : t' ≠ t := by
          rintro rfl
          simp [hw] at ht'
        exact h3 t' (update_some_iff.mpr (.inr ⟨ht, ht'⟩))
    val_none := by
      intro p hp
      change q.tail.index + 1 ≤ p at hp
      change Function.update g.val _ _ p = none
      rw [Function.update_of_ne (by omega)]
      exact h.val_none p (by omega)
    next_chain := by
      intro L hL hL'
      rcases h.next_chain L hL hL' with hn | ⟨t', p, hp, hs, hl⟩
      · exact .inl hn
      · have ht : t' ≠ t := by
          rintro rfl
          simp [hw] at hp
        exact .inr ⟨t', p, update_some_iff.mpr (.inr ⟨ht, hp⟩), hs, hl⟩
    last_claimed := fun p hp hl => Nat.lt_succ_of_lt (h.last_claimed p hp hl)
    stage_before := by
      intro t' p hp hs hl
      rcases update_some_iff.mp hp with ⟨-, rfl⟩ | ⟨-, hp⟩
      · exact Nat.le_of_not_lt fun hlt => absurd (h.last_claimed _ hl hlt) (lt_irrefl _)
      · exact h.stage_before t' p hp hs hl
    slot := by
      intro p hp hf
      obtain ⟨h1, h2, h3, v', h4, h5⟩ := h.slot p hp hf
      have hlt := ((h.published_iff p).mp hp).2.1
      refine ⟨h1, h2, h3, v', ?_, h5⟩
      change Function.update g.val _ _ p = some v'
      rw [Function.update_of_ne (by omega)]
      exact h4
    capacity := by
      intro cap hc
      change itemsBetween cfg.size q.head.index (q.tail.index + 1) ≤ cap
      rw [itemsBetween_succ_right hle, if_pos hv]
      exact hcap cap hc }

omit [DecidableEq Tid] in
theorem claim_rely (h : Coherent cfg q vw g) (v : V) :
    Rely cfg q g (advanceTail q) (g.claim q.tail.index v) vw t' :=
  { Rely.refl with
    tail_le := Nat.le_succ _
    val := by
      intro p v' hp
      have hne : p ≠ q.tail.index := by
        rintro rfl
        simp [h.val_none _ le_rfl] at hp
      change Function.update g.val _ _ p = some v'
      rw [Function.update_of_ne hne]
      exact hp }

omit [DecidableEq Tid] in
/-- A sentinel at the tail is skipped on behalf of everyone. -/
theorem skip_coherent (h : Coherent cfg q vw g) (hv : ¬IsValue cfg.size q.tail.index) :
    Coherent cfg (advanceTail q) vw g :=
  { h with
    writes_spec := by
      intro t p hp
      obtain ⟨h1, h2, h3⟩ := h.writes_spec t p hp
      exact ⟨h1, h2, Nat.lt_succ_of_lt h3⟩
    taken_claimed := fun p hp hlt => Nat.lt_succ_of_lt (h.taken_claimed p hp hlt)
    published_iff := by
      intro p
      change _ ↔ _ ∧ p < q.tail.index + 1 ∧ _
      rw [h.published_iff]
      constructor
      · rintro ⟨h1, h2, h3⟩
        exact ⟨h1, by omega, h3⟩
      · rintro ⟨h1, h2, h3⟩
        have hne : p ≠ q.tail.index := by
          rintro rfl
          exact hv h1
        exact ⟨h1, by omega, h3⟩
    val_none := fun p hp => h.val_none p (Nat.le_of_succ_le hp)
    last_claimed := fun p hp hl => Nat.lt_succ_of_lt (h.last_claimed p hp hl)
    capacity := by
      intro cap hc
      change itemsBetween cfg.size q.head.index (q.tail.index + 1) ≤ cap
      rcases Nat.lt_or_ge q.tail.index q.head.index with hlt | hge
      · rw [itemsBetween_of_le hlt]
        exact Nat.zero_le _
      · rw [itemsBetween_succ_right hge, if_neg hv]
        exact h.capacity cap hc }

omit [DecidableEq Tid] in
theorem skip_rely : Rely cfg q g (advanceTail q) g vw t' :=
  { Rely.refl with tail_le := Nat.le_succ _ }

end Claims

section Blocks

variable {b : BlockId}

omit [DecidableEq Tid] in
/-- Stores to a block in the hands of a thread concern nobody else. -/
theorem held_rely {q' : Queue V} (h : Coherent cfg q vw g) (hb : vw.holds t = some b)
    (hne : t' ≠ t) (hhead : q'.head = q.head) (htail : q'.tail = q.tail)
    (hall : q'.allocated = q.allocated)
    (hstart : ∀ b' ≠ b, q'.start b' = q.start b') (hnext : ∀ b' ≠ b, q'.next b' = q.next b')
    (hprev : ∀ b' ≠ b, q'.prev b' = q.prev b') (hmark : ∀ b' ≠ b, q'.mark b' = q.mark b')
    (hvalue : q'.value = q.value) : Rely cfg q g q' g vw t' :=
  { (Rely.refl : Rely cfg q g q g vw t') with
    head_le := by rw [hhead]
    tail_le := by rw [htail]
    allocated_le := by rw [hall]
    held := by
      intro b' hb'
      have hbb := h.holds_ne hne hb hb'
      exact ⟨hstart b' hbb, hnext b' hbb, hprev b' hbb, fun i => .inl (by rw [hmark b' hbb])⟩
    slot := fun p _ _ => by rw [hvalue]
    still := fun p _ _ => ⟨by rw [hhead], rfl⟩
    exclusive := fun _ => ⟨hhead, rfl⟩ }

omit [DecidableEq Tid] in
/-- A read mark of a held block is cleared. -/
theorem resetMark_coherent (h : Coherent cfg q vw g) (b : BlockId) (i : ℕ) :
    Coherent cfg (q.setMark b i false) vw g := by
  have hm : ∀ b' i', (q.setMark b i false).mark b' i' = true → q.mark b' i' = true := by
    intro b' i' hb'
    rw [Queue.mark_setMark, update_update_apply] at hb'
    split at hb'
    · cases hb'
    · exact hb'
  have hf : ∀ b' i', q.mark b' i' = false → (q.setMark b i false).mark b' i' = false := by
    intro b' i' hb'
    cases hc : (q.setMark b i false).mark b' i' with
    | false => rfl
    | true => rw [hm b' i' hc] at hb'; cases hb'
  exact { h with
    marked := fun b' p hs hv hb' => h.marked b' p hs hv (hm _ _ hb')
    unmarked := fun hx b' i' => hf b' i' (h.unmarked hx b' i')
    pooled := fun b' hb' =>
      ⟨(h.pooled b' hb').1, fun i' hi' => hf b' i' ((h.pooled b' hb').2 i' hi')⟩ }

omit [DecidableEq Tid] in
/-- A drained block in the hands of a thread becomes a pooled one. -/
theorem resetStart_coherent (h : Coherent cfg q vw g) (hb : vw.holds t = some b)
    (hd : Drained cfg q g b) : Coherent cfg (q.setStart b none) vw g := by
  have hplace := (h.hand_iff t b).mp hb
  have hsub : ∀ b' S, (q.setStart b none).start b' = some S → b' ≠ b ∧ q.start b' = some S :=
    fun b' S hs => update_none_iff.mp hs
  have hkeep : ∀ b', b' ≠ b → (q.setStart b none).start b' = q.start b' :=
    fun b' hb' => Function.update_of_ne hb' _ _
  exact { h with
    start_chain := by
      intro L hL hL'
      rw [hkeep _ (h.chain_ne_holds hb hL hL')]
      exact h.start_chain L hL hL'
    chain_start := fun b' S hs => h.chain_start b' S (hsub b' S hs).2
    slot := by
      intro p hp hf
      obtain ⟨h1, h2, h3⟩ := h.slot p hp hf
      refine ⟨h1, ?_, h3⟩
      rw [hkeep _ ?_]
      · exact h2
      · rintro rfl
        obtain ⟨L, hL, hfin⟩ := hd
        rw [hL, Option.some.injEq] at h2
        exact hf (hfin p ((h.published_iff p).mp hp).1 (mul_lap_injective h2).symm)
    marked := fun b' p hs hv hm => h.marked b' p (hsub b' _ hs).2 hv hm
    pooled := by
      intro b' hb'
      have hne : b' ≠ b := by
        rintro rfl
        simp [hplace] at hb'
      refine ⟨?_, (h.pooled b' hb').2⟩
      rw [hkeep b' hne]
      exact (h.pooled b' hb').1
    retired := by
      intro b' hb'
      have hne : b' ≠ b := by
        rintro rfl
        simp [hplace] at hb'
      rw [hkeep b' hne]
      exact h.retired b' hb'
    untouched := by
      intro b' hb'
      have hne : b' ≠ b := by
        rintro rfl
        exact Nat.not_lt_of_le hb' (h.lt_allocated (by simp [hplace]))
      rw [hkeep b' hne]
      exact h.untouched b' hb' }

omit [DecidableEq Tid] in
/-- `prev` of a block outside the chain is set. -/
theorem storePrev_coherent (h : Coherent cfg q vw g) (hb : vw.holds t = some b)
    (n : Option BlockId) : Coherent cfg (q.setPrev b n) vw g :=
  { h with
    prev_chain := by
      intro L hL hL'
      rw [Queue.prev_setPrev, Function.update_of_ne (h.chain_ne_holds hb (by omega) hL')]
      exact h.prev_chain L hL hL' }

omit [DecidableEq Tid] in
/-- `next` of a block outside the chain is set. -/
theorem storeNext_coherent (h : Coherent cfg q vw g) (hb : vw.holds t = some b)
    (n : Option BlockId) : Coherent cfg (q.setNext b n) vw g :=
  { h with
    next_chain := by
      intro L hL hL'
      rw [Queue.next_setNext, Function.update_of_ne (h.chain_ne_holds hb hL (by omega))]
      exact h.next_chain L hL hL'
    next_live := by
      intro L b' hL hL' hn
      rw [Queue.next_setNext, Function.update_of_ne (h.chain_ne_holds hb hL (by omega))] at hn
      exact h.next_live L b' hL hL' hn
    next_last := by
      obtain ⟨hL, hL'⟩ := h.last_live
      rw [Queue.next_setNext, Function.update_of_ne (h.chain_ne_holds hb hL hL')]
      exact h.next_last }

/-- A block of the spare slot or the pool comes into the hands of a thread. -/
theorem acquire_coherent (h : Coherent cfg q vw g) (hh : vw.holds t = none)
    (hp : g.place b = .spare ∨ g.place b = .ready ∨ g.place b = .retired)
    {spare : Option BlockId} {pool : BlockPool}
    (hspare : ∀ b', spare = some b' ↔ q.spare = some b' ∧ b' ≠ b)
    (hready : ∀ b', b' ∈ pool.ready ↔ b' ∈ q.pool.ready ∧ b' ≠ b)
    (hretired : ∀ b', b' ∈ pool.retired ↔ b' ∈ q.pool.retired ∧ b' ≠ b)
    (hn₁ : pool.ready.Nodup) (hn₂ : pool.retired.Nodup) :
    Coherent cfg { q with spare := spare, pool := pool } (vw.setHolds t (some b))
      (g.move b (.hand t)) :=
  { h with
    pooled := fun b' hb' => h.pooled b' (Ghost.pooled_of_move hb' nofun nofun).2
    retired := fun b' hb' => h.retired b' (Ghost.place_of_move hb' nofun).2
    spare_iff := class_leave h.spare_iff hspare nofun
    ready_iff := class_leave h.ready_iff hready nofun
    ready_nodup := hn₁
    retired_iff := class_leave h.retired_iff hretired nofun
    retired_nodup := hn₂
    hand_iff := by
      intro t'
      refine class_enter (h.hand_iff t') ?_ fun b' => ?_
      · rcases hp with hp | hp | hp <;> simp [hp]
      · rw [Place.hand.injEq]
        by_cases ht : t' = t
        · subst ht
          simp [Views.setHolds, hh, eq_comm]
        · simp [Views.setHolds, ht, Ne.symm ht]
    serving_iff := class_other h.serving_iff (by rcases hp with hp | hp | hp <;> simp [hp]) nofun
    fresh_iff := class_other h.fresh_iff (by rcases hp with hp | hp | hp <;> simp [hp]) nofun }

omit [DecidableEq Tid] in
theorem acquire_rely {spare : Option BlockId} {pool : BlockPool} {P : Place Tid} :
    Rely cfg q g { q with spare := spare, pool := pool } (g.move b P) vw t' :=
  { (Rely.refl : Rely cfg q g q g vw t') with }

/-- The next address is allocated. -/
theorem alloc_coherent (h : Coherent cfg q vw g) (hh : vw.holds t = none) :
    Coherent cfg q.alloc (vw.setHolds t (some q.allocated))
      (g.move q.allocated (.hand t)) := by
  have hfresh : g.place q.allocated = .fresh := (h.fresh_iff _).mp le_rfl
  have hchain : ∀ L, g.headLap ≤ L → L < g.laps → g.chain L ≠ q.allocated :=
    fun L hL hL' => h.chain_ne (by simp [hfresh]) hL hL'
  have hsub : ∀ b' S, q.alloc.start b' = some S → b' ≠ q.allocated ∧ q.start b' = some S :=
    fun b' S hs => update_none_iff.mp hs
  have hkeep {α : Type} (f : BlockId → α) (x : α) {b' : BlockId} (hb' : b' ≠ q.allocated) :
      Function.update f q.allocated x b' = f b' := Function.update_of_ne hb' _ _
  have hused : ∀ b' S, q.start b' = some S → b' ≠ q.allocated := by
    rintro b' S hs rfl
    simp [h.untouched _ le_rfl] at hs
  exact { h with
    start_chain := fun L hL hL' => (hkeep _ _ (hchain L hL hL')).trans (h.start_chain L hL hL')
    chain_start := fun b' S hs => h.chain_start b' S (hsub b' S hs).2
    next_chain := fun L hL hL' => (h.next_chain L hL hL').imp
      (fun hn => (hkeep _ _ (hchain L hL (Nat.lt_of_succ_lt hL'))).trans hn) id
    next_live := fun L b' hL hL' hn => h.next_live L b' hL hL'
      ((hkeep _ _ (hchain L hL (Nat.lt_of_succ_lt hL'))).symm.trans hn)
    next_last := (hkeep _ _ (hchain _ h.last_live.1 h.last_live.2)).trans h.next_last
    prev_chain := fun L hL hL' =>
      (hkeep _ _ (hchain _ (Nat.le_succ_of_le hL) hL')).trans (h.prev_chain L hL hL')
    state_lt := by
      intro b' i
      change Function.update q.state q.allocated (fun _ => 0) b' i < _
      by_cases hb' : b' = q.allocated
      · subst hb'
        rw [Function.update_self, writtenTag_eq]
        exact Nat.succ_pos _
      · rw [hkeep _ _ hb']
        exact h.state_lt b' i
    slot := by
      intro p hp hf
      obtain ⟨h1, h2, h3, v, h4, h5⟩ := h.slot p hp hf
      have hne := hused _ _ h2
      exact ⟨h1, (hkeep _ _ hne).trans h2, (congrFun (hkeep _ _ hne) _).trans h3, v, h4,
        (congrFun (hkeep _ _ hne) _).trans h5⟩
    tagged := fun p hv hL hL' hs =>
      h.tagged p hv hL hL' ((congrFun (hkeep _ _ (hchain _ hL hL')) _).symm.trans hs)
    marked := fun b' p hs hv hm => h.marked b' p (hsub b' _ hs).2 hv
      ((congrFun (hkeep _ _ (hsub b' _ hs).1) _).symm.trans hm)
    unmarked := by
      intro hx b' i
      change Function.update q.mark q.allocated (fun _ => false) b' i = false
      by_cases hb' : b' = q.allocated
      · subst hb'
        rw [Function.update_self]
      · rw [hkeep _ _ hb']
        exact h.unmarked hx b' i
    pooled := by
      intro b' hb'
      obtain ⟨hne, hb'⟩ := Ghost.pooled_of_move hb' nofun nofun
      obtain ⟨h1, h2⟩ := h.pooled b' hb'
      exact ⟨(hkeep _ _ hne).trans h1, fun i hi => (congrFun (hkeep _ _ hne) _).trans (h2 i hi)⟩
    retired := by
      intro b' hb'
      obtain ⟨hne, hb'⟩ := Ghost.place_of_move hb' nofun
      obtain ⟨p, h1, h2, h3, h4⟩ := h.retired b' hb'
      exact ⟨p, h1, h2, h3, (hkeep _ _ hne).trans h4⟩
    spare_iff := class_other h.spare_iff (by simp [hfresh]) nofun
    ready_iff := class_other h.ready_iff (by simp [hfresh]) nofun
    retired_iff := class_other h.retired_iff (by simp [hfresh]) nofun
    hand_iff := by
      intro t'
      refine class_enter (h.hand_iff t') (by simp [hfresh]) fun b' => ?_
      rw [Place.hand.injEq]
      by_cases ht : t' = t
      · subst ht
        simp [Views.setHolds, hh, eq_comm]
      · simp [Views.setHolds, ht, Ne.symm ht]
    serving_iff := class_other h.serving_iff (by simp [hfresh]) nofun
    fresh_iff := by
      refine class_leave h.fresh_iff (fun b' => ?_) nofun
      change _ + 1 ≤ b' ↔ _
      rw [Nat.succ_le_iff, Nat.lt_iff_le_and_ne, ne_comm]
    untouched := by
      intro b' hb'
      have hne : b' ≠ q.allocated := Nat.ne_of_gt hb'
      exact (hkeep _ _ hne).trans (h.untouched b' (Nat.le_of_succ_le hb'))
    tail_block := Nat.lt_succ_of_lt h.tail_block }

omit [DecidableEq Tid] in
theorem alloc_rely (h : Coherent cfg q vw g) (P : Place Tid) :
    Rely cfg q g q.alloc (g.move q.allocated P) vw t' := by
  have hkeep {α : Type} (f : BlockId → α) (x : α) {b' : BlockId} (hb' : b' ≠ q.allocated) :
      Function.update f q.allocated x b' = f b' := Function.update_of_ne hb' _ _
  exact { (Rely.refl : Rely cfg q g q g vw t') with
    allocated_le := Nat.le_succ _
    held := by
      intro b' hb'
      have hne : b' ≠ q.allocated :=
        Nat.ne_of_lt (h.lt_allocated (by simp [(h.hand_iff t' b').mp hb']))
      exact ⟨hkeep _ _ hne, hkeep _ _ hne, hkeep _ _ hne,
        fun i => .inl (congrFun (hkeep _ _ hne) i)⟩
    slot := by
      intro p hp hL
      have hne := Nat.ne_of_lt (h.chain_lt_allocated (h.writes_live hp) hL)
      exact congrFun (hkeep _ _ hne) _ }

end Blocks

section Install

variable {b : BlockId} {p : ℕ}

omit [DecidableEq Tid] in
/-- Before its store to `start`, the producer of a last slot has found the
last block of the chain. -/
theorem laps_eq (h : Coherent cfg q vw g) (hw : vw.writes t = some p) (hs : vw.stage t = .before)
    (hl : IsLast cfg.size p) (hL : lapOf cfg.size p < g.laps) :
    lapOf cfg.size p + 1 = g.laps :=
  Nat.le_antisymm hL (h.stage_before t p hw hs hl)

/-- A blank block in the hands of the producer of a last slot becomes the
last block of the chain. -/
theorem storeStart_coherent (h : Coherent cfg q vw g) (hb : vw.holds t = some b)
    (hw : vw.writes t = some p) (hs : vw.stage t = .before) (hl : IsLast cfg.size p)
    (hlaps : lapOf cfg.size p + 1 = g.laps) (hblank : Blank cfg q b)
    (hprev : q.prev b = some (g.chain (lapOf cfg.size p))) (hnext : q.next b = none) :
    Coherent cfg (q.setStart b (some (g.laps * lap cfg.size)))
      ((vw.setHolds t none).setStage t .linking)
      (g.install b) := by
  have hplace := (h.hand_iff t b).mp hb
  have hkeep : ∀ b', b' ≠ b →
      (q.setStart b (some (g.laps * lap cfg.size))).start b' = q.start b' :=
    fun b' hb' => Function.update_of_ne hb' _ _
  have hused : ∀ b' S, q.start b' = some S → b' ≠ b := by
    rintro b' S hS rfl
    simp [hblank.1] at hS
  have hp := h.writes_spec t p hw
  exact { h with
    headLap_lt := Nat.lt_succ_of_lt h.headLap_lt
    head_block := h.head_block.trans (Ghost.install_chain_of_lt h.headLap_lt).symm
    start_chain := by
      intro L hL hL'
      rcases Nat.lt_succ_iff_lt_or_eq.mp hL' with hlt | rfl
      · rw [Ghost.install_chain_of_lt hlt, hkeep _ (h.chain_ne_holds hb hL hlt)]
        exact h.start_chain L hL hlt
      · rw [Ghost.install_chain_laps, Queue.start_setStart, Function.update_self]
    chain_start := by
      intro b' S hS
      rcases update_some_iff.mp hS with ⟨rfl, rfl⟩ | ⟨-, hS⟩
      · exact ⟨g.laps, Nat.lt_succ_self _, rfl, Ghost.install_chain_laps g _⟩
      · obtain ⟨L, hL, rfl, rfl⟩ := h.chain_start b' S hS
        exact ⟨L, Nat.lt_succ_of_lt hL, rfl, Ghost.install_chain_of_lt hL⟩
    next_chain := by
      intro L hL hL'
      rcases Nat.lt_succ_iff_lt_or_eq.mp hL' with hlt | heq
      · rw [Ghost.install_chain_of_lt (L := L) (by omega), Ghost.install_chain_of_lt hlt]
        refine (h.next_chain L hL hlt).imp id ?_
        rintro ⟨t', p', hw', hs', hl'⟩
        have ht : t' ≠ t := by
          rintro rfl
          simp [hs] at hs'
        exact ⟨t', p', hw', (Function.update_of_ne ht _ _).trans hs', hl'⟩
      · exact .inr ⟨t, p, hw, Function.update_self _ _ _, by omega⟩
    next_live := by
      intro L b' hL hL' hn
      rcases Nat.lt_succ_iff_lt_or_eq.mp hL' with hlt | heq
      · rw [Ghost.install_chain_of_lt (L := L) (by omega)] at hn
        rw [Ghost.install_chain_of_lt hlt]
        exact h.next_live L b' hL hlt hn
      · rw [Ghost.install_chain_of_lt (L := L) (by omega), show L = g.laps - 1 by omega] at hn
        exact absurd (h.next_last.symm.trans hn) nofun
    next_last := by
      change q.next ((g.install b).chain (g.laps + 1 - 1)) = none
      rw [Nat.add_sub_cancel, Ghost.install_chain_laps]
      exact hnext
    prev_chain := by
      intro L hL hL'
      rcases Nat.lt_succ_iff_lt_or_eq.mp hL' with hlt | heq
      · rw [Ghost.install_chain_of_lt (L := L) (by omega), Ghost.install_chain_of_lt hlt]
        exact h.prev_chain L hL hlt
      · rw [heq, Ghost.install_chain_laps, Ghost.install_chain_of_lt (L := L) (by omega), show L = lapOf cfg.size p by omega]
        exact hprev
    last_claimed := by
      intro p' hp' hL
      rcases Nat.lt_succ_iff_lt_or_eq.mp hL with hlt | heq
      · exact h.last_claimed p' hp' hlt
      · rw [hp'.ext hl (by omega)]
        exact hp.2.2
    last_published := fun p' hp' hl' => Nat.lt_succ_of_lt (h.last_published p' hp' hl')
    stage_before := by
      intro t' p' hw' hs' hl'
      have ht : t' ≠ t := by
        rintro rfl
        change Function.update vw.stage t' .linking t' = _ at hs'
        simp at hs'
      have hle := h.stage_before t' p' hw' ((Function.update_of_ne ht _ _).symm.trans hs') hl'
      refine Nat.succ_le_of_lt (Nat.lt_of_le_of_ne hle fun heq => ht ?_)
      obtain rfl := hl'.ext hl (by omega)
      exact h.writes_inj t' t p' hw' hw
    state_lt := fun b' i => (h.state_lt b' i).trans (writtenTag_lt.mpr (Nat.lt_succ_self _))
    slot := by
      intro p' hp' hf
      obtain ⟨h1, h2, h3⟩ := h.slot p' hp' hf
      refine ⟨Nat.lt_succ_of_lt h1, ?_⟩
      rw [Ghost.install_chain_of_lt h1, hkeep _ (hused _ _ h2)]
      exact ⟨h2, h3⟩
    tagged := by
      intro p' hv hL hL' hstate
      rcases Nat.lt_succ_iff_lt_or_eq.mp hL' with hlt | heq
      · rw [Ghost.install_chain_of_lt hlt] at hstate
        exact h.tagged p' hv hL hlt hstate
      · refine absurd hstate (Nat.ne_of_lt ?_)
        rw [heq]
        exact h.state_lt _ _
    marked := by
      intro b' p' hS hv hm
      rcases update_some_iff.mp hS with ⟨rfl, -⟩ | ⟨-, hS⟩
      · rw [show (q.setStart b' (some (g.laps * lap cfg.size))).mark = q.mark from rfl,
          hblank.2 _ (isValue_iff.mp hv)] at hm
        cases hm
      · exact h.marked b' p' hS hv hm
    pooled := by
      intro b' hb'
      obtain ⟨hne, hb'⟩ := Ghost.pooled_of_move hb' nofun nofun
      rw [hkeep b' hne]
      exact h.pooled b' hb'
    retired := by
      intro b' hb'
      obtain ⟨hne, hb'⟩ := Ghost.place_of_move hb' nofun
      rw [hkeep b' hne]
      exact h.retired b' hb'
    spare_iff := class_other h.spare_iff (by simp [hplace]) nofun
    ready_iff := class_other h.ready_iff (by simp [hplace]) nofun
    retired_iff := class_other h.retired_iff (by simp [hplace]) nofun
    hand_iff := by
      intro t'
      by_cases ht : t' = t
      · subst ht
        refine class_leave (h.hand_iff t') (fun b' => ?_) nofun
        simp only [Views.setStage, Views.setHolds, Function.update_self, reduceCtorEq, hb,
          Option.some.injEq, false_iff, not_and, not_not]
        exact Eq.symm
      · refine fun b' => ?_
        simp only [Views.setStage, Views.setHolds, Function.update_of_ne ht]
        exact class_other (h.hand_iff t') (by simp [hplace, Ne.symm ht]) (by simp) b'
    serving_iff := by
      refine class_enter h.serving_iff (by simp [hplace]) fun b' => ?_
      constructor
      · rintro ⟨L, hL, hL', rfl⟩
        rcases Nat.lt_succ_iff_lt_or_eq.mp hL' with hlt | rfl
        · exact .inl ⟨L, hL, hlt, (Ghost.install_chain_of_lt hlt).symm⟩
        · exact .inr ⟨rfl, Ghost.install_chain_laps g b⟩
      · rintro (⟨L, hL, hL', rfl⟩ | ⟨-, rfl⟩)
        · exact ⟨L, hL, Nat.lt_succ_of_lt hL', Ghost.install_chain_of_lt hL'⟩
        · exact ⟨g.laps, h.headLap_lt.le, Nat.lt_succ_self _, Ghost.install_chain_laps g _⟩
    fresh_iff := class_other h.fresh_iff (by simp [hplace]) nofun
    untouched := by
      intro b' hb'
      have hne : b' ≠ b := by
        rintro rfl
        exact Nat.not_lt_of_le hb' (h.lt_allocated (by simp [hplace]))
      rw [hkeep b' hne]
      exact h.untouched b' hb' }

omit [DecidableEq Tid] in
theorem storeStart_rely (h : Coherent cfg q vw g) (hb : vw.holds t = some b) (hne : t' ≠ t)
    (S : Option ℕ) : Rely cfg q g (q.setStart b S) (g.install b) vw t' :=
  { (Rely.refl : Rely cfg q g q g vw t') with
    laps_le := Nat.le_succ _
    chain := fun _ hL => Ghost.install_chain_of_lt hL
    held := fun _ hb' =>
      ⟨Function.update_of_ne (h.holds_ne hne hb hb') _ _, rfl, rfl, fun _ => .inl rfl⟩ }

/-- The new block is linked behind the block that was found. -/
theorem linkNext_coherent (h : Coherent cfg q vw g) (hw : vw.writes t = some p)
    (hL : lapOf cfg.size p + 1 < g.laps) :
    Coherent cfg (q.setNext (g.chain (lapOf cfg.size p)) (some (g.chain (lapOf cfg.size p + 1))))
      (vw.setStage t .after) g := by
  have hlive := h.writes_live hw
  exact { h with
    next_chain := by
      intro L hL₁ hL₂
      by_cases he : L = lapOf cfg.size p
      · subst he
        exact .inl (Function.update_self _ _ _)
      · have hne : g.chain L ≠ g.chain (lapOf cfg.size p) :=
          fun hc => he (h.chain_inj hL₁ (by omega) hlive (by omega) hc)
        rw [Queue.next_setNext, Function.update_of_ne hne]
        refine (h.next_chain L hL₁ hL₂).imp id ?_
        rintro ⟨t', p', hw', hs', hl'⟩
        have ht : t' ≠ t := by
          rintro rfl
          rw [hw, Option.some.injEq] at hw'
          exact he (by rw [← hl', hw'])
        exact ⟨t', p', hw', (Function.update_of_ne ht _ _).trans hs', hl'⟩
    next_live := by
      intro L b hL₁ hL₂ hn
      by_cases he : L = lapOf cfg.size p
      · subst he
        rw [Queue.next_setNext, Function.update_self, Option.some.injEq] at hn
        exact hn.symm
      · have hne : g.chain L ≠ g.chain (lapOf cfg.size p) :=
          fun hc => he (h.chain_inj hL₁ (by omega) hlive (by omega) hc)
        rw [Queue.next_setNext, Function.update_of_ne hne] at hn
        exact h.next_live L b hL₁ hL₂ hn
    next_last := by
      have hne : g.chain (g.laps - 1) ≠ g.chain (lapOf cfg.size p) := by
        intro hc
        have := h.chain_inj h.last_live.1 h.last_live.2 hlive (by omega) hc
        omega
      rw [Queue.next_setNext, Function.update_of_ne hne]
      exact h.next_last
    stage_before := by
      intro t' p' hw' hs' hl'
      have ht : t' ≠ t := by
        rintro rfl
        change Function.update vw.stage t' .after t' = _ at hs'
        simp at hs'
      exact h.stage_before t' p' hw' ((Function.update_of_ne ht _ _).symm.trans hs') hl' }

omit [DecidableEq Tid] in
theorem linkNext_rely (h : Coherent cfg q vw g) {L : ℕ} (hL : g.headLap ≤ L) (hL' : L < g.laps)
    (n : Option BlockId) : Rely cfg q g (q.setNext (g.chain L) n) g vw t' :=
  { (Rely.refl : Rely cfg q g q g vw t') with
    held := fun _ hb' => ⟨rfl, Function.update_of_ne (h.chain_ne_holds hb' hL hL').symm _ _, rfl,
      fun _ => .inl rfl⟩ }

omit [DecidableEq Tid] in
/-- `tail.block` is set to a block in use. -/
theorem storeTail_coherent (h : Coherent cfg q vw g) (hb : b < q.allocated) :
    Coherent cfg { q with tail := { q.tail with block := b } } vw g :=
  { h with tail_block := hb }

end Install

section Publish

variable {p : ℕ}

/-- A producer that has no block to install is past the installation. -/
theorem settle_coherent (h : Coherent cfg q vw g) (hs : vw.stage t = .before) :
    Coherent cfg q (vw.setStage t .after) g :=
  { h with
    next_chain := by
      intro L hL hL'
      refine (h.next_chain L hL hL').imp id ?_
      rintro ⟨t', p, hw, hst, hl⟩
      have ht : t' ≠ t := by
        rintro rfl
        simp [hs] at hst
      exact ⟨t', p, hw, (Function.update_of_ne ht _ _).trans hst, hl⟩
    stage_before := by
      intro t' p hw hst hl
      have ht : t' ≠ t := by
        rintro rfl
        change Function.update vw.stage t' .after t' = _ at hst
        simp at hst
      exact h.stage_before t' p hw ((Function.update_of_ne ht _ _).symm.trans hst) hl }

omit [DecidableEq Tid] in
/-- The slots of two live positions are different. -/
theorem slot_ne {p p' : ℕ} (hne : p' ≠ p)
    (hs : q.start (g.chain (lapOf cfg.size p)) = some (lapOf cfg.size p * lap cfg.size))
    (hs' : q.start (g.chain (lapOf cfg.size p')) = some (lapOf cfg.size p' * lap cfg.size)) :
    ¬(g.chain (lapOf cfg.size p') = g.chain (lapOf cfg.size p) ∧
      offset cfg.size p' = offset cfg.size p) := by
  rintro ⟨hc, ho⟩
  rw [hc, hs, Option.some.injEq] at hs'
  exact hne (position_ext (mul_lap_injective hs').symm ho)

omit [DecidableEq Tid] in
/-- A producer writes its value into the slot of its position. -/
theorem writeValue_coherent (h : Coherent cfg q vw g) (hw : vw.writes t = some p)
    (hL : lapOf cfg.size p < g.laps) (v : V) :
    Coherent cfg (q.setValue (g.chain (lapOf cfg.size p)) (offset cfg.size p) v) vw g :=
  { h with
    slot := by
      intro p' hp' hf
      obtain ⟨h1, h2, h3, v', h4, h5⟩ := h.slot p' hp' hf
      have hne : p' ≠ p := by
        rintro rfl
        exact h.not_published hw hp'
      refine ⟨h1, h2, h3, v', h4, ?_⟩
      rw [Queue.value_setValue, update_update_apply,
        if_neg (slot_ne hne (h.start_chain _ (h.writes_live hw) hL) h2)]
      exact h5 }

omit [DecidableEq Tid] in
theorem writeValue_rely (h : Coherent cfg q vw g) (hw : vw.writes t = some p)
    (hL : lapOf cfg.size p < g.laps) (hne : t' ≠ t) (v : V) :
    Rely cfg q g (q.setValue (g.chain (lapOf cfg.size p)) (offset cfg.size p) v) g vw t' :=
  { (Rely.refl : Rely cfg q g q g vw t') with
    slot := by
      intro p' hw' hL'
      have hpp : p' ≠ p := by
        rintro rfl
        exact hne (h.writes_inj t' t p' hw' hw)
      rw [Queue.value_setValue, update_update_apply,
        if_neg (slot_ne hpp (h.start_chain _ (h.writes_live hw) hL)
          (h.start_chain _ (h.writes_live hw') hL'))] }

/-- A written slot is published. -/
theorem publish_coherent (h : Coherent cfg q vw g) (hw : vw.writes t = some p)
    (hs : vw.stage t ≠ .linking) (hL : lapOf cfg.size p < g.laps)
    (hlast : IsLast cfg.size p → lapOf cfg.size p + 1 < g.laps) {v : V} (hval : g.val p = some v)
    (hv : q.value (g.chain (lapOf cfg.size p)) (offset cfg.size p) = some v) :
    Coherent cfg
      (q.setState (g.chain (lapOf cfg.size p)) (offset cfg.size p)
        (writtenTag (lapOf cfg.size p)))
      ((vw.setWrites t none).setStage t .before)
      (g.publish p) := by
  have hspec := h.writes_spec t p hw
  have hstart := h.start_chain _ (h.writes_live hw) hL
  have hw' : ∀ t' p', ((vw.setWrites t none).setStage t .before).writes t' = some p' →
      t' ≠ t ∧ vw.writes t' = some p' := fun t' p' hp' => update_none_iff.mp hp'
  have hs' : ∀ t', t' ≠ t → ((vw.setWrites t none).setStage t .before).stage t' = vw.stage t' :=
    fun t' ht => Function.update_of_ne ht _ _
  exact { h with
    writes_spec := fun t' p' hp' => h.writes_spec t' p' (hw' t' p' hp').2
    writes_inj := fun t₁ t₂ p' h₁ h₂ =>
      h.writes_inj t₁ t₂ p' (hw' t₁ p' h₁).2 (hw' t₂ p' h₂).2
    published_iff := by
      intro p'
      change g.published p' ∨ p' = p ↔ _
      constructor
      · rintro (hp' | rfl)
        · obtain ⟨h1, h2, h3⟩ := (h.published_iff p').mp hp'
          exact ⟨h1, h2, fun t' ht' => h3 t' (hw' t' p' ht').2⟩
        · refine ⟨hspec.1, hspec.2.2, fun t' ht' => ?_⟩
          obtain ⟨hne, ht'⟩ := hw' t' _ ht'
          exact hne (h.writes_inj t' t _ ht' hw)
      · rintro ⟨h1, h2, h3⟩
        by_cases hpp : p' = p
        · exact .inr hpp
        · refine .inl ((h.published_iff p').mpr ⟨h1, h2, fun t' ht' => ?_⟩)
          have ht : t' ≠ t := by
            rintro rfl
            rw [hw, Option.some.injEq] at ht'
            exact hpp ht'.symm
          exact h3 t' (update_none_iff.mpr ⟨ht, ht'⟩)
    next_chain := by
      intro L hL₁ hL₂
      refine (h.next_chain L hL₁ hL₂).imp id ?_
      rintro ⟨t', p', h1, h2, h3⟩
      have ht : t' ≠ t := by
        rintro rfl
        exact hs h2
      exact ⟨t', p', update_none_iff.mpr ⟨ht, h1⟩, (hs' t' ht).trans h2, h3⟩
    behind := fun p' hv' hL' => .inl (h.behind p' hv' hL')
    last_published := by
      rintro p' (hp' | rfl) hl
      · exact h.last_published p' hp' hl
      · exact hlast hl
    stage_before := by
      intro t' p' hp' hst hl
      obtain ⟨ht, hp'⟩ := hw' t' p' hp'
      exact h.stage_before t' p' hp' ((hs' t' ht).symm.trans hst) hl
    state_lt := by
      intro b i
      rw [Queue.state_setState, update_update_apply]
      split
      · exact writtenTag_lt.mpr hL
      · exact h.state_lt b i
    slot := by
      rintro p' (hp' | rfl) hf
      · obtain ⟨h1, h2, h3, h4⟩ := h.slot p' hp' hf
        have hne : p' ≠ p := by
          rintro rfl
          exact h.not_published hw hp'
        exact ⟨h1, h2, (update_update_apply.trans (if_neg (slot_ne hne hstart h2))).trans h3, h4⟩
      · exact ⟨hL, hstart, update_update_apply.trans (if_pos ⟨rfl, rfl⟩), v, hval, hv⟩
    tagged := by
      intro p' hv' hL₁ hL₂ hstate
      by_cases hpp : p' = p
      · exact .inr hpp
      · have hne := slot_ne hpp hstart (h.start_chain _ hL₁ hL₂)
        exact .inl (h.tagged p' hv' hL₁ hL₂
          ((update_update_apply.trans (if_neg hne)).symm.trans hstate)) }

omit [DecidableEq Tid] in
theorem publish_rely (b : BlockId) (i s : ℕ) :
    Rely cfg q g (q.setState b i s) (g.publish p) vw t' :=
  { (Rely.refl : Rely cfg q g q g vw t') with published := fun _ => .inl }

end Publish

end Rapidfire.QueueProduce
