import Rapidfire.QueueMachine

/-!
# Operations running alone

A thread that runs alone makes progress when a measure of its program point
decreases with every access. A push does, once the block for its position has
been stored in `tail.block`, and never does while a block for an earlier lap
stays there.
-/

namespace Rapidfire.QueueProgress

open Positions QueueMemory QueuePush QueueMachine Runs

variable {Tid V : Type}

/-- Schedule of a thread running alone: no compare-exchange fails spuriously,
and the sampled waiter counter has the given values. -/
def alone (t : Tid) (flags : List ℕ) : List (Tid × Choice V) :=
  flags.map fun flag => (t, .run flag false)

theorem alone_succ (t : Tid) (flags : ℕ → ℕ) (n : ℕ) :
    alone (V := V) t ((List.range (n + 1)).map flags) =
      (t, .run (flags 0) false) :: alone t ((List.range n).map fun i => flags (i + 1)) := by
  rw [List.range_succ_eq_map, List.map_cons, List.map_map]
  rfl

/-- First value position from a position on. -/
def nextValue (z : BlockSize) (p : ℕ) : ℕ := if offset z p = blockCap z then p + 1 else p

theorem nextValue_of_isValue {z : BlockSize} {p : ℕ} (h : IsValue z p) : nextValue z p = p :=
  if_neg h

theorem nextValue_of_not_isValue {z : BlockSize} {p : ℕ} (h : ¬IsValue z p) :
    nextValue z p = p + 1 :=
  if_pos (Decidable.not_not.mp h)

/-- The sentinel before a value position leads to it. -/
theorem nextValue_succ {z : BlockSize} {p : ℕ} (h : ¬IsValue z p) :
    nextValue z (p + 1) = nextValue z p := by
  rw [nextValue_of_not_isValue h, nextValue_of_isValue (isValue_succ_of_not_isValue h)]

/-- `tail.block` serves the lap of the position. -/
def TailServes (z : BlockSize) (q : Queue V) (p : ℕ) : Prop :=
  q.start q.tail.block = some (lapStart z p)

/-- A push that has not claimed yet is going to claim `p`. -/
def Heading (z : BlockSize) (q : Queue V) (p : ℕ) : Prop :=
  nextValue z q.tail.index = p ∧ TailServes z q p

/-- There is room for one more value. -/
def HasRoom (z : BlockSize) (q : Queue V) (cap : ℕ) : Prop :=
  itemsBetween z q.head.index q.tail.index < cap

/-- What a push running alone knows, bound for position `p`. -/
def PushAlone (z : BlockSize) (q : Queue V) (p : ℕ) : PushPc V → Prop
  | .loadContended _ | .fetchAddLoad _ | .casLoad _ => Heading z q p
  | .fetchAdd _ expected => Heading z q p ∧ expected = q.tail.index
  | .casTry _ tail _ => Heading z q p ∧ tail = q.tail.index
  | .boundedLoad _ cap => Heading z q p ∧ HasRoom z q cap
  | .boundedSkip _ cap tail =>
    Heading z q p ∧ HasRoom z q cap ∧ tail = q.tail.index ∧ ¬IsValue z tail
  | .boundedCached _ cap tail | .boundedHead _ cap tail | .boundedCache _ cap tail _
  | .boundedTry _ cap tail =>
    Heading z q p ∧ HasRoom z q cap ∧ tail = q.tail.index ∧ IsValue z tail
  | .casLevel _ tail _ | .casContend _ tail _ | .sample _ tail => tail = p ∧ TailServes z q p
  | .findBlock c => c.tail = p ∧ TailServes z q p
  | .findStart c block => c.tail = p ∧ TailServes z q p ∧ block = q.tail.block
  | .takeSpare c _ | .takePool c _ | .resetMark c _ _ _ | .resetStart c _ _ | .allocate c _
  | .storePrev c _ _ | .storeNext c _ _ | .storeStart c _ _ | .linkNext c _ _
  | .storeTail c _ _ | .writeValue c _ | .publish c _ => c.tail = p
  | .fetchAddContend _ _ | .slowBlock _ | .slowStart _ _ | .slowPrev _ _ => False

/-- Accesses a push running alone still needs, at most. -/
def pushMeasure (z : BlockSize) (q : Queue V) : PushPc V → ℕ
  | .publish _ _ => 0
  | .writeValue _ _ => 1
  | .storeTail _ _ _ => 2
  | .linkNext _ _ _ => 3
  | .storeStart _ _ _ => 4
  | .storeNext _ _ _ => 5
  | .storePrev _ _ _ => 6
  | .allocate _ _ | .resetStart _ _ _ => 7
  | .resetMark _ _ _ i => 8 + (blockCap z - i)
  | .takePool _ _ => 9 + blockCap z
  | .takeSpare _ _ => 10 + blockCap z
  | .findStart _ _ | .slowStart _ _ | .slowPrev _ _ => 11 + blockCap z
  | .findBlock _ | .slowBlock _ => 12 + blockCap z
  | .sample _ _ => 13 + blockCap z
  | .casContend _ _ _ | .boundedTry _ _ _ => 14 + blockCap z
  | .casLevel _ _ _ | .boundedCache _ _ _ _ => 15 + blockCap z
  | .casTry _ tail _ => if IsValue z tail then 16 + blockCap z else 17 + blockCap z
  | .casLoad _ => 18 + blockCap z
  | .fetchAdd _ _ => if IsValue z q.tail.index then 16 + blockCap z else 18 + blockCap z
  | .fetchAddLoad _ | .fetchAddContend _ _ =>
    if IsValue z q.tail.index then 17 + blockCap z else 19 + blockCap z
  | .loadContended _ => 20 + blockCap z
  | .boundedHead _ _ _ => 16 + blockCap z
  | .boundedCached _ _ _ => 17 + blockCap z
  | .boundedSkip _ _ _ => 18 + blockCap z
  | .boundedLoad _ _ => 19 + blockCap z

section Push

variable {z : BlockSize} {q : Queue V} {p flag : ℕ}

/-- What one access of a push running alone leads to. -/
def Advances (z : BlockSize) (p : ℕ) (n : ℕ) (o : Outcome V (PushPc V) (PushRet V)) : Prop :=
  (∃ wake, o.2.1 = .ret (.pushed p wake)) ∨
    ∃ pc', o.2.1 = .goto pc' ∧ PushAlone z o.1 p pc' ∧ pushMeasure z o.1 pc' < n

theorem Heading.tail_eq {tail : ℕ} (h : Heading z q p) (ht : tail = q.tail.index)
    (hv : IsValue z tail) : tail = p := by
  subst ht
  rw [← h.1, nextValue_of_isValue hv]

/-- Skipping the sentinel leaves the push heading for the same position. -/
theorem Heading.skip (h : Heading z q p) (hv : ¬IsValue z q.tail.index) :
    Heading z { q with tail := { q.tail with index := q.tail.index + 1 } } p :=
  ⟨(nextValue_succ hv).trans h.1, h.2⟩

/-- The sentinel takes no room. -/
theorem HasRoom.skip {cap : ℕ} (h : HasRoom z q cap) (hv : ¬IsValue z q.tail.index) :
    HasRoom z { q with tail := { q.tail with index := q.tail.index + 1 } } cap := by
  rcases Nat.lt_or_ge q.tail.index q.head.index with hlt | hge
  · change itemsBetween z q.head.index (q.tail.index + 1) < cap
    rw [itemsBetween_of_le hlt]
    exact Nat.zero_lt_of_lt h
  · change itemsBetween z q.head.index (q.tail.index + 1) < cap
    rw [itemsBetween_succ_right hge, if_neg hv]
    exact h

theorem boundedLoop_alone {v : V} {cap n : ℕ} (h : Heading z q p) (hr : HasRoom z q cap)
    (hn : 18 + blockCap z < n) :
    PushAlone z q p (boundedLoop z v cap q.tail.index) ∧
      pushMeasure z q (boundedLoop z v cap q.tail.index) < n := by
  rw [boundedLoop]
  split
  · rename_i ho
    exact ⟨⟨h, hr, rfl, fun hv => hv ho⟩, hn⟩
  · rename_i ho
    exact ⟨⟨h, hr, rfl, ho⟩, by simp only [pushMeasure]; omega⟩

theorem found_alone (c : Claim V) (block : BlockId) (hp : c.tail = p) :
    PushAlone z q p (found z c block) ∧ pushMeasure z q (found z c block) < 11 + blockCap z := by
  rw [found]
  split
  · exact ⟨hp, by simp only [pushMeasure]; omega⟩
  · exact ⟨hp, by simp only [pushMeasure]; omega⟩

/-- An access of a push running alone returns or makes progress. -/
theorem push_advances {pc : PushPc V} (h : PushAlone z q p pc) :
    Advances z p (pushMeasure z q pc) (pc.exec z flag false q) := by
  cases pc with
  | loadContended v =>
    refine .inr ⟨_, rfl, ?_⟩
    split <;> refine ⟨h, ?_⟩ <;> simp only [pushMeasure] <;> (try split) <;> omega
  | fetchAddLoad v =>
    refine .inr ⟨_, rfl, ⟨h, rfl⟩, ?_⟩
    change (if IsValue z q.tail.index then 16 + blockCap z else 18 + blockCap z) <
      if IsValue z q.tail.index then 17 + blockCap z else 19 + blockCap z
    by_cases hv : IsValue z q.tail.index
    · rw [if_pos hv, if_pos hv]
      omega
    · rw [if_neg hv, if_neg hv]
      omega
  | fetchAdd v expected =>
    obtain ⟨hh, rfl⟩ := h
    simp only [PushPc.exec, ne_eq, not_true_eq_false, if_false]
    by_cases hv : IsValue z q.tail.index
    · rw [if_neg hv]
      refine .inr ⟨_, rfl, ⟨hh.tail_eq rfl hv, hh.2⟩, ?_⟩
      simp only [pushMeasure, if_pos hv]
      omega
    · rw [if_pos (Decidable.not_not.mp hv)]
      refine .inr ⟨_, rfl, hh.skip hv, ?_⟩
      simp only [pushMeasure, if_neg hv, if_pos (isValue_succ_of_not_isValue hv)]
      omega
  | casLoad v =>
    refine .inr ⟨_, rfl, ⟨h, rfl⟩, ?_⟩
    simp only [pushMeasure]
    split <;> omega
  | casTry v tail failed =>
    obtain ⟨hh, rfl⟩ := h
    simp only [PushPc.exec, and_self, if_true]
    by_cases hv : IsValue z q.tail.index
    · rw [if_neg hv]
      refine .inr ⟨_, rfl, ⟨hh.tail_eq rfl hv, hh.2⟩, ?_⟩
      simp only [pushMeasure, if_pos hv]
      omega
    · rw [if_pos (Decidable.not_not.mp hv)]
      refine .inr ⟨_, rfl, ⟨hh.skip hv, rfl⟩, ?_⟩
      simp only [pushMeasure, if_neg hv, if_pos (isValue_succ_of_not_isValue hv)]
      omega
  | casLevel v tail failed =>
    simp only [PushPc.exec]
    split
    · exact .inr ⟨_, rfl, h, by simp only [pushMeasure]; omega⟩
    · split
      · exact .inr ⟨_, rfl, h, by simp only [pushMeasure]; omega⟩
      · exact .inr ⟨_, rfl, h, by simp only [pushMeasure]; omega⟩
  | casContend v tail level => exact .inr ⟨_, rfl, h, by simp only [pushMeasure]; omega⟩
  | boundedLoad v cap =>
    exact .inr ⟨_, rfl, boundedLoop_alone h.1 h.2 (by simp only [pushMeasure]; omega)⟩
  | boundedSkip v cap tail =>
    obtain ⟨hh, hr, rfl, hv⟩ := h
    simp only [PushPc.exec, and_self, if_true]
    refine .inr ⟨_, rfl, ?_⟩
    have hv' := isValue_succ_of_not_isValue hv
    rw [boundedLoop, if_neg hv']
    exact ⟨⟨hh.skip hv, hr.skip hv, rfl, hv'⟩, by simp only [pushMeasure]; omega⟩
  | boundedCached v cap tail =>
    refine .inr ⟨_, rfl, ?_⟩
    split <;> exact ⟨h, by simp only [pushMeasure]; omega⟩
  | boundedHead v cap tail =>
    obtain ⟨hh, hr, rfl, hv⟩ := h
    simp only [PushPc.exec, if_neg (Nat.not_le.mpr hr)]
    exact .inr ⟨_, rfl, ⟨hh, hr, rfl, hv⟩, by simp only [pushMeasure]; omega⟩
  | boundedCache v cap tail head => exact .inr ⟨_, rfl, h, by simp only [pushMeasure]; omega⟩
  | boundedTry v cap tail =>
    obtain ⟨hh, hr, rfl, hv⟩ := h
    simp only [PushPc.exec, and_self, if_true]
    exact .inr ⟨_, rfl, ⟨hh.tail_eq rfl hv, hh.2⟩, by simp only [pushMeasure]; omega⟩
  | sample v tail => exact .inr ⟨_, rfl, h, by simp only [pushMeasure]; omega⟩
  | findBlock c => exact .inr ⟨_, rfl, ⟨h.1, h.2, rfl⟩, by simp only [pushMeasure]; omega⟩
  | findStart c block =>
    obtain ⟨hp, hs, rfl⟩ := h
    have hs' : q.start q.tail.block = some (lapStart z c.tail) := by
      rw [hp]
      exact hs
    simp only [PushPc.exec, if_pos hs']
    exact .inr ⟨_, rfl, found_alone c _ hp⟩
  | takeSpare c block =>
    simp only [PushPc.exec]
    split <;> exact .inr ⟨_, rfl, h, by simp only [pushMeasure]; omega⟩
  | takePool c block =>
    simp only [PushPc.exec, takeBlockSlow]
    split <;> exact .inr ⟨_, rfl, h, by simp only [pushMeasure]; omega⟩
  | resetMark c block next i =>
    refine .inr ⟨_, rfl, ?_⟩
    split <;> refine ⟨h, ?_⟩ <;> simp only [pushMeasure] <;> omega
  | publish c block =>
    obtain rfl := h
    exact .inl ⟨c.wake, rfl⟩
  | fetchAddContend v tail | slowBlock c | slowStart c block | slowPrev c block => exact h.elim
  | resetStart c block next | allocate c block | storePrev c block next
  | storeNext c block next | storeStart c block next | linkNext c block next
  | storeTail c block next | writeValue c block =>
    exact .inr ⟨_, rfl, h, by simp only [pushMeasure]; omega⟩

end Push

section Alone

variable [DecidableEq Tid] {cfg : Config Tid} {t : Tid}

/-- A thread whose every access alone returns a good result or lowers a measure
returns one within that many accesses, whatever counters it samples. -/
theorem alone_returns (P : State Tid V → Prop) (μ : State Tid V → ℕ) (Q : Ret V → Prop)
    (step : ∀ s flag, P s → ∃ e next q', (s.pc t).exec cfg flag false s.queue = some (q', next, e) ∧
      ((∃ r, next = .ret r ∧ Q r) ∨ ∃ pc', next = .goto pc' ∧
        P ⟨q', Function.update s.pc t pc'⟩ ∧ μ ⟨q', Function.update s.pc t pc'⟩ < μ s))
    (s : State Tid V) (hs : P s) (flags : ℕ → ℕ) :
    ∃ n ≤ μ s, ∃ τ s' e r, s.runs cfg (alone t ((List.range (n + 1)).map flags)) =
      some (τ ++ [(t, .access e (some r))], s') ∧ Q r ∧ s'.pc t = .idle ∧
        ∀ u ≠ t, s'.pc u = s.pc u := by
  induction hm : μ s using Nat.strong_induction_on generalizing s flags with
  | h m ih =>
    obtain ⟨e, next, q', hexec, hnext⟩ := step s (flags 0) hs
    have hstep : ∀ n, s.runs cfg (alone t ((List.range (n + 1)).map flags)) =
        (State.runs cfg ⟨q', Function.update s.pc t (nextPc next)⟩
          (alone t ((List.range n).map fun i => flags (i + 1)))).map
            fun x => ((t, .access e (nextRet next)) :: x.1, x.2) := by
      intro n
      rw [alone_succ]
      refine State.runs_cons ?_ _
      rw [State.step, hexec]
    rcases hnext with ⟨r, rfl, hr⟩ | ⟨pc', rfl, hp, hlt⟩
    · refine ⟨0, Nat.zero_le _, [], _, e, r, hstep 0, hr, Function.update_self _ _ _, ?_⟩
      exact fun u hu => Function.update_of_ne hu _ _
    · obtain ⟨n, hn, τ, s', e', r, hruns, hr, hidle, hothers⟩ :=
        ih _ (hm ▸ hlt) _ hp (fun i => flags (i + 1)) rfl
      refine ⟨n + 1, by omega, (t, .access e none) :: τ, s', e', r, ?_, hr, hidle, fun u hu => ?_⟩
      · rw [hstep (n + 1)]
        change Option.map _ (State.runs cfg ⟨q', Function.update s.pc t pc'⟩ _) = _
        rw [hruns]
        rfl
      · exact (hothers u hu).trans (Function.update_of_ne hu _ _)

/-- The rule for a push that runs alone. -/
theorem push_step (cfg : Config Tid) (t : Tid) (p : ℕ) (s : State Tid V) (flag : ℕ)
    (h : ∃ pc, s.pc t = .push pc ∧ PushAlone cfg.size s.queue p pc) :
    ∃ e next q', (s.pc t).exec cfg flag false s.queue = some (q', next, e) ∧
      ((∃ r, next = .ret r ∧ ∃ wake, r = .push (.pushed p wake)) ∨ ∃ pc', next = .goto pc' ∧
        (∃ pc, Function.update s.pc t pc' t = .push pc ∧ PushAlone cfg.size q' p pc) ∧
        (match Function.update s.pc t pc' t with
          | .push pc => pushMeasure cfg.size q' pc
          | _ => 0) < match s.pc t with
          | .push pc => pushMeasure cfg.size s.queue pc
          | _ => 0) := by
  obtain ⟨pc, hpc, hpa⟩ := h
  refine ⟨_, _, _, by rw [hpc, Pc.exec], ?_⟩
  rcases push_advances hpa with ⟨wake, hret⟩ | ⟨pc', hgoto, hpa', hlt⟩
  · exact .inl ⟨_, by rw [hret]; rfl, wake, rfl⟩
  · refine .inr ⟨.push pc', by rw [hgoto]; rfl, ⟨pc', Function.update_self _ _ _, hpa'⟩, ?_⟩
    simpa [hpc] using hlt

/-- A push that runs alone on a queue with room, with the block for its position
in `tail.block`, returns `Ok` for the next value position. -/
theorem push_returns {s : State Tid V} {v : V} {p : ℕ}
    (hpc : s.pc t = .push (PushPc.entry cfg.capacity v)) (hp : Heading cfg.size s.queue p)
    (hroom : ∀ cap ∈ cfg.capacity, HasRoom cfg.size s.queue cap) (flags : ℕ → ℕ) :
    ∃ n ≤ 20 + blockCap cfg.size, ∃ τ s' e wake,
      s.runs cfg (alone t ((List.range (n + 1)).map flags)) =
        some (τ ++ [(t, .access e (some (.push (.pushed p wake))))], s') ∧
      s'.pc t = .idle ∧ ∀ u ≠ t, s'.pc u = s.pc u := by
  have hentry : PushAlone cfg.size s.queue p (PushPc.entry cfg.capacity v) := by
    cases hcap : cfg.capacity with
    | none => exact hp
    | some cap => exact ⟨hp, hroom cap hcap⟩
  have hmeasure : pushMeasure cfg.size s.queue (PushPc.entry cfg.capacity v) ≤
      20 + blockCap cfg.size := by
    cases cfg.capacity with
    | none => exact le_rfl
    | some cap => exact Nat.add_le_add_right (by omega) _
  obtain ⟨n, hn, τ, s', e, r, hruns, ⟨wake, rfl⟩, hidle, hothers⟩ :=
    alone_returns (fun s => ∃ pc, s.pc t = .push pc ∧ PushAlone cfg.size s.queue p pc)
      (fun s => match s.pc t with
        | .push pc => pushMeasure cfg.size s.queue pc
        | _ => 0)
      (fun r => ∃ wake, r = .push (.pushed p wake)) (push_step cfg t p) s ⟨_, hpc, hentry⟩ flags
  simp only [hpc] at hn
  exact ⟨n, hn.trans hmeasure, τ, s', e, wake, hruns, hidle, hothers⟩

end Alone

section Stranded

variable [DecidableEq Tid] {cfg : Config Tid} {t : Tid}

/-- A push that walks from `tail.block` while a block for an earlier lap is
stored there. -/
def Stranded (z : BlockSize) (s : State Tid V) (t : Tid) : Prop :=
  ∃ c S, s.queue.start s.queue.tail.block = some S ∧ S < lapStart z c.tail ∧
    (s.pc t = .push (.slowBlock c) ∨ s.pc t = .push (.slowStart c s.queue.tail.block))

/-- Position for which a push is about to walk from `tail.block`. -/
def walksFor : Pc V → Option ℕ
  | .push (.slowBlock c) => some c.tail
  | _ => none

omit [DecidableEq Tid] in
theorem stranded_of_walksFor {s : State Tid V} {z : BlockSize} {p S : ℕ}
    (hw : walksFor (s.pc t) = some p) (hs : s.queue.start s.queue.tail.block = some S)
    (hlt : S < lapStart z p) : Stranded z s t := by
  cases hpc : s.pc t with
  | push pc =>
    rw [hpc] at hw
    cases pc with
    | slowBlock c =>
      obtain rfl := Option.some.inj hw
      exact ⟨c, S, hs, hlt, .inl hpc⟩
    | _ => cases hw
  | _ =>
    rw [hpc] at hw
    cases hw

/-- Alone, a stranded push never gets anywhere. -/
theorem stranded_step {s s' : State Tid V} {l : Tid × Label V} (h : Stranded cfg.size s t)
    (hs : Step cfg s l s') (hl : l.1 = t) : Stranded cfg.size s' t := by
  obtain ⟨u, l⟩ := l
  obtain rfl : u = t := hl
  obtain ⟨c, S, hstart, hlt, hpc | hpc⟩ := h
  · obtain ⟨flag, fail, -, rfl⟩ := step_of_push hs hpc
    exact ⟨c, S, hstart, hlt, .inr (Function.update_self _ _ _)⟩
  · obtain ⟨flag, fail, -, rfl⟩ := step_of_push hs hpc
    have hexec : (PushPc.slowStart c s.queue.tail.block).exec cfg.size flag fail s.queue =
        (s.queue, .goto (.slowBlock c), none) := by
      simp only [PushPc.exec, hstart, if_neg (Nat.ne_of_lt hlt), if_neg (Nat.not_lt_of_lt hlt)]
    rw [hexec]
    exact ⟨c, S, hstart, hlt, .inl (Function.update_self _ _ _)⟩

/-- However long a stranded push runs alone, it does not return. -/
theorem stranded_run {s s' : State Tid V} {τ : List (Tid × Label V)}
    (h : Stranded cfg.size s t)
    (hr : Run (fun s l s' => Step cfg s l s' ∧ l.1 = t) s τ s') : s'.pc t ≠ .idle := by
  have hs' : Stranded cfg.size s' t :=
    hr.stateInvariant (P := fun s => Stranded cfg.size s t) h fun _ _ _ hs hstep =>
      stranded_step hs hstep.1 hstep.2
  obtain ⟨c, S, -, -, hpc | hpc⟩ := hs' <;> rw [hpc] <;> nofun

end Stranded

end Rapidfire.QueueProgress
