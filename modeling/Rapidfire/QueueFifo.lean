import Rapidfire.QueueAlone

/-!
# The queue as a list

A list with one operation at a time says what the queue is for: a push appends
its value or is refused at the capacity, a receive removes the first values, and
nothing else changes the list. Every run of the queue whose operations do not
overlap is a run of the list, over the same calls and results.
-/

namespace Rapidfire.QueueFifo

open Positions QueueMemory QueuePush QueuePop QueueSingle QueueMachine QueueCoherence QueueLocal
  QueueInvariant QueueHistory QueueRest QueueAlone QueueHighWater Runs

variable {Tid V : Type} {cfg : Config Tid} {s s' : State Tid V} {g g' : Ghost Tid V} {t u : Tid}
  {l : Label V} {τ : List (Tid × Label V)} {U : List (ℕ × V)} {op : Op V} {r : Ret V}

/-- Results of an operation on a list, with the list before and after it. -/
inductive Answers (capacity : Option ℕ) : Op V → Ret V → List V → List V → Prop where
  | pushed (v : V) (tail : ℕ) (wake : Bool) (xs : List V) : (∀ cap ∈ capacity, xs.length < cap) →
      Answers capacity (.push v) (.push (.pushed tail wake)) xs (xs ++ [v])
  | full (v : V) (xs : List V) : capacity = some xs.length →
      Answers capacity (.push v) (.push (.full v)) xs xs
  | popped (head : ℕ) (v : V) (wake : Bool) (xs : List V) :
      Answers capacity .pop (.pop (.popped head v wake)) (v :: xs) xs
  | nothing : Answers capacity .pop (.pop .nothing) [] []
  | poppedSingle (head : ℕ) (v : V) (wake : Bool) (xs : List V) :
      Answers capacity .popSingle (.single (.popped head v wake)) (v :: xs) xs
  | nothingSingle : Answers capacity .popSingle (.single .nothing) [] []
  | batch (n head wake : ℕ) (values xs : List V) : values.length ≤ n →
      (values = [] → n = 0 ∨ xs = []) →
      Answers capacity (.popSingleBatch n) (.single (.batch head values wake)) (values ++ xs) xs
  | unwound (n : ℕ) (xs : List V) :
      Answers capacity (.popSingleBatch n) (.single .unwound) xs xs
  | receiverParked (tail : ℕ) (xs : List V) :
      Answers capacity .receiverParking (.read (.parked tail)) xs xs
  | senderParked (head : ℕ) (xs : List V) :
      Answers capacity .senderParking (.read (.parked head)) xs xs
  | claimsBelow (tail : ℕ) (below : Bool) (xs : List V) :
      Answers capacity (.claimsBelow tail) (.read (.answer below)) xs xs
  | isEmpty (xs : List V) : Answers capacity .isEmptySeqcst (.read (.answer xs.isEmpty)) xs xs
  | len (xs : List V) : Answers capacity .len (.read (.length xs.length)) xs xs

/-- What a client sees of a step. -/
inductive Event (V : Type) where
  | call (op : Op V)
  | ret (r : Ret V)
  deriving DecidableEq

/-- The call or the result a label shows. -/
def shows (l : Tid × Label V) : List (Tid × Event V) :=
  match l.2 with
  | .call op => [(l.1, .call op)]
  | .access _ (some r) => [(l.1, .ret r)]
  | .access _ none => []

/-- A list and the operation under way on it. -/
structure Fifo (Tid V : Type) where
  items : List V
  pending : Option (Tid × Op V)

/-- A call is followed by its result, which changes the list. -/
inductive Fifo.Step (capacity : Option ℕ) :
    Fifo Tid V → Tid × Event V → Fifo Tid V → Prop where
  | call (t : Tid) (op : Op V) (xs : List V) :
      Fifo.Step capacity ⟨xs, none⟩ (t, .call op) ⟨xs, some (t, op)⟩
  | ret (t : Tid) (op : Op V) (r : Ret V) (xs xs' : List V) : Answers capacity op r xs xs' →
      Fifo.Step capacity ⟨xs, some (t, op)⟩ (t, .ret r) ⟨xs', none⟩

/-- An operation of a thread under way, called when the unread values were `U`:
the values are accounted for, and what the thread has read still holds. -/
structure During (cfg : Config Tid) (U : List (ℕ × V)) (τ : List (Tid × Label V))
    (s : State Tid V) (t : Tid) (op : Op V) : Prop where
  alone : Alone s t
  carries : Carries op (s.pc t)
  sees : Sees cfg.size s.queue (s.pc t)
  known : U ⊆ (claimed τ).map Prod.snd
  account : U.map Prod.fst ++ claimOf cfg.size (s.pc t) =
    inflight (s.pc t) ++ (unread τ).map Prod.fst

/-- The list a queue stands for, between operations and during one. -/
inductive Stands (cfg : Config Tid) (τ : List (Tid × Label V)) (s : State Tid V) :
    Fifo Tid V → Prop where
  | rest : Rest s → Stands cfg τ s ⟨contents τ, none⟩
  | during (t : Tid) (op : Op V) (U : List (ℕ × V)) : During cfg U τ s t op →
      Stands cfg τ s ⟨U.map Prod.snd, some (t, op)⟩

section Calls

/-- An operation starts at one of its program points. -/
theorem carries_entry (op : Op V) : Carries op (op.entry cfg.capacity) := by
  cases op with
  | push v => cases hcap : cfg.capacity <;> rfl
  | popSingleBatch n | claimsBelow tail => rfl
  | _ => trivial

theorem sees_entry (op : Op V) (q : Queue V) : Sees cfg.size q (op.entry cfg.capacity) := by
  cases op with
  | push v => cases hcap : cfg.capacity <;> trivial
  | _ => trivial

variable [DecidableEq Tid]

/-- A call of a queue at rest. -/
theorem during_call (hrest : Rest s) :
    During cfg (unread τ) (τ ++ [(t, .call op)]) (s.setPc t (op.entry cfg.capacity)) t op := by
  have hself : (s.setPc t (op.entry cfg.capacity)).pc t = op.entry cfg.capacity :=
    Function.update_self _ _ _
  obtain ⟨hinflight, hclaim, -⟩ := entry_account cfg.size cfg.capacity op
  have hunread : unread (τ ++ [(t, Label.call op)]) = unread τ := by
    simp [unread, claimed, taken, Label.effect, claims, takes]
  refine ⟨fun u hu => ?_, ?_, ?_, fun c hc => ?_, ?_⟩
  · exact (Function.update_of_ne hu _ _).trans (hrest u)
  · rw [hself]
    exact carries_entry op
  · rw [hself]
    exact sees_entry op _
  · have hmem := List.mem_of_mem_drop hc
    simpa [claimed, Label.effect, claims] using hmem
  · rw [hself, hinflight, hclaim, hunread, List.append_nil, List.nil_append]

end Calls

section Returns

variable [DecidableEq Tid]

/-- What the labels of a returned operation hand over, put together with the
unread values at its call. -/
theorem During.balance (hd : During cfg U τ s t op) (h : History cfg τ s g)
    (h' : History cfg (τ ++ [(t, l)]) s' g') (hs : Step cfg s (t, l) s') :
    U.map Prod.fst ++ l.result.toList.flatMap acceptedRet ++ claimOf cfg.size (s'.pc t) =
      (l.result.toList.flatMap Ret.received).map Prod.fst ++ inflight (s'.pc t) ++
        (unread (τ ++ [(t, l)])).map Prod.fst := by
  obtain ⟨hinflight, hclaim, -⟩ := step_transfers h.inv hs
  have hstep := unread_step h h'
  calc U.map Prod.fst ++ l.result.toList.flatMap acceptedRet ++ claimOf cfg.size (s'.pc t)
      = U.map Prod.fst ++ claimOf cfg.size (s.pc t) ++ (claims l.effect).map Prod.fst := by
        rw [List.append_assoc, ← hclaim, List.append_assoc]
    _ = inflight (s.pc t) ++ takes l.effect ++
          (unread (τ ++ [(t, l)])).map Prod.fst := by
        rw [hd.account, List.append_assoc, hstep, List.append_assoc]
    _ = _ := by rw [hinflight]

/-- An access of the operation that does not end it. -/
theorem During.next (hd : During cfg U τ s t op) (h : History cfg τ s g) {o} {flag : ℕ}
    {fail : Bool} {pc' : Pc V} (ho : (s.pc t).exec cfg flag fail s.queue = some o)
    (hn : o.2.1 = .goto pc')
    (hs : Step cfg s (t, .access o.2.2 none) ⟨o.1, Function.update s.pc t pc'⟩) :
    During cfg U (τ ++ [(t, .access o.2.2 none)]) ⟨o.1, Function.update s.pc t pc'⟩ t op := by
  obtain ⟨g', h'⟩ := step_history h hs
  have hbalance := hd.balance h h' hs
  refine ⟨fun u hu => (Function.update_of_ne hu _ _).trans (hd.alone u hu), ?_, ?_, fun c hc => ?_,
    ?_⟩
  · simp only [Function.update_self]
    exact carries_exec (h.inv.assertion t) hd.carries ho hn
  · simp only [Function.update_self]
    exact sees_exec hd.sees ho hn
  · have hmem := hd.known hc
    simp only [claimed, List.flatMap_append, List.map_append, List.mem_append]
    exact .inl hmem
  · simpa [Label.result] using hbalance

/-- The values at the call, and those a returned push claimed, are the values the
operation returns and those that are unread afterwards. -/
theorem During.values (hd : During cfg U τ s t op) (h : History cfg τ s g)
    (h' : History cfg (τ ++ [(t, l)]) s' g') (hs : Step cfg s (t, l) s') (hr : l.result = some r)
    (hrest : Rest s') (vs : List V)
    (hacc : (acceptedRet r).map g'.val = vs.map some) :
    U.map Prod.snd ++ vs = r.received.map Prod.snd ++ contents (τ ++ [(t, l)]) := by
  have hbalance := hd.balance h h' hs
  rw [hrest t, hr] at hbalance
  have hval : ∀ c ∈ (claimed (τ ++ [(t, l)])).map Prod.snd, g'.val c.1 = some c.2 := by
    intro c hc
    obtain ⟨⟨u, p, v⟩, hmem, rfl⟩ := List.mem_map.mp hc
    exact (h'.val p v).mpr ⟨u, hmem⟩
  have hU : ∀ c ∈ U, g'.val c.1 = some c.2 := by
    refine fun c hc => hval c ?_
    have hmem := hd.known hc
    simp only [claimed, List.flatMap_append, List.map_append, List.mem_append]
    exact .inl hmem
  have hreceived : ∀ c ∈ r.received, g'.val c.1 = some c.2 := by
    refine fun c hc => h'.returned t c.1 c.2 ?_
    rw [returned, List.mem_flatMap]
    refine ⟨(t, l), by simp, ?_⟩
    rw [hr]
    simpa using hc
  have hlists := congrArg (List.map g'.val) hbalance
  simp only [Option.toList_some, List.flatMap_singleton, List.map_append] at hlists
  rw [values_of_positions hU, hacc, values_of_positions hreceived,
    values_of_positions fun c hc => val_of_unread h' hc] at hlists
  refine List.map_injective_iff.mpr (Option.some_injective V) ?_
  simpa [contents, claimOf, inflight, writes] using hlists

/-- An access that returns leaves the queue at rest. -/
theorem During.rest (hd : During cfg U τ s t op) (q : Queue V) :
    Rest (⟨q, Function.update s.pc t .idle⟩ : State Tid V) := by
  intro u
  by_cases hu : u = t
  · subst hu
    exact Function.update_self _ _ _
  · exact (Function.update_of_ne hu _ _).trans (hd.alone u hu)

end Returns

section Results

variable {z : BlockSize} {q : Queue V} {flag : ℕ} {fail : Bool} {capacity : Option ℕ}

/-- A push returns `Ok` when it has published its position. -/
theorem pushed_exec {pc : PushPc V} {tail : ℕ} {wake : Bool}
    (h : (pc.exec z flag fail q).2.1 = .ret (.pushed tail wake)) :
    ∃ c block, pc = .publish c block ∧ c.tail = tail := by
  cases pc with
  | publish c block =>
    cases h
    exact ⟨c, block, rfl, rfl⟩
  | fetchAdd v expected | casTry v tail' failed | casLevel v tail' failed | boundedSkip v cap tail'
  | boundedHead v cap tail' | boundedTry v cap tail' | slowStart c block | slowPrev c block
  | takeSpare c block =>
    simp only [PushPc.exec] at h
    (repeat' split at h) <;> cases h
  | _ => cases h

/-- A pop that finds nothing while the other threads are idle finds nothing queued. -/
theorem pop_nothing [DecidableEq Tid] {pc : PopPc V} (hr : Reach cfg τ s) (h : Inv cfg s g)
    (ha : Alone s t) (hpc : s.pc t = .pop pc) (hsees : Sees cfg.size s.queue (.pop pc))
    (hn : (pc.exec cfg.size cfg.capacity flag fail s.queue).2.1 = .ret .nothing) :
    (pc.exec cfg.size cfg.capacity flag fail s.queue).1 = s.queue ∧
      items cfg.size s.queue = 0 := by
  obtain ⟨hx, hl⟩ : cfg.exclusive = none ∧ PopLocal cfg s.queue g pc := by
    have hl := h.assertion t
    rwa [hpc] at hl
  cases pc with
  | loadBlock head wait =>
    obtain rfl : head = s.queue.head.index := hsees
    simp only [PopPc.exec, popLoop] at hn
    split at hn
    · rename_i ho
      obtain ⟨u, p, hreads, -⟩ := QueuePairing.crossing_of_sentinel hr hx fun hv => hv ho
      by_cases hu : u = t
      · subst hu
        rw [hpc] at hreads
        cases hreads
      · rw [ha u hu] at hreads
        cases hreads
    · cases hn
  | reloadHead head block wait =>
    obtain ⟨rfl, htag⟩ := hsees
    obtain ⟨hv, -, -, hserves⟩ := hl
    have hquiet : ∀ u, (views cfg.size s.pc).writes u = none :=
      ha.quiet (by rw [hpc]; rfl)
    exact ⟨rfl, items_of_untagged h.coherent hquiet hv (hserves rfl).2 htag⟩
  | claim head block wait | readValue k | loadNext k v | recycleSpare k v =>
    simp only [PopPc.exec] at hn
    (repeat' split at hn) <;> cases hn
  | _ => cases hn

/-- Leaving a block, an exclusive receive returns the values it has read. -/
theorem leave_returns {batch : Bool} {pc : LeavePc V} {r : SingleRet V}
    (h : (pc.exec z capacity batch flag q).2.1 = .ret r) :
    ∃ wake, r = (leaveRun pc).result batch wake := by
  cases pc with
  | advance r' =>
    simp only [LeavePc.exec] at h
    cases capacity with
    | none =>
      simp only [advanced] at h
      split at h <;> cases h
      exact ⟨0, rfl⟩
    | some cap => cases h
  | sample r' =>
    simp only [LeavePc.exec, advanced] at h
    split at h <;> cases h
    exact ⟨_, rfl⟩
  | loadNext r' =>
    simp only [LeavePc.exec] at h
    split at h <;> cases h
  | recycleSpare r' wake =>
    simp only [LeavePc.exec] at h
    split at h <;> cases h
    exact ⟨wake, rfl⟩
  | recyclePool r' wake =>
    cases h
    exact ⟨wake, rfl⟩
  | _ => cases h

/-- A leaving receive has read its values. -/
theorem collected_of_leave {pc : LeavePc V} (h : LeaveLocal cfg q g pc) :
    Collected cfg g (leaveRun pc) := by
  cases pc with
  | loadNext r | storeBlock r next => exact h.2.1
  | _ => exact h.1

/-- `pop_single` beside idle threads returns a value, or finds nothing queued. -/
theorem single_once {pc : SinglePc V} (h : Inv cfg s g) (ha : Alone s t)
    (hpc : s.pc t = .single pc) (ho : Once pc) {r : SingleRet V}
    (hn : (pc.exec cfg.size cfg.capacity flag fail s.queue).2.1 = .ret r) :
    (∃ head v wake, r = .popped head v wake) ∨
      r = .nothing ∧ (pc.exec cfg.size cfg.capacity flag fail s.queue).1 = s.queue ∧
        items cfg.size s.queue = 0 := by
  obtain ⟨-, hl⟩ : cfg.exclusive = some t ∧ SingleLocal cfg s.queue g pc := by
    have hl := h.assertion t
    rwa [hpc] at hl
  cases pc with
  | loadState head block =>
    obtain ⟨rfl, rfl, hv, hlap⟩ := hl
    simp only [SinglePc.exec] at hn
    split at hn
    · rename_i htag
      cases hn
      have hquiet : ∀ u, (views cfg.size s.pc).writes u = none :=
        ha.quiet (by rw [hpc]; rfl)
      refine .inr ⟨rfl, rfl, items_of_untagged h.coherent hquiet hv ?_ htag⟩
      rw [← hlap, h.coherent.head_block]
    · cases hn
  | leave batch pc =>
    cases batch with
    | true => exact ho.elim
    | false =>
      obtain ⟨wake, rfl⟩ := leave_returns hn
      obtain ⟨v, hv⟩ := List.length_eq_one_iff.mp (hl.1 rfl)
      exact .inl ⟨(leaveRun pc).head, v, decide (wake ≠ 0), by simp [Run.result, hv]⟩
  | loadHead => cases hn
  | loadBlock head | readValue head block =>
    simp only [SinglePc.exec] at hn
    split at hn <;> cases hn
  | _ => exact ho.elim

/-- A batch beside idle threads stays within its limit, and appends nothing only
if that is its limit or nothing is queued. -/
theorem single_within {n : ℕ} {pc : SinglePc V} (h : Inv cfg s g) (ha : Alone s t)
    (hpc : s.pc t = .single pc) (hw : Within n pc) {r : SingleRet V}
    (hn : (pc.exec cfg.size cfg.capacity flag fail s.queue).2.1 = .ret r) :
    r = .unwound ∧ (pc.exec cfg.size cfg.capacity flag fail s.queue).1 = s.queue ∨
      ∃ head values wake, r = .batch head values wake ∧ values.length ≤ n ∧
        (values = [] → n = 0 ∨
          (pc.exec cfg.size cfg.capacity flag fail s.queue).1 = s.queue ∧
            items cfg.size s.queue = 0) := by
  obtain ⟨-, hl⟩ : cfg.exclusive = some t ∧ SingleLocal cfg s.queue g pc := by
    have hl := h.assertion t
    rwa [hpc] at hl
  cases pc with
  | batchHead limit =>
    obtain rfl : limit = n := hw
    simp only [SinglePc.exec] at hn
    split at hn
    · rename_i hzero
      cases hn
      exact .inr ⟨_, [], 0, rfl, Nat.zero_le _, fun _ => .inl hzero⟩
    · cases hn
  | batchState limit head block =>
    obtain ⟨-, rfl, rfl, hv, hlap⟩ := hl
    simp only [SinglePc.exec] at hn
    split at hn
    · rename_i htag
      cases hn
      have hquiet : ∀ u, (views cfg.size s.pc).writes u = none :=
        ha.quiet (by rw [hpc]; rfl)
      refine .inr ⟨_, [], 0, rfl, Nat.zero_le _, fun _ => .inr ⟨rfl, ?_⟩⟩
      refine items_of_untagged h.coherent hquiet hv ?_ htag
      rw [← hlap, h.coherent.head_block]
    · cases hn
  | reserve max head block =>
    simp only [SinglePc.exec] at hn
    split at hn <;> cases hn
    exact .inl ⟨rfl, rfl⟩
  | leave batch pc =>
    cases batch with
    | false => exact hw.elim
    | true =>
      obtain ⟨wake, rfl⟩ := leave_returns hn
      refine .inr ⟨_, _, wake, rfl, hw, fun hnil => ?_⟩
      exact absurd hnil (collected_of_leave hl.2).2.1
  | slotState max r' => cases hn
  | batchBlock limit head | slotValue max r' =>
    simp only [SinglePc.exec] at hn
    split at hn <;> cases hn
  | _ => exact hw.elim

end Results

section Answers

variable [DecidableEq Tid] {q : Queue V} {flag : ℕ} {fail : Bool}

/-- What the list is after an operation other than an accepted push. -/
theorem During.received (hd : During cfg U τ s t op) (h : History cfg τ s g) {e : Option (Effect V)}
    (hs : Step cfg s (t, .access e (some r)) ⟨q, Function.update s.pc t .idle⟩)
    (hacc : acceptedRet r = []) : U.map Prod.snd =
      r.received.map Prod.snd ++ contents (τ ++ [(t, .access e (some r))]) := by
  obtain ⟨g', h'⟩ := step_history h hs
  have hvalues := hd.values h h' hs rfl (hd.rest q) [] (by rw [hacc]; rfl)
  rwa [List.append_nil] at hvalues

/-- The number of values on the list after an access that returns. -/
theorem length_after (h : History cfg τ s g) {e : Option (Effect V)}
    (hs : Step cfg s (t, .access e (some r)) ⟨q, Function.update s.pc t .idle⟩) :
    (contents (τ ++ [(t, Label.access e (some r))])).length = items cfg.size q := by
  obtain ⟨g', h'⟩ := step_history h hs
  exact contents_length h'

/-- An access that leaves an empty queue alone leaves an empty list. -/
theorem empty_after (h : History cfg τ s g) {e : Option (Effect V)}
    (hs : Step cfg s (t, .access e (some r)) ⟨q, Function.update s.pc t .idle⟩)
    (hq : q = s.queue) (hz : items cfg.size s.queue = 0) :
    contents (τ ++ [(t, Label.access e (some r))]) = [] := by
  refine List.eq_nil_of_length_eq_zero ?_
  rw [length_after h hs, hq, hz]

omit [DecidableEq Tid] in
theorem answers_isEmpty {capacity : Option ℕ} {xs : List V} {b : Bool} (h : b = xs.isEmpty) :
    Answers capacity .isEmptySeqcst (.read (.answer b)) xs xs := by
  rw [h]
  exact .isEmpty xs

omit [DecidableEq Tid] in
theorem answers_len {capacity : Option ℕ} {xs : List V} {n : ℕ} (h : n = xs.length) :
    Answers capacity .len (.read (.length n)) xs xs := by
  rw [h]
  exact .len xs

/-- A push answers like the list. -/
theorem push_answers {v : V} {pc : PushPc V} {r : PushRet V} (hd : During cfg U τ s t (.push v))
    (h : History cfg τ s g) (hpc : s.pc t = .push pc)
    (hn : (pc.exec cfg.size flag fail s.queue).2.1 = .ret r)
    (hs : Step cfg s (t, .access (pc.exec cfg.size flag fail s.queue).2.2 (some (.push r)))
      ⟨(pc.exec cfg.size flag fail s.queue).1, Function.update s.pc t .idle⟩) :
    Answers cfg.capacity (.push v) (.push r) (U.map Prod.snd) (contents
      (τ ++ [(t, .access (pc.exec cfg.size flag fail s.queue).2.2 (some (.push r)))])) := by
  have hl : PushLocal cfg s.queue g pc := by
    have hl := h.inv.assertion t
    rwa [hpc] at hl
  have hv : pushValue pc = v := by
    have hc := hd.carries
    rwa [hpc] at hc
  obtain ⟨g', h'⟩ := step_history h hs
  have hle : ∀ cap ∈ cfg.capacity, (contents (τ ++ [(t, Label.access
      (pc.exec cfg.size flag fail s.queue).2.2 (some (Ret.push r)))])).length ≤ cap := by
    intro cap hcap
    rw [contents_length h']
    exact h'.inv.coherent.capacity cap hcap
  cases r with
  | pushed tail wake =>
    obtain ⟨c, block, rfl, rfl⟩ := pushed_exec hn
    have hval : g'.val c.tail = some v := by
      obtain ⟨u, hmem⟩ := (h.val c.tail c.value).mp hl.1.1
      refine (h'.val c.tail v).mpr ⟨u, ?_⟩
      rw [← show c.value = v from hv, claimed, List.flatMap_append]
      exact List.mem_append_left _ hmem
    have hlist := hd.values h h' hs rfl (hd.rest _) [v] (by simp [acceptedRet, hval])
    have hcontents : contents _ = U.map Prod.snd ++ [v] := hlist.symm
    rw [hcontents] at hle ⊢
    refine .pushed v c.tail wake _ fun cap hcap => ?_
    simpa using hle cap hcap
  | full w =>
    have hlist : U.map Prod.snd = contents _ := hd.received h hs rfl
    have hlength := length_after h hs
    obtain ⟨cap, tail, rfl, hge⟩ := QueueCapacity.full_exec hn
    obtain rfl : w = v := hv
    obtain ⟨hcap, -, htail⟩ := hl
    rw [← hlist] at hle hlength ⊢
    refine .full w _ (hcap.trans (congrArg some (Nat.le_antisymm ?_ (hle cap hcap))))
    rw [hlength]
    simp only [PushPc.exec, if_pos hge, items]
    exact hge.trans (itemsBetween_mono_right htail)

/-- A shared receive answers like the list. -/
theorem pop_answers {pc : PopPc V} {r : PopRet V} (hr : Reach cfg τ s)
    (hd : During cfg U τ s t .pop) (h : History cfg τ s g) (hpc : s.pc t = .pop pc)
    (hn : (pc.exec cfg.size cfg.capacity flag fail s.queue).2.1 = .ret r)
    (hs : Step cfg s (t, .access (pc.exec cfg.size cfg.capacity flag fail s.queue).2.2
      (some (.pop r)))
      ⟨(pc.exec cfg.size cfg.capacity flag fail s.queue).1, Function.update s.pc t .idle⟩) :
    Answers cfg.capacity .pop (.pop r) (U.map Prod.snd) (contents (τ ++
      [(t, .access (pc.exec cfg.size cfg.capacity flag fail s.queue).2.2 (some (.pop r)))])) := by
  have hlist := hd.received h hs rfl
  cases r with
  | popped head v wake =>
    rw [hlist]
    exact .popped head v wake _
  | nothing =>
    obtain ⟨hq, hz⟩ := pop_nothing hr h.inv hd.alone hpc (hpc ▸ hd.sees) hn
    rw [hlist, empty_after h hs hq hz]
    exact .nothing

/-- An exclusive receive answers like the list. -/
theorem single_answers {pc : SinglePc V} {r : SingleRet V} (hd : During cfg U τ s t op)
    (h : History cfg τ s g) (hpc : s.pc t = .single pc)
    (hn : (pc.exec cfg.size cfg.capacity flag fail s.queue).2.1 = .ret r)
    (hs : Step cfg s (t, .access (pc.exec cfg.size cfg.capacity flag fail s.queue).2.2
      (some (.single r)))
      ⟨(pc.exec cfg.size cfg.capacity flag fail s.queue).1, Function.update s.pc t .idle⟩) :
    Answers cfg.capacity op (.single r) (U.map Prod.snd) (contents (τ ++
      [(t, .access (pc.exec cfg.size cfg.capacity flag fail s.queue).2.2 (some (.single r)))])) := by
  have hlist := hd.received h hs rfl
  have hc := hd.carries
  rw [hpc] at hc
  cases op with
  | popSingle =>
    rcases single_once h.inv hd.alone hpc hc hn with ⟨head, v, wake, rfl⟩ | ⟨rfl, hq, hz⟩
    · rw [hlist]
      exact .poppedSingle head v wake _
    · rw [hlist, empty_after h hs hq hz]
      exact .nothingSingle
  | popSingleBatch n =>
    rcases single_within h.inv hd.alone hpc hc hn with ⟨rfl, -⟩ | ⟨head, values, wake, rfl, hle, hnil⟩
    · rw [hlist]
      exact .unwound n _
    · have hzip : ((Ret.single (.batch head values wake)).received).map Prod.snd = values :=
        List.map_snd_zip (by simp)
      rw [hlist, hzip]
      refine .batch n head wake values _ hle fun he => ?_
      exact (hnil he).imp_right fun hz => empty_after h hs hz.1 hz.2
  | _ => exact hc.elim

/-- The operations that only look at the indices answer like the list. -/
theorem read_answers {pc : ReadPc} {r : ReadRet} (hd : During cfg U τ s t op)
    (h : History cfg τ s g) (hpc : s.pc t = .read pc)
    (hn : (pc.exec cfg.size cfg.capacity s.queue).2.1 = .ret r)
    (hs : Step cfg s (t, .access (pc.exec cfg.size cfg.capacity s.queue).2.2 (some (.read r)))
      ⟨(pc.exec cfg.size cfg.capacity s.queue).1, Function.update s.pc t .idle⟩) :
    Answers cfg.capacity op (.read r) (U.map Prod.snd) (contents
      (τ ++ [(t, .access (pc.exec cfg.size cfg.capacity s.queue).2.2 (some (.read r)))])) := by
  have hlist : U.map Prod.snd = contents _ := hd.received h hs rfl
  have hlength := length_after h hs
  have hc := hd.carries
  have hsees := hd.sees
  rw [hpc] at hc hsees
  rw [hlist]
  cases pc with
  | receiverParking =>
    cases hn
    cases op with
    | receiverParking => exact .receiverParked _ _
    | _ => exact hc.elim
  | senderParking =>
    cases hn
    cases op with
    | senderParking => exact .senderParked _ _
    | _ => exact hc.elim
  | claimsBelow tail =>
    cases hn
    cases op with
    | claimsBelow tail' =>
      obtain rfl : tail = tail' := hc
      exact .claimsBelow _ _ _
    | _ => exact hc.elim
  | emptyHead | lenHead => cases hn
  | emptyTail head =>
    obtain rfl : head = s.queue.head.index := hsees
    cases op with
    | isEmptySeqcst =>
      obtain rfl := Next.ret.inj hn
      refine answers_isEmpty ?_
      rw [Bool.eq_iff_iff, decide_eq_true_eq, List.isEmpty_iff, ← List.length_eq_zero_iff, hlength]
      rfl
    | _ => exact hc.elim
  | lenTail head =>
    obtain rfl : head = s.queue.head.index := hsees
    cases op with
    | len =>
      obtain rfl := Next.ret.inj hn
      refine answers_len ?_
      rw [hlength]
      split
      · rfl
      · rename_i cap hcap
        exact Nat.min_eq_left (h.inv.coherent.capacity cap hcap)
    | _ => exact hc.elim

/-- Every operation that runs beside idle threads answers like the list. -/
theorem During.answers (hr : Reach cfg τ s) (hd : During cfg U τ s t op) (h : History cfg τ s g)
    {o : Outcome V (Pc V) (Ret V)} (ho : (s.pc t).exec cfg flag fail s.queue = some o)
    (hn : o.2.1 = .ret r)
    (hs : Step cfg s (t, .access o.2.2 (some r)) ⟨o.1, Function.update s.pc t .idle⟩) :
    Answers cfg.capacity op r (U.map Prod.snd) (contents (τ ++ [(t, .access o.2.2 (some r))])) := by
  cases hpc : s.pc t with
  | idle | fault =>
    rw [hpc] at ho
    cases ho
  | push pc =>
    rw [hpc, Pc.exec, Option.some.injEq] at ho
    subst ho
    obtain ⟨r, hr', rfl⟩ := ret_of_map hn
    have hc := hd.carries
    rw [hpc] at hc
    cases op with
    | push v => exact push_answers hd h hpc hr' hs
    | _ => exact hc.elim
  | pop pc =>
    rw [hpc, Pc.exec, Option.some.injEq] at ho
    subst ho
    obtain ⟨r, hr', rfl⟩ := ret_of_map hn
    have hc := hd.carries
    rw [hpc] at hc
    cases op with
    | pop => exact pop_answers hr hd h hpc hr' hs
    | _ => exact hc.elim
  | single pc =>
    rw [hpc, Pc.exec, Option.some.injEq] at ho
    subst ho
    obtain ⟨r, hr', rfl⟩ := ret_of_map hn
    exact single_answers hd h hpc hr' hs
  | read pc =>
    rw [hpc, Pc.exec, Option.some.injEq] at ho
    subst ho
    obtain ⟨r, hr', rfl⟩ := ret_of_map hn
    exact read_answers hd h hpc hr' hs

end Answers

section Refinement

variable [DecidableEq Tid]

/-- One step of the queue is one step of the list, or shows nothing. -/
theorem stands_step {a : Fifo Tid V} (hr : Reach cfg τ s) (ha : Stands cfg τ s a)
    (hs : SerialStep cfg s (t, l) s') : ∃ a', Run (Fifo.Step cfg.capacity) a (shows (t, l)) a' ∧
      Stands cfg (τ ++ [(t, l)]) s' a' := by
  obtain ⟨g, h⟩ := reach_history hr
  cases ha with
  | rest hrest =>
    rcases step_cases hs.1 with ⟨op, rfl, -, -, rfl⟩ | ⟨flag, fail, o, ho, -⟩
    · exact ⟨_, .single (.call t op _), .during t op _ (during_call hrest)⟩
    · rw [hrest t] at ho
      cases ho
  | during u op U hd =>
    obtain rfl : t = u := by
      by_contra hne
      have hidle := hs.2 u (Ne.symm hne)
      have hc := hd.carries
      rw [hidle] at hc
      cases op <;> exact hc.elim
    rcases step_cases hs.1 with ⟨op', rfl, hidle, -⟩ | ⟨flag, fail, o, ho, rfl, rfl⟩
    · have hc := hd.carries
      rw [hidle] at hc
      cases op <;> exact hc.elim
    · have hstep := hs.1
      obtain ⟨g', hg'⟩ := exec_steps h.inv ho
      cases hn : o.2.1 with
      | goto pc' =>
        rw [hn] at hstep
        exact ⟨_, .refl, .during t op U (hd.next h ho hn hstep)⟩
      | ret r =>
        rw [hn] at hstep
        exact ⟨_, .single (.ret t op r _ _ (hd.answers hr h ho hn hstep)), .rest (hd.rest o.1)⟩
      | fault => exact absurd hn hg'.sound

/-- A run of the queue whose operations do not overlap is a run of the list, over
the same calls and results. Between operations the list holds the values that were
claimed and not taken. -/
theorem serial_refines_list (h : SerialRun cfg τ s) :
    ∃ a, Run (Fifo.Step cfg.capacity) ⟨[], none⟩ (τ.flatMap shows) a ∧
      (Rest s → a = ⟨contents τ, none⟩) := by
  obtain ⟨a, ha, hstands⟩ := h.matched (R := Stands cfg) (.rest fun _ => rfl)
    fun τ s l s' a hr hst hs => stands_step (reach_of_serial hr) hst hs
  refine ⟨a, ha, fun hrest => ?_⟩
  cases hstands with
  | rest _ => rfl
  | during t op U hd =>
    have hc := hd.carries
    rw [hrest t] at hc
    cases op <;> exact hc.elim

end Refinement

/-- Thread 0 pushes 7, is refused 8, and receives 7 from a queue of one element. -/
def refuseAndReceive : List (Fin 2 × Choice ℕ) :=
  (0, .call (.push 7)) :: List.replicate 8 (0, .run 0 false) ++
  (0, .call (.push 8)) :: List.replicate 3 (0, .run 0 false) ++
  (0, .call .pop) :: List.replicate 7 (0, .run 0 false)

/-- In that run the list refuses 8 too, gives out 7 and ends empty. -/
theorem serial_refines_list_of_refuseAndReceive :
    ∃ (τ : List (Fin 2 × Label ℕ)) (s : State (Fin 2) ℕ),
      SerialRun QueueCapacity.single τ s ∧
      τ.flatMap shows = [(0, .call (.push 7)), (0, .ret (.push (.pushed 0 false))),
        (0, .call (.push 8)), (0, .ret (.push (.full 8))), (0, .call .pop),
        (0, .ret (.pop (.popped 0 7 false)))] ∧
      Run (Fifo.Step (some 1)) ⟨[], none⟩ (τ.flatMap shows) ⟨[], none⟩ := by
  have h : ((State.init (Fin 2) ℕ).runs QueueCapacity.single refuseAndReceive).map
      (fun x => ((x.1.flatMap shows, contents x.1), x.1.all fun l => decide (l.1 = 0),
        (x.2.pc 0).isIdle)) =
      some (([(0, .call (.push 7)), (0, .ret (.push (.pushed 0 false))), (0, .call (.push 8)),
        (0, .ret (.push (.full 8))), (0, .call .pop), (0, .ret (.pop (.popped 0 7 false)))], []),
        true, true) := by
    decide +kernel
  obtain ⟨⟨τ, s⟩, hrun, h⟩ := Option.map_eq_some_iff.mp h
  simp only [Prod.mk.injEq, List.all_eq_true, decide_eq_true_eq, Pc.isIdle_iff] at h
  obtain ⟨⟨hshows, hempty⟩, hzero, hidle⟩ := h
  obtain ⟨hserial, hothers⟩ := serial_of_alone (State.runs_run hrun) (fun _ _ => rfl) hzero
  have hrest : Rest s := fun u => by
    by_cases hu : u = 0
    · exact hu ▸ hidle
    · exact hothers u hu
  obtain ⟨a, ha, hlist⟩ := serial_refines_list hserial
  rw [hlist hrest, hempty] at ha
  exact ⟨τ, s, hserial, hshows, ha⟩

end Rapidfire.QueueFifo
