import Rapidfire.QueueHighWater

/-!
# A thread that uses the queue alone

While the other threads are idle, what a thread has read of the indices and of
the slot at the head stays true. So the result of its operation is the one a list
of the unread values gives: a receive that finds nothing finds an empty list, and
a push is refused by a full one.
-/

namespace Rapidfire.QueueAlone

open Positions QueueMemory QueuePush QueuePop QueueSingle QueueMachine QueueCoherence QueueLocal
  QueueInvariant QueueHistory QueueRest Runs

variable {Tid V : Type} {cfg : Config Tid} {s s' : State Tid V} {g g' : Ghost Tid V} {t u : Tid}
  {l : Label V} {τ : List (Tid × Label V)} {z : BlockSize} {q : Queue V} {flag : ℕ} {fail : Bool}

/-- The other threads are idle. -/
def Alone (s : State Tid V) (t : Tid) : Prop := ∀ u, u ≠ t → s.pc u = .idle

/-- Number of values between the indices. -/
def items (z : BlockSize) (q : Queue V) : ℕ := itemsBetween z q.head.index q.tail.index

/-- Values claimed and not taken, in order. -/
def contents (τ : List (Tid × Label V)) : List V := (unread τ).map Prod.snd

/-- Value of a push. -/
def pushValue : PushPc V → V
  | .loadContended v | .fetchAddLoad v | .fetchAdd v _ | .fetchAddContend v _ | .casLoad v
  | .casTry v _ _ | .casLevel v _ _ | .casContend v _ _ | .boundedLoad v _ | .boundedSkip v _ _
  | .boundedCached v _ _ | .boundedHead v _ _ | .boundedCache v _ _ _ | .boundedTry v _ _
  | .sample v _ => v
  | .findBlock c | .findStart c _ | .slowBlock c | .slowStart c _ | .slowPrev c _
  | .takeSpare c _ | .takePool c _ | .resetMark c _ _ _ | .resetStart c _ _ | .allocate c _
  | .storePrev c _ _ | .storeNext c _ _ | .storeStart c _ _ | .linkNext c _ _
  | .storeTail c _ _ | .writeValue c _ | .publish c _ => c.value

/-- The receive is a `pop_single`. -/
def Once : SinglePc V → Prop
  | .loadHead | .loadBlock _ | .loadState _ _ | .readValue _ _ | .leave false _ => True
  | _ => False

/-- The receive is a batch of at most `n` values. -/
def Within (n : ℕ) : SinglePc V → Prop
  | .batchHead limit | .batchBlock limit _ | .batchState limit _ _ => limit = n
  | .reserve max _ _ => max ≤ n
  | .slotState max r | .slotValue max r => max ≤ n ∧ r.values.length ≤ n
  | .leave true pc => (leaveRun pc).values.length ≤ n
  | _ => False

/-- The program point belongs to the operation. -/
def Carries : Op V → Pc V → Prop
  | .push v, .push pc => pushValue pc = v
  | .pop, .pop _ => True
  | .popSingle, .single pc => Once pc
  | .popSingleBatch n, .single pc => Within n pc
  | .receiverParking, .read .receiverParking | .senderParking, .read .senderParking
  | .isEmptySeqcst, .read .emptyHead | .isEmptySeqcst, .read (.emptyTail _)
  | .len, .read .lenHead | .len, .read (.lenTail _) => True
  | .claimsBelow tail, .read (.claimsBelow tail') => tail' = tail
  | _, _ => False

/-- What a thread that runs alone has read still holds. -/
def Sees (z : BlockSize) (q : Queue V) : Pc V → Prop
  | .pop (.loadBlock head _) | .pop (.loadState head _ _) => head = q.head.index
  | .pop (.reloadHead head block _) => head = q.head.index ∧
      q.state block (offset z head) ≠ writtenTag (lapOf z head)
  | .read (.emptyTail head) | .read (.lenTail head) => head = q.head.index
  | _ => True

section Counting

/-- The unread values are as many as the indices tell. -/
theorem unread_length [DecidableEq Tid] (h : History cfg τ s g) :
    (unread τ).length = items cfg.size s.queue := by
  have hfst := congrArg List.length (unread_positions h)
  rw [List.length_map] at hfst
  rw [hfst, items, itemsBetween_eq_card]
  rfl

theorem contents_length [DecidableEq Tid] (h : History cfg τ s g) :
    (contents τ).length = items cfg.size s.queue := by
  rw [contents, List.length_map, unread_length h]

/-- The values of positions, when they were claimed with them. -/
theorem values_of_positions {xs : List (ℕ × V)} (h : ∀ c ∈ xs, g.val c.1 = some c.2) :
    (xs.map Prod.fst).map g.val = (xs.map Prod.snd).map some := by
  rw [List.map_map, List.map_map]
  exact List.map_congr_left h

/-- A step appends what it claims to the unread values and drops what it takes. -/
theorem unread_step [DecidableEq Tid] (h : History cfg τ s g)
    (h' : History cfg (τ ++ [(t, l)]) s' g') :
    (unread τ).map Prod.fst ++ (claims l.effect).map Prod.fst =
      takes l.effect ++ (unread (τ ++ [(t, l)])).map Prod.fst := by
  have hclaimed : (claimed (τ ++ [(t, l)])).map Prod.snd =
      (claimed τ).map Prod.snd ++ claims l.effect := by
    simp [claimed]
  have htaken : (taken (τ ++ [(t, l)])).map Prod.snd = (taken τ).map Prod.snd ++ takes l.effect := by
    simp [taken]
  have hlength : (taken (τ ++ [(t, l)])).length = (taken τ).length + (takes l.effect).length := by
    simpa using congrArg List.length htaken
  have hle : (taken τ).length ≤ ((claimed τ).map Prod.snd).length := by
    have hpre := taken_prefix h
    simpa using hpre.length_le
  have hdrop : (unread τ).map Prod.fst ++ (claims l.effect).map Prod.fst =
      ((claimed (τ ++ [(t, l)])).map fun c => c.2.1).drop (taken τ).length := by
    rw [unread, ← List.map_append, ← List.drop_append_of_le_length hle, ← hclaimed, List.map_drop,
      List.map_map]
    rfl
  obtain ⟨rest, hrest⟩ := taken_prefix h'
  have hrest' : rest = (unread (τ ++ [(t, l)])).map Prod.fst := by
    rw [unread, List.map_drop, List.map_map,
      show Prod.fst ∘ Prod.snd = fun c : Tid × ℕ × V => c.2.1 from rfl, ← hrest,
      List.drop_left' (by simp)]
  rw [hdrop, ← hrest, htaken, List.append_assoc, List.drop_left' (by simp), hrest']

end Counting

section Memory

/-- When nobody writes, every claimed position is published. -/
theorem published_of_quiet {vw : Views Tid} (hg : Coherent cfg q vw g)
    (hq : ∀ u, vw.writes u = none) {p : ℕ} :
    g.published p ↔ IsValue cfg.size p ∧ p < q.tail.index := by
  rw [hg.published_iff]
  refine ⟨fun hp => ⟨hp.1, hp.2.1⟩, fun hp => ⟨hp.1, hp.2, fun u hu => ?_⟩⟩
  rw [hq u] at hu
  cases hu

/-- When nobody writes, an untagged slot at the head says that nothing is queued. -/
theorem items_of_untagged {vw : Views Tid} (hg : Coherent cfg q vw g)
    (hq : ∀ u, vw.writes u = none) {block : BlockId} (hv : IsValue cfg.size q.head.index)
    (hb : g.chain (lapOf cfg.size q.head.index) = block)
    (htag : q.state block (offset cfg.size q.head.index) ≠
      writtenTag (lapOf cfg.size q.head.index)) : items cfg.size q = 0 := by
  have hnot : ¬g.published q.head.index := fun hpub => by
    have hunread : ¬g.finished q.head.index := fun hf => Nat.lt_irrefl _ (hg.lt_of_finished hf)
    exact htag (hb ▸ (hg.slot _ hpub hunread).2.2.1)
  refine itemsBetween_of_le (Nat.le_of_not_lt fun hlt => hnot ?_)
  exact (published_of_quiet hg hq).mpr ⟨hv, hlt⟩

/-- Beside a thread that does not write, idle threads do not write either. -/
theorem Alone.quiet (h : Alone s t) (ht : writes z (s.pc t) = none) (u : Tid) :
    (views z s.pc).writes u = none := by
  by_cases hu : u = t
  · exact hu ▸ ht
  · simp [views, writes, h u hu]

end Memory

section Paths

/-- Going on in an operation, a thread goes on in the same kind of operation. -/
theorem goto_of_map {P R P' R' : Type} {f : P → P'} {k : R → R'} {n : Next P R} {p : P'}
    (h : Next.map f k n = .goto p) : ∃ p₀, n = .goto p₀ ∧ f p₀ = p := by
  cases n with
  | goto p₀ => exact ⟨p₀, rfl, Next.goto.inj h⟩
  | ret r | fault => cases h

theorem ret_of_map {P R P' R' : Type} {f : P → P'} {k : R → R'} {n : Next P R} {r : R'}
    (h : Next.map f k n = .ret r) : ∃ r₀, n = .ret r₀ ∧ k r₀ = r := by
  cases n with
  | ret r₀ => exact ⟨r₀, rfl, Next.ret.inj h⟩
  | goto p | fault => cases h

/-- A push goes on with its value. -/
theorem pushValue_exec {pc pc' : PushPc V} (h : (pc.exec z flag fail q).2.1 = .goto pc') :
    pushValue pc' = pushValue pc := by
  cases pc with
  | fetchAdd v expected | casTry v tail failed | casLevel v tail failed | boundedSkip v cap tail
  | boundedHead v cap tail | boundedTry v cap tail | slowStart c block | slowPrev c block
  | takeSpare c block =>
    simp only [PushPc.exec, boundedLoop, found] at h
    (repeat' split at h) <;> cases h <;> rfl
  | takePool c block =>
    simp only [PushPc.exec, takeBlockSlow] at h
    split at h <;> cases h <;> rfl
  | publish c block => cases h
  | _ =>
    simp only [PushPc.exec, boundedLoop, found, Next.goto.injEq] at h
    subst h
    (repeat' split) <;> rfl

/-- `pop_single` goes on as such. -/
theorem once_exec {pc pc' : SinglePc V} {capacity : Option ℕ} (hp : Once pc)
    (h : (pc.exec z capacity flag fail q).2.1 = .goto pc') : Once pc' := by
  cases pc with
  | leave batch pc =>
    cases batch with
    | true => exact hp.elim
    | false =>
      cases pc with
      | advance r =>
        simp only [SinglePc.exec, LeavePc.exec] at h
        cases capacity with
        | none =>
          simp only [advanced] at h
          split at h <;> cases h
          trivial
        | some cap =>
          cases h
          trivial
      | loadNext r | recycleSpare r wake | sample r =>
        simp only [SinglePc.exec, LeavePc.exec, advanced] at h
        split at h <;> cases h
        trivial
      | recyclePool r wake => cases h
      | _ =>
        cases h
        trivial
  | loadHead =>
    cases h
    trivial
  | loadBlock head | loadState head block | readValue head block =>
    simp only [SinglePc.exec] at h
    split at h <;> cases h
    trivial
  | _ => exact hp.elim

theorem within_leaveEntry {n : ℕ} {r : QueueSingle.Run V} (h : r.values.length ≤ n) :
    Within n (.leave true (leaveEntry z r)) := by
  unfold leaveEntry
  split <;> exact h

theorem within_batchLoop {n max : ℕ} {r : QueueSingle.Run V} (hmax : max ≤ n)
    (h : r.values.length ≤ n) : Within n (batchLoop z max r) := by
  unfold batchLoop
  split
  · exact ⟨hmax, h⟩
  · exact within_leaveEntry h

/-- A batch goes on within its limit. -/
theorem within_exec {n : ℕ} {pc pc' : SinglePc V} {capacity : Option ℕ} (hp : Within n pc)
    (hr : ∀ max r, pc = .slotValue max r → r.values.length < max)
    (h : (pc.exec z capacity flag fail q).2.1 = .goto pc') : Within n pc' := by
  cases pc with
  | leave batch pc =>
    cases batch with
    | false => exact hp.elim
    | true =>
      cases pc with
      | advance r =>
        simp only [SinglePc.exec, LeavePc.exec] at h
        cases capacity with
        | none =>
          simp only [advanced] at h
          split at h <;> cases h
          exact hp
        | some cap =>
          cases h
          exact hp
      | loadNext r | recycleSpare r wake | sample r =>
        simp only [SinglePc.exec, LeavePc.exec, advanced] at h
        split at h <;> cases h
        exact hp
      | recyclePool r wake => cases h
      | _ =>
        cases h
        exact hp
  | batchHead limit | batchBlock limit head =>
    simp only [SinglePc.exec] at h
    split at h <;> cases h
    exact hp
  | batchState limit head block =>
    obtain rfl : limit = n := hp
    simp only [SinglePc.exec] at h
    split at h <;> cases h
    exact Nat.min_le_left _ _
  | reserve max head block =>
    simp only [SinglePc.exec] at h
    split at h <;> cases h
    exact within_batchLoop hp (Nat.zero_le n)
  | slotState max r =>
    cases h
    split
    · exact within_leaveEntry hp.2
    · exact hp
  | slotValue max r =>
    have hlt := hr max r rfl
    have hmax : max ≤ n := hp.1
    simp only [SinglePc.exec] at h
    split at h <;> cases h
    refine within_batchLoop hmax ?_
    rw [List.length_append, List.length_singleton]
    omega
  | _ => exact hp.elim

/-- Going on, a thread stays in its operation. -/
theorem carries_exec {op : Op V} {pc pc' : Pc V} {o : Outcome V (Pc V) (Ret V)}
    (hl : Local cfg q g t pc) (h : Carries op pc) (ho : pc.exec cfg flag fail q = some o)
    (hn : o.2.1 = .goto pc') : Carries op pc' := by
  cases pc with
  | idle | fault => cases ho
  | push pc =>
    rw [Pc.exec, Option.some.injEq] at ho
    subst ho
    obtain ⟨p, hp, rfl⟩ := goto_of_map hn
    cases op with
    | push v => exact (pushValue_exec hp).trans h
    | _ => exact h.elim
  | pop pc =>
    rw [Pc.exec, Option.some.injEq] at ho
    subst ho
    obtain ⟨p, -, rfl⟩ := goto_of_map hn
    cases op with
    | pop => trivial
    | _ => exact h.elim
  | single pc =>
    rw [Pc.exec, Option.some.injEq] at ho
    subst ho
    obtain ⟨p, hp, rfl⟩ := goto_of_map hn
    cases op with
    | popSingle => exact once_exec h hp
    | popSingleBatch n =>
      refine within_exec h (fun max r he => ?_) hp
      subst he
      exact hl.2.2.1
    | _ => exact h.elim
  | read pc =>
    rw [Pc.exec, Option.some.injEq] at ho
    subst ho
    obtain ⟨p, hp, rfl⟩ := goto_of_map hn
    cases pc with
    | emptyHead | lenHead =>
      cases hp
      cases op <;> exact h
    | _ => cases hp

/-- The slot state a pop found is the one it goes on with. -/
theorem sees_exec {pc pc' : Pc V} {o : Outcome V (Pc V) (Ret V)} (h : Sees cfg.size q pc)
    (ho : pc.exec cfg flag fail q = some o) (hn : o.2.1 = .goto pc') : Sees cfg.size o.1 pc' := by
  cases pc with
  | idle | fault => cases ho
  | push pc | single pc =>
    rw [Pc.exec, Option.some.injEq] at ho
    subst ho
    obtain ⟨p, -, rfl⟩ := goto_of_map hn
    trivial
  | pop pc =>
    rw [Pc.exec, Option.some.injEq] at ho
    subst ho
    obtain ⟨p, hp, rfl⟩ := goto_of_map hn
    cases pc with
    | loadHead wait =>
      cases hp
      rfl
    | loadBlock head wait =>
      simp only [PopPc.exec, popLoop] at hp ⊢
      (repeat' split at hp) <;> cases hp
      · trivial
      · exact h
    | loadState head block wait =>
      simp only [PopPc.exec, Next.goto.injEq] at hp ⊢
      subst hp
      split
      · rename_i htag
        exact ⟨h, htag⟩
      · trivial
    | reloadHead head block wait =>
      simp only [PopPc.exec] at hp ⊢
      split at hp <;> cases hp
      rfl
    | claim head block wait =>
      simp only [PopPc.exec] at hp ⊢
      split at hp
      · cases hcap : cfg.capacity <;> rw [hcap] at hp <;> cases hp <;> trivial
      · rename_i hc
        rw [if_neg hc]
        cases hp
        rfl
    | readValue k =>
      simp only [PopPc.exec] at hp
      (repeat' split at hp) <;> cases hp <;> trivial
    | loadNext k v | recycleSpare k v =>
      simp only [PopPc.exec] at hp
      split at hp <;> cases hp
      trivial
    | readersDone k v i | resetMark k v i =>
      simp only [PopPc.exec, Next.goto.injEq] at hp
      subst hp
      (repeat' split) <;> trivial
    | markRead k v | retire k v | recyclePool k v => cases hp
    | _ =>
      cases hp
      trivial
  | read pc =>
    rw [Pc.exec, Option.some.injEq] at ho
    subst ho
    obtain ⟨p, hp, rfl⟩ := goto_of_map hn
    cases pc with
    | emptyHead | lenHead =>
      cases hp
      rfl
    | _ => cases hp

end Paths

end Rapidfire.QueueAlone
