import Rapidfire.QueueRest
import Rapidfire.QueueCapacity

/-!
# Blocks of a queue that is used serially

When operations do not overlap, every block a receive leaves behind is free for
the next installation: a block is allocated only when the whole memory of the
queue is in the live chain, so the memory stays at the longest chain there was.
-/

namespace Rapidfire.QueueHighWater

open Positions QueueMemory QueuePush QueuePop QueueSingle QueueMachine QueueCoherence QueueLocal
  QueueInvariant QueueHistory QueueBlocks QueueRest Runs

variable {Tid V : Type} {cfg : Config Tid} {s s' : State Tid V} {g : Ghost Tid V} {t u : Tid}
  {l : Label V} {τ : List (Tid × Label V)} {z : BlockSize} {q : Queue V} {b : BlockId}

/-- Blocks of the live chain, from the head block along `next`. -/
def liveBlocks (q : Queue V) : Option (List BlockId) :=
  releaseChain q.next q.allocated (some q.head.block)

/-- Length of the live chain. -/
def chainLength (q : Queue V) : ℕ := (liveBlocks q).elim 0 List.length

/-- Block whose marks a consumer resets. -/
def resets : Pc V → Option BlockId
  | .pop (.resetMark k _ _) | .pop (.resetStart k _) => some k.block
  | _ => none

/-- What a thread that runs alone knows at its program point: it looks into the
pool when there is no spare block, and allocates when the pool is empty too; no
block is retired, and none is reclaimed from the retired ones. -/
def Thrifty (q : Queue V) : Pc V → Prop
  | .push (.takePool _ _) => q.spare = none
  | .push (.allocate _ _) => q.spare = none ∧ q.pool.ready = []
  | .push (.resetMark _ _ _ _) | .push (.resetStart _ _ _) | .pop (.retire _ _) => False
  | _ => True

/-- Every position of a block that the head has passed is marked read, except the
last one, a position being read, and those of a block being reset. -/
def Marked (cfg : Config Tid) (s : State Tid V) : Prop :=
  ∀ b p, s.queue.start b = some (lapOf cfg.size p * lap cfg.size) → IsValue cfg.size p →
    ¬IsLast cfg.size p → p < s.queue.head.index → (∀ u, reads (s.pc u) ≠ some p) →
    (∀ u, resets (s.pc u) ≠ some b) → s.queue.mark b (offset cfg.size p) = true

section Step

variable [DecidableEq Tid]

/-- A step that no other operation overlaps. -/
def SerialStep (cfg : Config Tid) (s : State Tid V) (l : Tid × Label V) (s' : State Tid V) : Prop :=
  Step cfg s l s' ∧ ∀ u, u ≠ l.1 → s.pc u = .idle

/-- Runs in which operations do not overlap. -/
abbrev SerialRun (cfg : Config Tid) : List (Tid × Label V) → State Tid V → Prop :=
  Run (SerialStep cfg) (State.init Tid V)

theorem reach_of_serial (h : SerialRun cfg τ s) : Reach cfg τ s :=
  h.mono fun _ _ _ hs => hs.1

end Step

section Thrift

variable {flag : ℕ} {fail : Bool}

/-- A push that runs alone neither retires nor reclaims a block. -/
theorem push_thrifty {pc : PushPc V} (hr : q.pool.retired = []) (h : Thrifty q (.push pc)) :
    (pc.exec z flag fail q).1.pool.retired = [] ∧
      ∀ pc', (pc.exec z flag fail q).2.1 = .goto pc' →
        Thrifty (pc.exec z flag fail q).1 (.push pc') := by
  cases pc with
  | takeSpare c block =>
    cases hs : q.spare with
    | some b =>
      refine ⟨by simpa [PushPc.exec, hs] using hr, fun pc' hn => ?_⟩
      simp only [PushPc.exec, hs, Next.goto.injEq] at hn
      subst hn
      trivial
    | none =>
      refine ⟨by simpa [PushPc.exec, hs] using hr, fun pc' hn => ?_⟩
      simp only [PushPc.exec, hs, Next.goto.injEq] at hn ⊢
      subst hn
      exact hs
  | takePool c block =>
    have hs : q.spare = none := h
    cases hl : q.pool.ready.getLast? with
    | some b =>
      refine ⟨by simp [PushPc.exec, takeBlockSlow, hl, hr], fun pc' hn => ?_⟩
      simp only [PushPc.exec, takeBlockSlow, hl, Next.goto.injEq] at hn
      subst hn
      trivial
    | none =>
      refine ⟨by simp [PushPc.exec, takeBlockSlow, hl, hr], fun pc' hn => ?_⟩
      simp only [PushPc.exec, takeBlockSlow, hl, hr, List.find?_nil, Next.goto.injEq] at hn ⊢
      subst hn
      exact ⟨hs, List.getLast?_eq_none_iff.mp hl⟩
  | resetMark c block next i => exact h.elim
  | resetStart c block next => exact h.elim
  | fetchAdd v expected | casTry v tail failed | casLevel v tail failed | boundedSkip v cap tail
  | boundedHead v cap tail | boundedTry v cap tail | slowStart c block | slowPrev c block =>
    simp only [PushPc.exec, boundedLoop, found]
    (repeat' split) <;> exact ⟨hr, fun pc' hn => by cases hn <;> trivial⟩
  | _ =>
    refine ⟨hr, fun pc' hn => ?_⟩
    simp only [PushPc.exec, boundedLoop, found, Next.goto.injEq] at hn
    (repeat' split at hn) <;> first
      | subst hn
        trivial
      | cases hn

/-- A pop that meets no unmarked position retires nothing. -/
theorem pop_thrifty {pc : PopPc V} {capacity : Option ℕ} (hr : q.pool.retired = [])
    (h : Thrifty q (.pop pc))
    (hm : ∀ k v i, pc = .readersDone k v i → q.mark k.block i = true) :
    (pc.exec z capacity flag fail q).1.pool.retired = [] ∧
      ∀ pc', (pc.exec z capacity flag fail q).2.1 = .goto pc' →
        Thrifty (pc.exec z capacity flag fail q).1 (.pop pc') := by
  cases pc with
  | retire k v => exact h.elim
  | readersDone k v i =>
    refine ⟨hr, fun pc' hn => ?_⟩
    simp only [PopPc.exec, hm k v i rfl, Next.goto.injEq] at hn
    (repeat' split at hn) <;> subst hn <;> trivial
  | claim head block wait | readValue k | loadNext k v | recycleSpare k v =>
    simp only [PopPc.exec]
    (repeat' split) <;> exact ⟨hr, fun pc' hn => by cases hn <;> trivial⟩
  | _ =>
    refine ⟨hr, fun pc' hn => ?_⟩
    simp only [PopPc.exec, popLoop] at hn
    (repeat' split at hn) <;> cases hn <;> trivial

/-- An exclusive receive retires nothing. -/
theorem single_retires {pc : SinglePc V} {capacity : Option ℕ} (hr : q.pool.retired = []) :
    (pc.exec z capacity flag fail q).1.pool.retired = [] := by
  cases pc with
  | leave batch pc =>
    cases pc with
    | loadNext r | recycleSpare r wake =>
      simp only [SinglePc.exec, LeavePc.exec]
      split <;> exact hr
    | advance r =>
      simp only [SinglePc.exec, LeavePc.exec]
      cases capacity <;> exact hr
    | _ => exact hr
  | readValue head block | slotValue max r =>
    simp only [SinglePc.exec]
    split <;> exact hr
  | _ => exact hr

end Thrift

section Marks

variable {flag : ℕ} {fail : Bool} {q' : Queue V} {pc' : Pc V}

/-- What the new program point still owes follows from what was owed before, or
is marked by the step. -/
theorem Marked.next [DecidableEq Tid] (hm : Marked cfg s)
    (hk : ∀ b p, q'.start b = some (lapOf cfg.size p * lap cfg.size) → IsValue cfg.size p →
      ¬IsLast cfg.size p → p < q'.head.index → reads pc' ≠ some p → resets pc' ≠ some b →
      q'.mark b (offset cfg.size p) = true ∨
        s.queue.start b = some (lapOf cfg.size p * lap cfg.size) ∧ p < s.queue.head.index ∧
          reads (s.pc t) ≠ some p ∧ resets (s.pc t) ≠ some b ∧
          q'.mark b (offset cfg.size p) = s.queue.mark b (offset cfg.size p)) :
    Marked cfg ⟨q', Function.update s.pc t pc'⟩ := by
  intro b p hs hv hl hp hr hb
  have hrt := hr t
  have hbt := hb t
  simp only [Function.update_self] at hrt hbt
  rcases hk b p hs hv hl hp hrt hbt with hmark | ⟨hs', hp', hr', hb', hmark⟩
  · exact hmark
  · refine hmark.trans (hm b p hs' hv hl hp' (fun u => ?_) fun u => ?_)
    · by_cases hu : u = t
      · exact hu ▸ hr'
      · simpa [hu] using hr u
    · by_cases hu : u = t
      · exact hu ▸ hb'
      · simpa [hu] using hb u

/-- Blocks that a thrifty push marks or starts. -/
theorem push_marks (z : BlockSize) (flag : ℕ) (fail : Bool) {pc : PushPc V}
    (h : Thrifty q (.push pc)) :
    ((pc.exec z flag fail q).1.start = q.start ∧ (pc.exec z flag fail q).1.mark = q.mark) ∨
      (∃ c block, pc = .allocate c block) ∨ ∃ c block next, pc = .storeStart c block next := by
  cases pc with
  | allocate c block => exact .inr (.inl ⟨c, block, rfl⟩)
  | storeStart c block next => exact .inr (.inr ⟨c, block, next, rfl⟩)
  | resetMark c block next i => exact h.elim
  | resetStart c block next => exact h.elim
  | takePool c block =>
    left
    simp only [PushPc.exec, takeBlockSlow]
    split <;> exact ⟨rfl, rfl⟩
  | fetchAdd v expected | casTry v tail failed | casLevel v tail failed | boundedSkip v cap tail
  | boundedHead v cap tail | boundedTry v cap tail | slowStart c block | slowPrev c block
  | takeSpare c block =>
    left
    simp only [PushPc.exec]
    (repeat' split) <;> exact ⟨rfl, rfl⟩
  | _ => exact .inl ⟨rfl, rfl⟩

variable [DecidableEq Tid]

/-- A thrifty push leaves the marks of the passed positions alone. -/
theorem marked_push {pc : PushPc V} (h : Inv cfg s g) (hm : Marked cfg s)
    (hpc : s.pc t = .push pc) (hth : Thrifty s.queue (.push pc)) {p' : Pc V} :
    Marked cfg ⟨(pc.exec cfg.size flag fail s.queue).1, Function.update s.pc t p'⟩ := by
  refine hm.next fun b p hs hv hl hp _ _ => .inr ?_
  have hhead : (pc.exec cfg.size flag fail s.queue).1.head = s.queue.head :=
    QueuePairing.push_head
  rw [hhead] at hp
  rw [hpc]
  rcases push_marks cfg.size flag fail hth with ⟨hstart, hmark⟩ |
    ⟨c, block, rfl⟩ | ⟨c, block, next, rfl⟩
  · rw [hstart] at hs
    exact ⟨hs, hp, by simp [reads], by simp [resets], by rw [hmark]⟩
  · simp only [PushPc.exec, Queue.alloc] at hs ⊢
    by_cases hb : b = s.queue.allocated
    · simp [hb] at hs
    · rw [Function.update_of_ne hb] at hs
      exact ⟨hs, hp, by simp [reads], by simp [resets], by rw [Function.update_of_ne hb]⟩
  · simp only [PushPc.exec, Queue.start_setStart] at hs
    by_cases hb : b = next
    · rw [hb, Function.update_self, lapStart_eq, Option.some.injEq, ← Nat.succ_mul] at hs
      have hlap := mul_lap_injective hs
      have htail := (h.coherent.writes_spec t c.tail (QueuePushSteps.view_writes cfg hpc)).2.1
      have hmono := lapOf_mono (z := cfg.size) (show p ≤ c.tail by omega)
      omega
    · rw [Function.update_of_ne hb] at hs
      exact ⟨hs, hp, by simp [reads], by simp [resets], rfl⟩

/-- A pop marks what it has read, and resets only marks of its own block. -/
theorem marked_pop {pc : PopPc V} (h : Inv cfg s g) (hm : Marked cfg s)
    (hpc : s.pc t = .pop pc) (hth : Thrifty s.queue (.pop pc))
    (hf : (pc.exec cfg.size cfg.capacity flag fail s.queue).2.1 ≠ .fault) :
    Marked cfg ⟨(pc.exec cfg.size cfg.capacity flag fail s.queue).1, Function.update s.pc t
      (nextPc ((pc.exec cfg.size cfg.capacity flag fail s.queue).2.1.map .pop Ret.pop))⟩ := by
  obtain ⟨hx, hl⟩ : cfg.exclusive = none ∧ PopLocal cfg s.queue g pc := by
    have hl := h.assertion t
    rwa [hpc] at hl
  have hnone {n : ℕ} : (none : Option ℕ) ≠ some n := (Option.some_ne_none n).symm
  refine hm.next fun b p hs hv hlast hp hr hb => ?_
  rw [hpc]
  cases pc with
  | loadHead wait | loadState head block wait =>
    exact .inr ⟨hs, hp, hnone, hnone, rfl⟩
  | loadBlock head wait =>
    exact .inr ⟨hs, hp, hnone, hnone, rfl⟩
  | reloadHead head block wait =>
    exact .inr ⟨hs, hp, hnone, hnone, rfl⟩
  | claim head block wait =>
    by_cases hc : s.queue.head.index = head ∧ fail = false
    · simp only [PopPc.exec, hc, and_self, if_true] at hs hp hr ⊢
      have hne : p ≠ head := by
        rintro rfl
        refine hr ?_
        cases cfg.capacity <;> rfl
      exact .inr ⟨hs, by omega, hnone, hnone, trivial⟩
    · simp only [PopPc.exec, hc, if_false] at hs hp ⊢
      exact .inr ⟨hs, hp, hnone, hnone, trivial⟩
  | sample head block => exact .inr ⟨hs, hp, hr, hnone, rfl⟩
  | readValue k =>
    cases hval : s.queue.value k.block (offset cfg.size k.head) with
    | none => exact absurd (by simp [PopPc.exec, hval]) hf
    | some v =>
      simp only [PopPc.exec, hval] at hs hp hr ⊢
      refine .inr ⟨hs, hp, fun he => hr ?_, hnone, trivial⟩
      split <;> exact he
  | markRead k v =>
    obtain ⟨⟨⟨-, hblock⟩, -⟩, -, -⟩ := hl
    by_cases hpk : p = k.head
    · left
      obtain ⟨L, -, he, rfl⟩ := h.coherent.chain_start b _ hs
      obtain rfl := mul_lap_injective he
      subst hpk
      simp only [PopPc.exec, Queue.mark_setMark]
      rw [hblock, Function.update_self, Function.update_self]
    · by_cases hb' : b = k.block ∧ offset cfg.size p = offset cfg.size k.head
      · left
        simp only [PopPc.exec, Queue.mark_setMark]
        rw [hb'.1, hb'.2, Function.update_self, Function.update_self]
      · refine .inr ⟨hs, hp, fun he => hpk (Option.some.inj he).symm, hnone, ?_⟩
        simp only [PopPc.exec, Queue.mark_setMark]
        by_cases hblk : b = k.block
        · subst hblk
          rw [Function.update_self, Function.update_of_ne fun ho => hb' ⟨rfl, ho⟩]
        · rw [Function.update_of_ne hblk]
  | loadNext k v =>
    cases hnext : s.queue.next k.block with
    | none => exact absurd (by simp [PopPc.exec, hnext]) hf
    | some n =>
      simp only [PopPc.exec, hnext] at hs hp hr ⊢
      exact .inr ⟨hs, hp, hr, hnone, trivial⟩
  | storeBlock k v next => exact .inr ⟨hs, hp, hr, hnone, rfl⟩
  | swapIndex k v =>
    obtain ⟨-, hlastk, hhead, -⟩ := hl
    have hsentinel := (isLast_iff.mp hlastk).2
    have hp' : p < k.head + 2 := hp
    have hne : p ≠ k.head := fun he => hlast (he ▸ hlastk)
    have hne' : p ≠ k.head + 1 := fun he => hsentinel (he ▸ hv)
    exact .inr ⟨hs, by omega, fun he => hne (Option.some.inj he).symm, hnone, rfl⟩
  | readersDone k v i => exact .inr ⟨hs, hp, hnone, hnone, rfl⟩
  | retire k v => exact hth.elim
  | resetMark k v i =>
    have hne : b ≠ k.block := by
      rintro rfl
      refine hb ?_
      simp only [PopPc.exec]
      split <;> rfl
    refine .inr ⟨hs, hp, hnone, fun he => hne (Option.some.inj he).symm, ?_⟩
    simp only [PopPc.exec, Queue.mark_setMark]
    rw [Function.update_of_ne hne]
  | resetStart k v =>
    simp only [PopPc.exec, Queue.start_setStart] at hs
    have hne : b ≠ k.block := by
      rintro rfl
      rw [Function.update_self] at hs
      cases hs
    rw [Function.update_of_ne hne] at hs
    exact .inr ⟨hs, hp, hnone, fun he => hne (Option.some.inj he).symm, rfl⟩
  | recycleSpare k v =>
    cases hspare : s.queue.spare <;> simp only [PopPc.exec, hspare] at hs hp ⊢ <;>
      exact .inr ⟨hs, hp, hnone, hnone, trivial⟩
  | recyclePool k v => exact .inr ⟨hs, hp, hnone, hnone, rfl⟩

/-- A thread that runs alone finds every mark of the block it leaves. -/
theorem marked_readers {k : Taken} {v : V} {i : ℕ} (h : Inv cfg s g) (hm : Marked cfg s)
    (halone : ∀ u, u ≠ t → s.pc u = .idle) (hpc : s.pc t = .pop (.readersDone k v i)) :
    s.queue.mark k.block i = true := by
  obtain ⟨-, ⟨-, hlast, hfin, -, hstart⟩, hi, -⟩ :
      cfg.exclusive = none ∧ PopLocal cfg s.queue g (.readersDone k v i) := by
    have hl := h.assertion t
    rwa [hpc] at hl
  have hcap := blockCap_add_one (z := cfg.size)
  have hlt : i < lap cfg.size := by omega
  have hlap := lapOf_mul_add (z := cfg.size) (L := lapOf cfg.size k.head) hlt
  have hoff := offset_mul_add (z := cfg.size) (L := lapOf cfg.size k.head) hlt
  have hhead := h.coherent.lt_of_finished hfin
  have hpos := lapOf_mul_add_offset cfg.size k.head
  have hle : offset cfg.size k.head + 1 = blockCap cfg.size := hlast
  have hquiet : ∀ u, reads (s.pc u) = none ∧ resets (s.pc u) = none := by
    intro u
    by_cases hu : u = t
    · rw [hu, hpc]
      exact ⟨rfl, rfl⟩
    · rw [halone u hu]
      exact ⟨rfl, rfl⟩
  have hmark := hm k.block (lapOf cfg.size k.head * lap cfg.size + i) (by rw [hlap, hstart])
    (isValue_iff.mpr (by rw [hoff]; omega)) (fun hl => by rw [IsLast, hoff] at hl; omega) (by omega)
    (fun u => by simp [(hquiet u).1]) fun u => by simp [(hquiet u).2]
  rwa [hoff] at hmark

/-- What a serially used queue keeps: no block is retired, every thread knows
what it needs at its program point, and the passed positions are marked. -/
structure Frugal (cfg : Config Tid) (s : State Tid V) : Prop where
  retired : s.queue.pool.retired = []
  thrifty : ∀ u, Thrifty s.queue (s.pc u)
  marked : cfg.exclusive = none → Marked cfg s

/-- Only the thread that moves has something to know. -/
theorem thrifty_next {q' : Queue V} {pc' : Pc V} (halone : ∀ u, u ≠ t → s.pc u = .idle)
    (h : Thrifty q' pc') (u : Tid) : Thrifty q' (Function.update s.pc t pc' u) := by
  by_cases hu : u = t
  · rw [hu, Function.update_self]
    exact h
  · rw [Function.update_of_ne hu, halone u hu]
    trivial

omit [DecidableEq Tid] in
/-- The end of an operation leaves nothing to know. -/
theorem thrifty_goto {P R : Type} {q' : Queue V} {n : Next P R} {f : P → Pc V} {r : R → Ret V}
    (h : ∀ pc', n = .goto pc' → Thrifty q' (f pc')) : Thrifty q' (nextPc (n.map f r)) := by
  cases n with
  | goto pc' => exact h pc' rfl
  | _ => trivial

/-- A serial step keeps the queue frugal. -/
theorem Frugal.step (h : Frugal cfg s) (hg : Inv cfg s g) (hs : SerialStep cfg s (t, l) s') :
    Frugal cfg s' := by
  obtain ⟨hs, halone⟩ := hs
  rcases step_cases hs with ⟨op, -, hidle, -, rfl⟩ | ⟨flag, fail, o, ho, -, rfl⟩
  · have hquiet : reads (op.entry cfg.capacity : Pc V) = none ∧
        resets (op.entry cfg.capacity : Pc V) = none ∧
        Thrifty s.queue (op.entry cfg.capacity : Pc V) := by
      cases op with
      | push v =>
        refine ⟨rfl, rfl, ?_⟩
        unfold Op.entry PushPc.entry
        cases cfg.capacity <;> trivial
      | _ => exact ⟨rfl, rfl, trivial⟩
    obtain ⟨hreads, hresets, hthrifty⟩ := hquiet
    refine ⟨h.retired, thrifty_next halone hthrifty, fun hx => (h.marked hx).next ?_⟩
    intro b p hs hv hl hp _ _
    exact .inr ⟨hs, hp, by simp [hidle, reads], by simp [hidle, resets], rfl⟩
  · obtain ⟨g', hg'⟩ := QueueInvariant.exec_steps hg ho
    have hsound := hg'.sound
    have hth := h.thrifty t
    cases hpc : s.pc t with
    | idle | fault => simp [hpc, Pc.exec] at ho
    | push pc =>
      rw [hpc, Pc.exec, Option.some.injEq] at ho
      rw [hpc] at hth
      subst ho
      obtain ⟨hretired, hnext⟩ := push_thrifty (z := cfg.size) h.retired hth
      exact ⟨hretired, thrifty_next halone (thrifty_goto hnext),
        fun hx => marked_push hg (h.marked hx) hpc hth⟩
    | pop pc =>
      rw [hpc, Pc.exec, Option.some.injEq] at ho
      rw [hpc] at hth
      subst ho
      have hx : cfg.exclusive = none := by
        have hl := hg.assertion t
        rw [hpc] at hl
        exact hl.1
      obtain ⟨hretired, hnext⟩ := pop_thrifty (z := cfg.size) h.retired hth
        fun k v i hk => marked_readers hg (h.marked hx) halone (hpc.trans (congrArg Pc.pop hk))
      refine ⟨hretired, thrifty_next halone (thrifty_goto hnext),
        fun hx => marked_pop hg (h.marked hx) hpc hth fun hn => hsound ?_⟩
      simp only [hn, Next.map]
    | single pc =>
      rw [hpc, Pc.exec, Option.some.injEq] at ho
      subst ho
      have hx : cfg.exclusive = some t := by
        have hl := hg.assertion t
        rw [hpc] at hl
        exact hl.1
      exact ⟨single_retires h.retired, thrifty_next halone (thrifty_goto fun _ _ => trivial),
        fun hnone => absurd (hnone.symm.trans hx) (by simp)⟩
    | read pc =>
      rw [hpc, Pc.exec, Option.some.injEq] at ho
      subst ho
      have hq : (pc.exec cfg.size cfg.capacity s.queue).1 = s.queue := by cases pc <;> rfl
      simp only [hq]
      refine ⟨h.retired, thrifty_next halone (thrifty_goto fun _ _ => trivial),
        fun hx => (h.marked hx).next fun b p hs hv hl hp _ _ => .inr ⟨hs, hp, ?_, ?_, rfl⟩⟩
      · simp [hpc, reads]
      · simp [hpc, resets]

/-- Every serial run keeps the queue frugal. -/
theorem serial_frugal (h : SerialRun cfg τ s) : Frugal cfg s := by
  refine h.invariant (P := fun _ s => Frugal cfg s) ⟨rfl, fun _ => ?_, fun _ => ?_⟩ ?_
  · trivial
  · exact fun b p _ _ _ hp => absurd hp (Nat.not_lt_zero p)
  · rintro τ s ⟨t, l⟩ s' hr ih hs
    obtain ⟨g, hg⟩ := reach_inv (reach_of_serial hr)
    exact ih.step hg hs

end Marks

section Chain

/-- The walk along the chain takes at most as many steps as it is given. -/
theorem releaseChain_length {next : BlockId → Option BlockId} {n : ℕ} {start : Option BlockId}
    {blocks : List BlockId} (h : releaseChain next n start = some blocks) : blocks.length ≤ n := by
  induction n generalizing start blocks with
  | zero =>
    cases start with
    | none =>
      obtain rfl := Option.some.inj h
      exact le_rfl
    | some b => cases h
  | succ n ih =>
    cases start with
    | none =>
      obtain rfl := Option.some.inj h
      exact Nat.zero_le _
    | some b =>
      obtain ⟨rest, hrest, rfl⟩ := Option.map_eq_some_iff.mp h
      have hlen := ih hrest
      rw [List.length_cons]
      omega

/-- The live chain is never longer than the memory of the queue. -/
theorem chainLength_le (q : Queue V) : chainLength q ≤ q.allocated := by
  unfold chainLength
  cases h : liveBlocks q with
  | none => exact Nat.zero_le _
  | some blocks => exact releaseChain_length h

/-- The walk along the chain ends, also while a block is being linked. -/
theorem live_isSome (h : Inv cfg s g) : (liveBlocks s.queue).isSome := by
  have hwalk : ∀ n L, g.headLap ≤ L → L < g.laps → g.laps ≤ L + n →
      (releaseChain s.queue.next n (some (g.chain L))).isSome := by
    intro n
    induction n with
    | zero => exact fun L _ hL hn => absurd hL (by omega)
    | succ n ih =>
      intro L hL hlt hn
      rw [releaseChain, Option.isSome_map]
      cases hnext : s.queue.next (g.chain L) with
      | none => cases n <;> rfl
      | some b =>
        rcases Nat.lt_or_ge (L + 1) g.laps with hlt' | hge
        · rw [h.coherent.next_live L b hL hlt' hnext]
          exact ih (L + 1) (by omega) hlt' (by omega)
        · rw [show L = g.laps - 1 by omega, h.coherent.next_last] at hnext
          cases hnext
  have hlt := h.coherent.headLap_lt
  have hle := live_le_allocated h
  rw [liveBlocks, h.coherent.head_block]
  exact hwalk _ _ le_rfl hlt (by omega)

/-- At rest the live chain has a block for every lap from the head on. -/
theorem chainLength_eq (h : Inv cfg s g) (hrest : Rest s) :
    chainLength s.queue = g.laps - g.headLap := by
  have hlt := h.coherent.headLap_lt
  rw [chainLength, liveBlocks, release_live h hrest.stage]
  simp only [Option.elim_some, liveChain, List.length_map, List.length_range]
  omega

/-- At rest every allocated block is in the chain, spare, ready or retired. -/
theorem allocated_eq (h : Inv cfg s g) (hrest : Rest s) : s.queue.allocated =
    chainLength s.queue + s.queue.spare.toList.length + s.queue.pool.ready.length +
      s.queue.pool.retired.length := by
  obtain ⟨values, blocks, hdrop, hperm⟩ := drop_releases h hrest
  have hlen := hperm.length_eq
  rw [dropQueue, releaseAll, release_live h hrest.stage] at hdrop
  obtain ⟨-, rfl⟩ := Prod.mk.inj (Option.some.inj hdrop)
  simp only [List.length_append, List.length_range] at hlen
  rw [chainLength, liveBlocks, release_live h hrest.stage, Option.elim_some]
  omega

/-- At rest a chain of more than one block needs values to fill all but its two
ends. -/
theorem chainLength_queued (h : Inv cfg s g) (hrest : Rest s)
    (hv : IsValue cfg.size s.queue.head.index)
    (hlap : lapOf cfg.size s.queue.head.index = g.headLap) :
    chainLength s.queue ≤
      (itemsBetween cfg.size s.queue.head.index s.queue.tail.index + blockCap cfg.size - 1) /
        blockCap cfg.size + 1 := by
  rw [chainLength_eq h hrest]
  have hlt := h.coherent.headLap_lt
  rcases Nat.lt_or_ge (g.headLap + 1) g.laps with hmore | hone
  · obtain ⟨k, hk⟩ : ∃ k, g.laps = g.headLap + k + 2 := ⟨g.laps - g.headLap - 2, by omega⟩
    have hcap := blockCap_add_one (z := cfg.size)
    have hone := one_lt_blockCap (z := cfg.size)
    -- the last position of the lap before the last one is claimed
    have hi : blockCap cfg.size - 1 < lap cfg.size := by omega
    have hlap' := lapOf_mul_add (z := cfg.size) (L := g.headLap + k) hi
    have hoff' := offset_mul_add (z := cfg.size) (L := g.headLap + k) hi
    have hclaimed := h.coherent.last_claimed _ (show IsLast cfg.size _ by rw [IsLast, hoff']; omega)
      (by rw [hlap']; omega)
    have hsentinel := lapOf_mul_add (z := cfg.size) (L := g.headLap + k)
      (show blockCap cfg.size < lap cfg.size by omega)
    have hpos := lapOf_mul_add_offset cfg.size s.queue.head.index
    have hoff := isValue_iff.mp hv
    have hmono := itemsBetween_mono_right (z := cfg.size) (h := s.queue.head.index)
      (show (g.headLap + k) * lap cfg.size + blockCap cfg.size ≤ s.queue.tail.index by omega)
    rw [hlap] at hpos
    have hexpand : (g.headLap + k) * lap cfg.size =
        g.headLap * lap cfg.size + k * blockCap cfg.size + k := by
      rw [Nat.add_mul, ← hcap, Nat.mul_succ k]
      omega
    rw [itemsBetween_eq_sub (by omega), hsentinel, hlap] at hmono
    have hblocks : k + 1 ≤ (itemsBetween cfg.size s.queue.head.index s.queue.tail.index +
        blockCap cfg.size - 1) / blockCap cfg.size := by
      rw [Nat.le_div_iff_mul_le (by omega), Nat.succ_mul]
      omega
    omega
  · have hone' : g.laps - g.headLap ≤ 1 := by omega
    exact hone'.trans (Nat.le_add_left 1 _)

end Chain

section Peak

variable [DecidableEq Tid] {flag : ℕ} {fail : Bool}

/-- The run passes through the state. -/
def Passes (cfg : Config Tid) (τ : List (Tid × Label V)) (s m : State Tid V) : Prop :=
  ∃ τ₁ τ₂, τ = τ₁ ++ τ₂ ∧ SerialRun cfg τ₁ m ∧ Run (SerialStep cfg) m τ₂ s

/-- At some moment without an operation in flight the live chain had as many
blocks as are allocated now. -/
def Peaked (cfg : Config Tid) (τ : List (Tid × Label V)) (s : State Tid V) : Prop :=
  ∃ m, Passes cfg τ s m ∧ Rest m ∧ chainLength m.queue = s.queue.allocated

/-- A run passes through the state it has reached. -/
theorem passes_now (h : SerialRun cfg τ s) : Passes cfg τ s s :=
  ⟨τ, [], (List.append_nil τ).symm, h, .refl⟩

theorem Passes.tail {m : State Tid V} (h : Passes cfg τ s m) (hs : SerialStep cfg s (t, l) s') :
    Passes cfg (τ ++ [(t, l)]) s' m := by
  obtain ⟨τ₁, τ₂, rfl, hm, hrun⟩ := h
  exact ⟨τ₁, τ₂ ++ [(t, l)], List.append_assoc _ _ _, hm, hrun.tail hs⟩

/-- A push that has taken the next block and not returned. -/
def installs : Pc V → Bool
  | .push (.storePrev _ _ _) | .push (.storeNext _ _ _) | .push (.storeStart _ _ _)
  | .push (.linkNext _ _ _) | .push (.storeTail _ _ _) | .push (.writeValue _ _)
  | .push (.publish _ _) => true
  | _ => false

/-- A push is about to finish with every block in the chain. -/
def Exhausted (s : State Tid V) : Prop :=
  s.queue.spare = none ∧ s.queue.pool.ready = [] ∧ ∃ u, installs (s.pc u) = true

omit [DecidableEq Tid] in
/-- An installing push goes on with its block, or returns. -/
theorem installs_exec {pc : Pc V} {o : Outcome V (Pc V) (Ret V)} (hi : installs pc = true)
    (ho : pc.exec cfg flag fail q = some o) :
    o.1.spare = q.spare ∧ o.1.pool = q.pool ∧ o.1.allocated = q.allocated ∧
      (installs (nextPc o.2.1) = true ∨ nextPc o.2.1 = .idle) := by
  cases pc with
  | push pc =>
    obtain rfl := Option.some.inj ho
    cases pc with
    | storePrev c block next | storeNext c block next | storeStart c block next
    | linkNext c block next | storeTail c block next | writeValue c block =>
      exact ⟨rfl, rfl, rfl, .inl rfl⟩
    | publish c block => exact ⟨rfl, rfl, rfl, .inr rfl⟩
    | _ => cases hi
  | _ => cases hi

omit [DecidableEq Tid] in
/-- Only `allocate` allocates. -/
theorem exec_allocated {pc : Pc V} {o : Outcome V (Pc V) (Ret V)}
    (ho : pc.exec cfg flag fail q = some o) :
    o.1.allocated = q.allocated ∨ ∃ c block, pc = .push (.allocate c block) ∧
      o.1.allocated = q.allocated + 1 ∧ o.1.spare = q.spare ∧ o.1.pool = q.pool ∧ installs (nextPc o.2.1) = true := by
  cases pc with
  | idle | fault => cases ho
  | push pc =>
    obtain rfl := Option.some.inj ho
    cases pc with
    | allocate c block => exact .inr ⟨c, block, rfl, rfl, rfl, rfl, rfl⟩
    | takePool c block =>
      left
      simp only [takeBlockSlow]
      split <;> rfl
    | fetchAdd v expected | casTry v tail failed | casLevel v tail failed | boundedSkip v cap tail
    | boundedHead v cap tail | boundedTry v cap tail | slowStart c block | slowPrev c block
    | takeSpare c block =>
      left
      dsimp only
      (repeat' split) <;> rfl
    | _ => exact .inl rfl
  | pop pc =>
    obtain rfl := Option.some.inj ho
    left
    cases pc with
    | claim head block wait | readValue k | loadNext k v | recycleSpare k v =>
      dsimp only
      split <;> rfl
    | _ => rfl
  | single pc =>
    obtain rfl := Option.some.inj ho
    left
    cases pc with
    | leave batch pc =>
      cases pc with
      | loadNext r | recycleSpare r wake =>
        simp only [LeavePc.exec]
        split <;> rfl
      | advance r =>
        simp only [LeavePc.exec]
        cases cfg.capacity <;> rfl
      | _ => rfl
    | readValue head block | slotValue max r =>
      dsimp only
      split <;> rfl
    | _ => rfl
  | read pc =>
    obtain rfl := Option.some.inj ho
    cases pc <;> exact .inl rfl

/-- In every serial run, the allocated blocks are those of the longest chain, or
a push is about to make the chain that long. -/
theorem peaked_or_exhausted (h : SerialRun cfg τ s) : Peaked cfg τ s ∨ Exhausted s := by
  refine h.invariant (P := fun τ s => Peaked cfg τ s ∨ Exhausted s)
    (.inl ⟨_, passes_now .refl, fun _ => rfl, rfl⟩) ?_
  rintro τ s ⟨t, l⟩ s' hr ih hs
  have hserial := hr.tail hs
  have hkeep : s'.queue.allocated = s.queue.allocated → Peaked cfg τ s →
      Peaked cfg (τ ++ [(t, l)]) s' := by
    rintro ha ⟨m, hm, hrest, hlen⟩
    exact ⟨m, hm.tail hs, hrest, hlen.trans ha.symm⟩
  obtain ⟨hstep, halone⟩ := hs
  rcases step_cases hstep with ⟨op, -, hidle, -, rfl⟩ | ⟨flag, fail, o, ho, -, rfl⟩
  · rcases ih with hp | ⟨-, -, u, hu⟩
    · exact .inl (hkeep rfl hp)
    · by_cases hut : u = t
      · rw [hut, hidle] at hu
        cases hu
      · rw [halone u hut] at hu
        cases hu
  · rcases ih with hp | ⟨hspare, hready, u, hu⟩
    · rcases exec_allocated ho with ha | ⟨c, block, hpc, -, hspare, hpool, hinst⟩
      · exact .inl (hkeep ha hp)
      · obtain ⟨hs0, hr0⟩ : s.queue.spare = none ∧ s.queue.pool.ready = [] := by
          have hth := (serial_frugal hr).thrifty t
          rwa [hpc] at hth
        exact .inr ⟨hspare.trans hs0, by rw [hpool]; exact hr0, t, by simpa using hinst⟩
    · obtain rfl : u = t := by
        by_contra hut
        rw [halone u hut] at hu
        cases hu
      obtain ⟨hspare', hpool', -, hinst | hidle⟩ := installs_exec hu ho
      · exact .inr ⟨hspare'.trans hspare, by rw [hpool']; exact hready, u, by simpa using hinst⟩
      · have hrest : Rest (⟨o.1, Function.update s.pc u (nextPc o.2.1)⟩ : State Tid V) := by
          intro w
          by_cases hw : w = u
          · simp [hw, hidle]
          · simp [hw, halone w hw]
        obtain ⟨g, hg⟩ := reach_inv (reach_of_serial hserial)
        have halloc := allocated_eq hg hrest
        simp only [hspare'.trans hspare, hpool', hready, (serial_frugal hr).retired,
          Option.toList_none, List.length_nil, Nat.add_zero] at halloc
        exact .inl ⟨_, passes_now hserial, hrest, halloc.symm⟩

/-- The memory of the queue never shrinks. -/
theorem allocated_mono {m : State Tid V} (h : Run (SerialStep cfg) m τ s) :
    m.queue.allocated ≤ s.queue.allocated := by
  refine h.stateInvariant (P := fun s => m.queue.allocated ≤ s.queue.allocated) le_rfl ?_
  rintro s ⟨t, l⟩ s' ih ⟨hs, -⟩
  rcases step_cases hs with ⟨op, -, -, -, rfl⟩ | ⟨flag, fail, o, ho, -, rfl⟩
  · exact ih
  · rcases exec_allocated ho with ha | ⟨c, block, -, ha, -⟩
    · exact ih.trans ha.ge
    · exact ih.trans (by simp [ha])

/-- Memory of a queue whose operations do not overlap. The chain was never longer
than the memory, and at some moment without an operation it was all of it; the
allocated blocks are at most what the largest number of values queued at any time
fills, and one more, so a bounded queue stays within its capacity; no block is
retired, and what is not in the chain is spare or ready for the next push. -/
theorem blocks_at_high_water (h : SerialRun cfg τ s) (hrest : Rest s) :
    (∀ m, Passes cfg τ s m →
      (liveBlocks m.queue).isSome ∧ chainLength m.queue ≤ s.queue.allocated) ∧
    Peaked cfg τ s ∧
    (∀ n, (∀ m, Passes cfg τ s m → (QueueCapacity.outstanding cfg.size m.queue).card ≤ n) →
      s.queue.allocated ≤ (n + blockCap cfg.size - 1) / blockCap cfg.size + 1) ∧
    (∀ cap, cfg.capacity = some cap →
      s.queue.allocated ≤ (cap + blockCap cfg.size - 1) / blockCap cfg.size + 1) ∧
    s.queue.pool.retired = [] ∧
    s.queue.allocated = chainLength s.queue +
      s.queue.spare.toList.length + s.queue.pool.ready.length := by
  have hpeak : Peaked cfg τ s := by
    rcases peaked_or_exhausted h with hp | ⟨-, -, u, hu⟩
    · exact hp
    · rw [hrest u] at hu
      cases hu
  have hbound : ∀ n, (∀ m, Passes cfg τ s m →
      (QueueCapacity.outstanding cfg.size m.queue).card ≤ n) →
      s.queue.allocated ≤ (n + blockCap cfg.size - 1) / blockCap cfg.size + 1 := by
    intro n hn
    obtain ⟨m, hm, hmrest, hlen⟩ := hpeak
    have hcard := hn m hm
    obtain ⟨τ₁, τ₂, -, hm₁, -⟩ := hm
    obtain ⟨g, hg⟩ := reach_inv (reach_of_serial hm₁)
    obtain ⟨hv, hlap⟩ := hmrest.head (reach_of_serial hm₁) hg
    have hchain := chainLength_queued hg hmrest hv hlap
    rw [← QueueCapacity.outstanding_card, hlen] at hchain
    exact hchain.trans (Nat.succ_le_succ (Nat.div_le_div_right (by omega)))
  obtain ⟨g, hg⟩ := reach_inv (reach_of_serial h)
  have hretired := (serial_frugal h).retired
  refine ⟨fun m hm => ?_, hpeak, hbound, fun cap hc => hbound cap fun m hm => ?_, hretired, ?_⟩
  · obtain ⟨τ₁, τ₂, -, hm₁, hm₂⟩ := hm
    obtain ⟨g', hg'⟩ := reach_inv (reach_of_serial hm₁)
    exact ⟨live_isSome hg', (chainLength_le m.queue).trans (allocated_mono hm₂)⟩
  · obtain ⟨τ₁, τ₂, -, hm₁, -⟩ := hm
    exact (QueueCapacity.capacity_exact (reach_of_serial hm₁) hc).1
  · have halloc := allocated_eq hg hrest
    rw [hretired] at halloc
    exact halloc

/-- What one thread does while the others are idle does not overlap. -/
theorem serial_of_alone {m : State Tid V} (h : Run (Step cfg) m τ s) (hm : ∀ u, u ≠ t → m.pc u = .idle)
    (ht : ∀ l ∈ τ, l.1 = t) : Run (SerialStep cfg) m τ s ∧ ∀ u, u ≠ t → s.pc u = .idle := by
  revert ht
  refine h.invariant (P := fun τ s => (∀ l ∈ τ, l.1 = t) →
    Run (SerialStep cfg) m τ s ∧ ∀ u, u ≠ t → s.pc u = .idle) (fun _ => ⟨.refl, hm⟩) ?_
  rintro τ s ⟨u, l⟩ s' - ih hs ht
  obtain ⟨hrun, hidle⟩ := ih fun l hl => ht l (List.mem_append_left _ hl)
  obtain rfl : u = t := ht (u, l) (List.mem_append_right _ (List.mem_singleton_self _))
  refine ⟨hrun.tail ⟨hs, hidle⟩, fun w hw => ?_⟩
  rcases step_cases hs with ⟨op, -, -, -, rfl⟩ | ⟨flag, fail, o, -, -, rfl⟩
  · exact (Function.update_of_ne hw _ _).trans (hidle w hw)
  · exact (Function.update_of_ne hw _ _).trans (hidle w hw)

/-- Thread 0 fills the first block, empties it and fills it again. -/
def fillTwice : List (Fin 2 × Choice ℕ) :=
  (0, .call (.push 7)) :: List.replicate 8 (0, .run 0 false) ++
  (0, .call (.push 8)) :: List.replicate 8 (0, .run 0 false) ++
  (0, .call (.push 9)) :: List.replicate 16 (0, .run 0 false) ++
  (0, .call .pop) :: List.replicate 6 (0, .run 0 false) ++
  (0, .call .pop) :: List.replicate 6 (0, .run 0 false) ++
  (0, .call .pop) :: List.replicate 15 (0, .run 0 false) ++
  (0, .call (.push 1)) :: List.replicate 10 (0, .run 0 false) ++
  (0, .call (.push 2)) :: List.replicate 8 (0, .run 0 false) ++
  (0, .call (.push 3)) :: List.replicate 14 (0, .run 0 false)

/-- In that run two blocks suffice, and the first one is in the chain again. -/
theorem blocks_at_high_water_of_fillTwice :
    ∃ (τ : List (Fin 2 × Label ℕ)) (s : State (Fin 2) ℕ), SerialRun QueueBlocks.shared τ s ∧
      s.queue.allocated = 2 ∧ s.queue.spare = none ∧ chainLength s.queue = 2 ∧
      Peaked QueueBlocks.shared τ s := by
  have h : ((State.init (Fin 2) ℕ).runs QueueBlocks.shared fillTwice).map
      (fun r => (r.2.queue.allocated, r.2.queue.spare, chainLength r.2.queue,
        r.1.all fun l => l.1 = 0, (r.2.pc 0).isIdle)) = some (2, none, 2, true, true) := by
    decide +kernel
  obtain ⟨⟨τ, s⟩, hrun, h⟩ := Option.map_eq_some_iff.mp h
  simp only [Prod.mk.injEq, List.all_eq_true, decide_eq_true_eq, Pc.isIdle_iff] at h
  obtain ⟨ha, hspare, hlen, hzero, hidle⟩ := h
  obtain ⟨hserial, hothers⟩ := serial_of_alone (State.runs_run hrun) (fun _ _ => rfl) hzero
  have hrest : Rest s := fun u => by
    by_cases hu : u = 0
    · exact hu ▸ hidle
    · exact hothers u hu
  exact ⟨τ, s, hserial, ha, hspare, hlen, (blocks_at_high_water hserial hrest).2.1⟩

end Peak

end Rapidfire.QueueHighWater
