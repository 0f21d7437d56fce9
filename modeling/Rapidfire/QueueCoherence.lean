import Rapidfire.QueueMachine
import Rapidfire.Updates

/-!
# Coherence of the shared memory

What every thread owns is read off its program point: the position it has
claimed and not published, the position it has taken and not finished with,
the block it holds. Together with an auxiliary record of the live chain and of
the place of every block, these views describe the shared memory completely.
-/

namespace Rapidfire.QueueCoherence

open Positions QueueMemory QueuePush QueuePop QueueSingle QueueMachine

/-- How far the producer of a last slot is with installing the next block. -/
inductive Stage where
  | before
  | linking
  | after

/-- What the threads own, by thread. -/
structure Views (Tid : Type) where
  /-- Position claimed by a push and not published. -/
  writes : Tid → Option ℕ
  /-- Progress of the installation, for the producer of a last slot. -/
  stage : Tid → Stage
  /-- Position taken by a pop and not finished with. -/
  reads : Tid → Option ℕ
  /-- Block outside the chain and the pool, in the hands of the thread. -/
  holds : Tid → Option BlockId
  /-- The exclusive consumer has moved the head block but not the index. -/
  crossing : Tid → Bool

namespace Views

variable {Tid : Type} [DecidableEq Tid]

/-- Change the claimed position of a thread. -/
def setWrites (vw : Views Tid) (t : Tid) (p : Option ℕ) : Views Tid :=
  { vw with writes := Function.update vw.writes t p }

/-- Change the installation progress of a thread. -/
def setStage (vw : Views Tid) (t : Tid) (s : Stage) : Views Tid :=
  { vw with stage := Function.update vw.stage t s }

/-- Change the taken position of a thread. -/
def setReads (vw : Views Tid) (t : Tid) (p : Option ℕ) : Views Tid :=
  { vw with reads := Function.update vw.reads t p }

/-- Change the block in the hands of a thread. -/
def setHolds (vw : Views Tid) (t : Tid) (b : Option BlockId) : Views Tid :=
  { vw with holds := Function.update vw.holds t b }

/-- Change whether a thread is between its head updates. -/
def setCrossing (vw : Views Tid) (t : Tid) (c : Bool) : Views Tid :=
  { vw with crossing := Function.update vw.crossing t c }

end Views

/-- Place of a block. -/
inductive Place (Tid : Type) where
  | fresh
  | serving
  | spare
  | ready
  | retired
  | hand (t : Tid)

/-- Auxiliary record of a run: the values of claimed positions, the published
and the finished positions, the blocks installed for the laps so far, the lap
of the head block and the place of every block. -/
structure Ghost (Tid V : Type) where
  val : ℕ → Option V
  published : ℕ → Prop
  finished : ℕ → Prop
  laps : ℕ
  chain : ℕ → BlockId
  headLap : ℕ
  place : BlockId → Place Tid

namespace Ghost

variable {Tid V : Type}

/-- A position is claimed for a value. -/
def claim (g : Ghost Tid V) (p : ℕ) (v : V) : Ghost Tid V :=
  { g with val := Function.update g.val p (some v) }

/-- A block moves to another place. -/
def move (g : Ghost Tid V) (b : BlockId) (place : Place Tid) : Ghost Tid V :=
  { g with place := Function.update g.place b place }

/-- A block becomes the last one of the live chain. -/
def install (g : Ghost Tid V) (b : BlockId) : Ghost Tid V :=
  { g.move b .serving with
    laps := g.laps + 1
    chain := Function.update g.chain g.laps b }

/-- A position is published. -/
def publish (g : Ghost Tid V) (p : ℕ) : Ghost Tid V :=
  { g with published := fun p' => g.published p' ∨ p' = p }

/-- The positions of an interval are finished with. -/
def finish (g : Ghost Tid V) (p n : ℕ) : Ghost Tid V :=
  { g with finished := fun p' => g.finished p' ∨ p ≤ p' ∧ p' < p + n }

/-- The head block is left, into the hands of a thread. -/
def leave (g : Ghost Tid V) (t : Tid) : Ghost Tid V :=
  { g.move (g.chain g.headLap) (.hand t) with headLap := g.headLap + 1 }

theorem move_place (g : Ghost Tid V) (b : BlockId) (place : Place Tid) :
    (g.move b place).place = Function.update g.place b place := rfl

/-- The blocks that did not move are where they were. -/
theorem place_of_move {g : Ghost Tid V} {b b' : BlockId} {P Q : Place Tid}
    (h : (g.move b P).place b' = Q) (hne : Q ≠ P) : b' ≠ b ∧ g.place b' = Q := by
  rw [move_place] at h
  by_cases hb : b' = b
  · subst hb
    rw [Function.update_self] at h
    exact absurd h.symm hne
  · exact ⟨hb, by rwa [Function.update_of_ne hb] at h⟩

/-- The pooled blocks that did not move were pooled. -/
theorem pooled_of_move {g : Ghost Tid V} {b b' : BlockId} {P : Place Tid}
    (h : (g.move b P).place b' = .spare ∨ (g.move b P).place b' = .ready)
    (hs : .spare ≠ P) (hr : .ready ≠ P) :
    b' ≠ b ∧ (g.place b' = .spare ∨ g.place b' = .ready) := by
  rcases h with h | h
  · exact ⟨(place_of_move h hs).1, .inl (place_of_move h hs).2⟩
  · exact ⟨(place_of_move h hr).1, .inr (place_of_move h hr).2⟩

/-- Older laps keep their blocks. -/
theorem install_chain_of_lt {g : Ghost Tid V} {b : BlockId} {L : ℕ} (hL : L < g.laps) :
    (g.install b).chain L = g.chain L :=
  Function.update_of_ne (Nat.ne_of_lt hL) _ _

theorem install_chain_laps (g : Ghost Tid V) (b : BlockId) : (g.install b).chain g.laps = b :=
  Function.update_self _ _ _

end Ghost

variable {Tid V : Type}

/-- Coherence of the shared memory with the views and the auxiliary record. -/
structure Coherent (cfg : Config Tid) (q : Queue V) (vw : Views Tid) (g : Ghost Tid V) : Prop where
  writes_spec : ∀ t p, vw.writes t = some p →
    IsValue cfg.size p ∧ q.head.index ≤ p ∧ p < q.tail.index
  writes_inj : ∀ t t' p, vw.writes t = some p → vw.writes t' = some p → t = t'
  reads_spec : ∀ t p, vw.reads t = some p → IsValue cfg.size p ∧ p < q.head.index
  reads_inj : ∀ t t' p, vw.reads t = some p → vw.reads t' = some p → t = t'
  taken_claimed : ∀ p, IsValue cfg.size p → p < q.head.index → p < q.tail.index
  published_iff : ∀ p, g.published p ↔
    IsValue cfg.size p ∧ p < q.tail.index ∧ ∀ t, vw.writes t ≠ some p
  finished_iff : ∀ p, g.finished p ↔
    IsValue cfg.size p ∧ p < q.head.index ∧ ∀ t, vw.reads t ≠ some p
  val_none : ∀ p, q.tail.index ≤ p → g.val p = none
  headLap_lt : g.headLap < g.laps
  head_block : q.head.block = g.chain g.headLap
  start_chain : ∀ L, g.headLap ≤ L → L < g.laps → q.start (g.chain L) = some (L * lap cfg.size)
  chain_start : ∀ b S, q.start b = some S →
    ∃ L, L < g.laps ∧ S = L * lap cfg.size ∧ g.chain L = b
  next_chain : ∀ L, g.headLap ≤ L → L + 1 < g.laps →
    q.next (g.chain L) = some (g.chain (L + 1)) ∨
      ∃ t p, vw.writes t = some p ∧ vw.stage t = .linking ∧ lapOf cfg.size p = L
  next_live : ∀ L b, g.headLap ≤ L → L + 1 < g.laps → q.next (g.chain L) = some b →
    b = g.chain (L + 1)
  next_last : q.next (g.chain (g.laps - 1)) = none
  prev_chain : ∀ L, g.headLap ≤ L → L + 1 < g.laps →
    q.prev (g.chain (L + 1)) = some (g.chain L)
  behind : ∀ p, IsValue cfg.size p → lapOf cfg.size p < g.headLap → g.published p
  last_claimed : ∀ p, IsLast cfg.size p → lapOf cfg.size p + 1 < g.laps → p < q.tail.index
  last_published : ∀ p, g.published p → IsLast cfg.size p → lapOf cfg.size p + 1 < g.laps
  stage_before : ∀ t p, vw.writes t = some p → vw.stage t = .before → IsLast cfg.size p →
    g.laps ≤ lapOf cfg.size p + 1
  state_lt : ∀ b i, q.state b i < writtenTag g.laps
  slot : ∀ p, g.published p → ¬g.finished p →
    lapOf cfg.size p < g.laps ∧
    q.start (g.chain (lapOf cfg.size p)) = some (lapOf cfg.size p * lap cfg.size) ∧
    q.state (g.chain (lapOf cfg.size p)) (offset cfg.size p) = writtenTag (lapOf cfg.size p) ∧
    ∃ v, g.val p = some v ∧ q.value (g.chain (lapOf cfg.size p)) (offset cfg.size p) = some v
  tagged : ∀ p, IsValue cfg.size p → g.headLap ≤ lapOf cfg.size p → lapOf cfg.size p < g.laps →
    q.state (g.chain (lapOf cfg.size p)) (offset cfg.size p) = writtenTag (lapOf cfg.size p) →
    g.published p
  marked : ∀ b p, q.start b = some (lapOf cfg.size p * lap cfg.size) → IsValue cfg.size p →
    q.mark b (offset cfg.size p) = true → g.finished p
  reads_shared : cfg.exclusive ≠ none → ∀ t, vw.reads t = none
  unmarked : cfg.exclusive ≠ none → ∀ b i, q.mark b i = false
  pooled : ∀ b, g.place b = .spare ∨ g.place b = .ready →
    q.start b = none ∧ ∀ i < blockCap cfg.size, q.mark b i = false
  retired : ∀ b, g.place b = .retired → ∃ p, IsLast cfg.size p ∧ g.finished p ∧
    lapOf cfg.size p < g.headLap ∧ q.start b = some (lapOf cfg.size p * lap cfg.size)
  spare_iff : ∀ b, q.spare = some b ↔ g.place b = .spare
  ready_iff : ∀ b, b ∈ q.pool.ready ↔ g.place b = .ready
  ready_nodup : q.pool.ready.Nodup
  retired_iff : ∀ b, b ∈ q.pool.retired ↔ g.place b = .retired
  retired_nodup : q.pool.retired.Nodup
  hand_iff : ∀ t b, vw.holds t = some b ↔ g.place b = .hand t
  serving_iff : ∀ b, (∃ L, g.headLap ≤ L ∧ L < g.laps ∧ g.chain L = b) ↔ g.place b = .serving
  fresh_iff : ∀ b, q.allocated ≤ b ↔ g.place b = .fresh
  untouched : ∀ b, q.allocated ≤ b → q.start b = none
  tail_block : q.tail.block < q.allocated
  head_waits : ∀ t p, vw.reads t = some p → IsLast cfg.size p → q.head.index = p + 1
  head_shared : cfg.exclusive = none → IsValue cfg.size q.head.index →
    lapOf cfg.size q.head.index = g.headLap
  head_exclusive : ∀ c, cfg.exclusive = some c → IsValue cfg.size q.head.index ∧
    (vw.crossing c = false → lapOf cfg.size q.head.index = g.headLap)
  capacity : ∀ cap, cfg.capacity = some cap →
    itemsBetween cfg.size q.head.index q.tail.index ≤ cap
  cached_le : q.tail.cached ≤ q.head.index

namespace Coherent

variable {cfg : Config Tid} {q : Queue V} {vw : Views Tid} {g : Ghost Tid V}

/-- Blocks of the live chain are serving. -/
theorem place_chain (h : Coherent cfg q vw g) {L : ℕ} (hL : g.headLap ≤ L) (hL' : L < g.laps) :
    g.place (g.chain L) = .serving :=
  (h.serving_iff _).mp ⟨L, hL, hL', rfl⟩

/-- A block outside the live chain serves none of its laps. -/
theorem chain_ne (h : Coherent cfg q vw g) {b : BlockId} (hb : g.place b ≠ .serving) {L : ℕ}
    (hL : g.headLap ≤ L) (hL' : L < g.laps) : g.chain L ≠ b := by
  rintro rfl
  exact hb (h.place_chain hL hL')

/-- The live chain has no block twice. -/
theorem chain_inj (h : Coherent cfg q vw g) {L M : ℕ} (hL : g.headLap ≤ L) (hL' : L < g.laps)
    (hM : g.headLap ≤ M) (hM' : M < g.laps) (he : g.chain L = g.chain M) : L = M := by
  have h1 := h.start_chain L hL hL'
  rw [he, h.start_chain M hM hM', Option.some.injEq] at h1
  exact (mul_lap_injective h1).symm

/-- The last block of the live chain is live. -/
theorem last_live (h : Coherent cfg q vw g) : g.headLap ≤ g.laps - 1 ∧ g.laps - 1 < g.laps := by
  have := h.headLap_lt
  omega

/-- A position being written is not published. -/
theorem not_published (h : Coherent cfg q vw g) {t : Tid} {p : ℕ} (hp : vw.writes t = some p) :
    ¬g.published p :=
  fun hpub => ((h.published_iff p).mp hpub).2.2 t hp

/-- A position being written has not been left behind by the head block. -/
theorem writes_live (h : Coherent cfg q vw g) {t : Tid} {p : ℕ} (hp : vw.writes t = some p) :
    g.headLap ≤ lapOf cfg.size p :=
  Nat.le_of_not_lt fun hlt => h.not_published hp (h.behind p (h.writes_spec t p hp).1 hlt)

/-- Blocks in use have been allocated. -/
theorem lt_allocated (h : Coherent cfg q vw g) {b : BlockId} (hb : g.place b ≠ .fresh) :
    b < q.allocated :=
  Nat.lt_of_not_le fun hle => hb ((h.fresh_iff b).mp hle)

/-- A block of the live chain has been allocated. -/
theorem chain_lt_allocated (h : Coherent cfg q vw g) {L : ℕ} (hL : g.headLap ≤ L)
    (hL' : L < g.laps) : g.chain L < q.allocated :=
  h.lt_allocated (by simp [h.place_chain hL hL'])

/-- A block is in the hands of one thread only. -/
theorem holds_inj (h : Coherent cfg q vw g) {t t' : Tid} {b : BlockId}
    (ht : vw.holds t = some b) (ht' : vw.holds t' = some b) : t = t' := by
  have h1 := (h.hand_iff t b).mp ht
  rw [(h.hand_iff t' b).mp ht', Place.hand.injEq] at h1
  exact h1.symm

/-- Blocks held by different threads are different. -/
theorem holds_ne (h : Coherent cfg q vw g) {t t' : Tid} {b b' : BlockId} (hne : t' ≠ t)
    (ht : vw.holds t = some b) (ht' : vw.holds t' = some b') : b' ≠ b := by
  rintro rfl
  exact hne (h.holds_inj ht' ht)

/-- A held block is not in the live chain. -/
theorem chain_ne_holds (h : Coherent cfg q vw g) {t : Tid} {b : BlockId}
    (hb : vw.holds t = some b) {L : ℕ} (hL : g.headLap ≤ L) (hL' : L < g.laps) :
    g.chain L ≠ b :=
  h.chain_ne (by simp [(h.hand_iff t b).mp hb]) hL hL'

/-- A taken position is published. -/
theorem published_of_lt (h : Coherent cfg q vw g) {p : ℕ} (hv : IsValue cfg.size p)
    (hp : p < q.head.index) : g.published p := by
  refine (h.published_iff p).mpr ⟨hv, h.taken_claimed p hv hp, fun t ht => ?_⟩
  have := (h.writes_spec t p ht).2.1
  omega

/-- Between installations the blocks of the live chain are linked. -/
theorem next_settled (h : Coherent cfg q vw g) (hs : ∀ t, vw.stage t ≠ .linking) {L : ℕ}
    (hL : g.headLap ≤ L) (hL' : L + 1 < g.laps) : q.next (g.chain L) = some (g.chain (L + 1)) := by
  rcases h.next_chain L hL hL' with hn | ⟨t, p, -, hst, -⟩
  · exact hn
  · exact absurd hst (hs t)

/-- A finished position has been taken. -/
theorem lt_of_finished (h : Coherent cfg q vw g) {p : ℕ} (hp : g.finished p) :
    p < q.head.index :=
  ((h.finished_iff p).mp hp).2.1

end Coherent

end Rapidfire.QueueCoherence
