import Rapidfire.QueueLocal

/-!
# Interference

What a thread may rely on while the others run: indices and the auxiliary
record only grow, a block in its hands changes only by the marks of readers
that have not finished, and nobody writes the slot it has claimed. Every
assertion is stable under such a change.
-/

namespace Rapidfire.QueueRely

open Positions QueueMemory QueuePush QueuePop QueueSingle QueueMachine QueueCoherence QueueLocal

variable {Tid V : Type}

/-- The change of memory and record that thread `t` may observe. -/
structure Rely (cfg : Config Tid) (q : Queue V) (g : Ghost Tid V) (q' : Queue V)
    (g' : Ghost Tid V) (vw : Views Tid) (t : Tid) : Prop where
  head_le : q.head.index ≤ q'.head.index
  tail_le : q.tail.index ≤ q'.tail.index
  allocated_le : q.allocated ≤ q'.allocated
  val : ∀ p v, g.val p = some v → g'.val p = some v
  published : ∀ p, g.published p → g'.published p
  finished : ∀ p, g.finished p → g'.finished p
  laps_le : g.laps ≤ g'.laps
  chain : ∀ L, L < g.laps → g'.chain L = g.chain L
  headLap_le : g.headLap ≤ g'.headLap
  held : ∀ b, vw.holds t = some b →
    q'.start b = q.start b ∧ q'.next b = q.next b ∧ q'.prev b = q.prev b ∧
      ∀ i, q'.mark b i = q.mark b i ∨ q'.mark b i = true ∧
        ∃ p, IsValue cfg.size p ∧ offset cfg.size p = i ∧ ¬g.finished p ∧
          q.start b = some (lapOf cfg.size p * lap cfg.size)
  slot : ∀ p, vw.writes t = some p → lapOf cfg.size p < g.laps →
    q'.value (g.chain (lapOf cfg.size p)) (offset cfg.size p) =
      q.value (g.chain (lapOf cfg.size p)) (offset cfg.size p)
  still : ∀ p, vw.reads t = some p → IsLast cfg.size p →
    q'.head.index = q.head.index ∧ g'.headLap = g.headLap
  exclusive : cfg.exclusive = some t → q'.head = q.head ∧ g'.headLap = g.headLap

variable {cfg : Config Tid} {q q' : Queue V} {g g' : Ghost Tid V} {vw : Views Tid} {t : Tid}

namespace Rely

/-- An access that leaves memory and record as they are. -/
theorem refl : Rely cfg q g q g vw t where
  head_le := le_rfl
  tail_le := le_rfl
  allocated_le := le_rfl
  val _ _ h := h
  published _ h := h
  finished _ h := h
  laps_le := le_rfl
  chain _ _ := rfl
  headLap_le := le_rfl
  held _ _ := ⟨rfl, rfl, rfl, fun _ => .inl rfl⟩
  slot _ _ _ := rfl
  still _ _ _ := ⟨rfl, rfl⟩
  exclusive _ := ⟨rfl, rfl⟩

theorem serves (h : Rely cfg q g q' g' vw t) {p : ℕ} {b : BlockId} (hs : Serves cfg g p b) :
    Serves cfg g' p b :=
  ⟨hs.1.trans_le h.laps_le, (h.chain _ hs.1).trans hs.2⟩

theorem owns (h : Rely cfg q g q' g' vw t) {c : Claim V} (ho : Owns g c) : Owns g' c :=
  h.val _ _ ho

theorem installs (h : Rely cfg q g q' g' vw t) {c : Claim V} {b : BlockId}
    (hi : Installs cfg g c b) : Installs cfg g' c b :=
  ⟨h.owns hi.1, h.serves hi.2.1, hi.2.2⟩

theorem installed (h : Rely cfg q g q' g' vw t) {c : Claim V} {b n : BlockId}
    (hi : Installed cfg g c b n) : Installed cfg g' c b n :=
  ⟨h.installs hi.1, hi.2.1.trans_le h.laps_le, (h.chain _ hi.2.1).trans hi.2.2⟩

theorem writable (h : Rely cfg q g q' g' vw t) {c : Claim V} {b : BlockId}
    (hw : Writable cfg g c b) : Writable cfg g' c b :=
  ⟨h.owns hw.1, h.serves hw.2.1, fun hl => (hw.2.2 hl).trans_le h.laps_le⟩

theorem deciding (h : Rely cfg q g q' g' vw t) {cap tail : ℕ} (hd : Deciding cfg q cap tail) :
    Deciding cfg q' cap tail :=
  ⟨hd.1, hd.2.1, hd.2.2.trans h.tail_le⟩

theorem room (h : Rely cfg q g q' g' vw t) {cap tail : ℕ} (hr : Room cfg q cap tail) :
    Room cfg q' cap tail :=
  ⟨h.deciding hr.1, (itemsBetween_anti_left h.head_le).trans_lt hr.2⟩

theorem drained (h : Rely cfg q g q' g' vw t) {b : BlockId} (hb : vw.holds t = some b)
    (hd : Drained cfg q g b) : Drained cfg q' g' b := by
  obtain ⟨L, hs, hf⟩ := hd
  exact ⟨L, (h.held b hb).1.trans hs, fun p hv hp => h.finished p (hf p hv hp)⟩

/-- Nobody marks a slot of a drained block. -/
theorem mark_drained (h : Rely cfg q g q' g' vw t) {b : BlockId} (hb : vw.holds t = some b)
    (hd : Drained cfg q g b) (i : ℕ) : q'.mark b i = q.mark b i := by
  obtain ⟨L, hs, hf⟩ := hd
  rcases (h.held b hb).2.2.2 i with he | ⟨-, p, hv, -, hp, hstart⟩
  · exact he
  · rw [hs, Option.some.injEq] at hstart
    exact absurd (hf p hv (mul_lap_injective hstart).symm) hp

/-- Nobody marks a slot of a pooled block. -/
theorem blank (h : Rely cfg q g q' g' vw t) {b : BlockId} (hb : vw.holds t = some b)
    (hd : Blank cfg q b) : Blank cfg q' b := by
  refine ⟨(h.held b hb).1.trans hd.1, fun i hi => ?_⟩
  rcases (h.held b hb).2.2.2 i with he | ⟨-, p, -, -, -, hstart⟩
  · exact he.trans (hd.2 i hi)
  · simp [hd.1] at hstart

theorem mark_true (h : Rely cfg q g q' g' vw t) {b : BlockId} (hb : vw.holds t = some b) {i : ℕ}
    (hm : q.mark b i = true) : q'.mark b i = true := by
  rcases (h.held b hb).2.2.2 i with he | ⟨ht, -⟩
  · rw [he, hm]
  · exact ht

theorem paired (h : Rely cfg q g q' g' vw t) {head : ℕ} {b : BlockId}
    (hp : Paired cfg q g head b) : Paired cfg q' g' head b := by
  obtain ⟨hv, hb, hle, hs⟩ := hp
  refine ⟨hv, hb.trans_le h.allocated_le, hle.trans h.head_le, fun he => h.serves (hs ?_)⟩
  have := h.head_le
  omega

theorem reads (h : Rely cfg q g q' g' vw t) {head : ℕ} {b : BlockId}
    (ht : vw.reads t = some head) (hr : Reads cfg q g head b) : Reads cfg q' g' head b := by
  refine ⟨h.serves hr.1, fun hl => ?_⟩
  obtain ⟨hi, hh⟩ := h.still head ht hl
  rw [hi, hh]
  exact hr.2 hl

theorem leaves (h : Rely cfg q g q' g' vw t) {k : Taken} {v : V}
    (hb : vw.holds t = some k.block) (hk : Leaves cfg q g k v) : Leaves cfg q' g' k v :=
  ⟨h.val _ _ hk.1, hk.2.1, h.finished _ hk.2.2.1, hk.2.2.2.1.trans_le h.headLap_le,
    (h.held _ hb).1.trans hk.2.2.2.2⟩

theorem atHead (h : Rely cfg q g q' g' vw t) (hc : cfg.exclusive = some t) {head : ℕ}
    {b : BlockId} (ha : AtHead cfg q g head b) : AtHead cfg q' g' head b := by
  obtain ⟨hq, hg⟩ := h.exclusive hc
  rw [AtHead, hq, hg]
  exact ha

theorem values (h : Rely cfg q g q' g' vw t) {r : Run V} (hv : Values g r) : Values g' r :=
  fun i v hi => ⟨h.published _ (hv i v hi).1, h.val _ _ (hv i v hi).2⟩

theorem batching (h : Rely cfg q g q' g' vw t) (hc : cfg.exclusive = some t) {max : ℕ}
    {r : Run V} (hb : Batching cfg q g max r) : Batching cfg q' g' max r :=
  ⟨h.atHead hc hb.1, h.values hb.2.1, h.published _ hb.2.2.1, hb.2.2.2⟩

theorem collected (h : Rely cfg q g q' g' vw t) {r : Run V} (hc : Collected cfg g r) :
    Collected cfg g' r :=
  ⟨h.values hc.1, hc.2⟩

theorem pushLocal (h : Rely cfg q g q' g' vw t) {pc : PushPc V}
    (hw : vw.writes t = pushWrites cfg.size pc) (hb : vw.holds t = pushHolds pc)
    (hl : PushLocal cfg q g pc) : PushLocal cfg q' g' pc := by
  cases pc with
  | fetchAddContend v tail => exact ⟨hl.1, fun hv => h.val _ _ (hl.2 hv)⟩
  | casLevel v tail failed | casContend v tail level | sample v tail => exact h.val _ _ hl
  | boundedCached v cap tail | boundedHead v cap tail => exact h.deciding hl
  | boundedCache v cap tail head => exact ⟨h.room hl.1, hl.2.trans h.head_le⟩
  | boundedTry v cap tail => exact h.room hl
  | findBlock c | slowBlock c => exact h.owns hl
  | findStart c block | slowStart c block => exact ⟨h.owns hl.1, hl.2.trans_le h.allocated_le⟩
  | slowPrev c block =>
    obtain ⟨ho, L, hlt, hL, hc⟩ := hl
    exact ⟨h.owns ho, L, hlt, hL.trans_le h.laps_le, (h.chain L hL).trans hc⟩
  | takeSpare c block | takePool c block | allocate c block => exact h.installs hl
  | resetMark c block next i =>
    refine ⟨h.installs hl.1, h.drained hb hl.2.1, fun j hj => ?_⟩
    rw [h.mark_drained hb hl.2.1]
    exact hl.2.2 j hj
  | resetStart c block next =>
    refine ⟨h.installs hl.1, h.drained hb hl.2.1, fun j hj => ?_⟩
    rw [h.mark_drained hb hl.2.1]
    exact hl.2.2 j hj
  | storePrev c block next => exact ⟨h.installs hl.1, h.blank hb hl.2⟩
  | storeNext c block next =>
    exact ⟨h.installs hl.1, h.blank hb hl.2.1, (h.held _ hb).2.2.1.trans hl.2.2⟩
  | storeStart c block next =>
    exact ⟨h.installs hl.1, h.blank hb hl.2.1, (h.held _ hb).2.2.1.trans hl.2.2.1,
      (h.held _ hb).2.1.trans hl.2.2.2⟩
  | linkNext c block next | storeTail c block next => exact h.installed hl
  | writeValue c block => exact h.writable hl
  | publish c block =>
    have hs := h.slot c.tail hw hl.1.2.1.1
    rw [hl.1.2.1.2] at hs
    exact ⟨h.writable hl.1, hs.trans hl.2⟩
  | _ => exact hl

theorem popLocal (h : Rely cfg q g q' g' vw t) {pc : PopPc V} (hr : vw.reads t = popReads pc)
    (hb : vw.holds t = popHolds pc) (hl : PopLocal cfg q g pc) : PopLocal cfg q' g' pc := by
  cases pc with
  | loadHead wait => trivial
  | loadBlock head wait => exact Nat.le_trans hl h.head_le
  | loadState head block wait | reloadHead head block wait => exact h.paired hl
  | claim head block wait =>
    refine ⟨h.paired hl.1, fun he => h.published _ (hl.2 ?_)⟩
    have h1 := h.head_le
    have h2 := hl.1.2.2.1
    omega
  | sample head block => exact h.reads hr hl
  | readValue k => exact h.reads hr hl
  | markRead k v => exact ⟨h.reads hr hl.1, hl.2.1, h.val _ _ hl.2.2⟩
  | loadNext k v => exact ⟨h.reads hr hl.1, hl.2.1, h.val _ _ hl.2.2⟩
  | storeBlock k v next =>
    exact ⟨h.reads hr hl.1, hl.2.1, h.val _ _ hl.2.2.1, h.serves hl.2.2.2⟩
  | swapIndex k v =>
    obtain ⟨hi, hh⟩ := h.still k.head hr hl.2.1
    refine ⟨h.val _ _ hl.1, hl.2.1, hi.trans hl.2.2.1, hh.trans hl.2.2.2.1, ?_⟩
    exact (h.held _ hb).1.trans hl.2.2.2.2
  | readersDone k v i =>
    exact ⟨h.leaves hb hl.1, hl.2.1, fun j hj => h.mark_true hb (hl.2.2 j hj)⟩
  | retire k v => exact h.leaves hb hl
  | resetMark k v i =>
    refine ⟨h.val _ _ hl.1, h.drained hb hl.2.1, fun j hj => ?_⟩
    rw [h.mark_drained hb hl.2.1]
    exact hl.2.2 j hj
  | resetStart k v =>
    refine ⟨h.val _ _ hl.1, h.drained hb hl.2.1, fun j hj => ?_⟩
    rw [h.mark_drained hb hl.2.1]
    exact hl.2.2 j hj
  | recycleSpare k v | recyclePool k v => exact ⟨h.val _ _ hl.1, h.blank hb hl.2⟩

theorem leaveLocal (h : Rely cfg q g q' g' vw t) (hc : cfg.exclusive = some t) {batch : Bool}
    {pc : LeavePc V} (hb : vw.holds t = singleHolds cfg.size (.leave batch pc))
    (hl : LeaveLocal cfg q g pc) : LeaveLocal cfg q' g' pc := by
  obtain ⟨hq, hg⟩ := h.exclusive hc
  cases pc with
  | loadNext r => exact ⟨h.atHead hc hl.1, h.collected hl.2.1, hl.2.2⟩
  | storeBlock r next =>
    exact ⟨h.atHead hc hl.1, h.collected hl.2.1, hl.2.2.1, hl.2.2.2.1.trans_le h.laps_le,
      (h.chain _ hl.2.2.2.1).trans hl.2.2.2.2⟩
  | advance r =>
    obtain ⟨hcol, hi, hlast⟩ := hl
    refine ⟨h.collected hcol, by rw [hq]; exact hi, ?_⟩
    split
    · rename_i hr
      rw [if_pos hr] at hlast
      refine ⟨by rw [hg]; exact hlast.1, ?_⟩
      exact (h.held _ (hb.trans (by simp [singleHolds, hr]))).1.trans hlast.2
    · rename_i hr
      rw [if_neg hr] at hlast
      exact h.atHead hc hlast
  | sample r =>
    refine ⟨h.collected hl.1, fun hr => h.drained ?_ (hl.2 hr)⟩
    exact hb.trans (by simp [singleHolds, hr])
  | resetStart r wake => exact ⟨h.collected hl.1, h.drained hb hl.2⟩
  | recycleSpare r wake | recyclePool r wake => exact ⟨h.collected hl.1, h.blank hb hl.2⟩

theorem singleLocal (h : Rely cfg q g q' g' vw t) (hc : cfg.exclusive = some t)
    {pc : SinglePc V} (hb : vw.holds t = singleHolds cfg.size pc)
    (hl : SingleLocal cfg q g pc) : SingleLocal cfg q' g' pc := by
  obtain ⟨hq, -⟩ := h.exclusive hc
  cases pc with
  | loadHead | batchHead limit => trivial
  | loadBlock head =>
    rw [SingleLocal, hq]
    exact hl
  | batchBlock limit head =>
    rw [SingleLocal, hq]
    exact hl
  | loadState head block => exact h.atHead hc hl
  | batchState limit head block => exact ⟨hl.1, h.atHead hc hl.2⟩
  | readValue head block => exact ⟨h.atHead hc hl.1, h.published _ hl.2⟩
  | reserve max head block => exact ⟨h.atHead hc hl.1, h.published _ hl.2.1, hl.2.2⟩
  | slotState max r => exact ⟨h.batching hc hl.1, hl.2⟩
  | slotValue max r => exact ⟨h.batching hc hl.1, hl.2.1, h.published _ hl.2.2⟩
  | leave batch pc => exact ⟨hl.1, h.leaveLocal hc hb hl.2⟩

/-- Every assertion is stable under the interference of the other threads. -/
theorem stable {pcs : Tid → Pc V} (h : Rely cfg q g q' g' (views cfg.size pcs) t)
    (hl : Local cfg q g t (pcs t)) : Local cfg q' g' t (pcs t) := by
  have hw : (views cfg.size pcs).writes t = writes cfg.size (pcs t) := rfl
  have hr : (views cfg.size pcs).reads t = QueueLocal.reads (pcs t) := rfl
  have hb : (views cfg.size pcs).holds t = holds cfg.size (pcs t) := rfl
  cases hpc : pcs t with
  | idle => trivial
  | fault => rwa [hpc] at hl
  | push pc =>
    rw [hpc] at hw hb hl
    exact h.pushLocal hw hb hl
  | pop pc =>
    rw [hpc] at hr hb hl
    exact ⟨hl.1, h.popLocal hr hb hl.2⟩
  | single pc =>
    rw [hpc] at hb hl
    exact ⟨hl.1, h.singleLocal hl.1 hb hl.2⟩
  | read pc =>
    rw [hpc] at hl
    cases pc with
    | emptyTail head | lenTail head => exact Nat.le_trans hl h.head_le
    | _ => trivial

end Rely

end Rapidfire.QueueRely
