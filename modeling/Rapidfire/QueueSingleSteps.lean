import Rapidfire.QueueSteps

/-!
# Steps of the exclusive receives

Every step of `pop_single` and `pop_single_batch` keeps the invariant. The
steps are grouped as the receives run: look at the head, collect values,
leave a finished block, advance, recycle.
-/

namespace Rapidfire.QueueSingleSteps

open Positions QueueMemory QueueSingle QueueMachine QueueCoherence QueueLocal QueueRely
  QueueProduce QueueConsume QueueSteps Updates

variable {Tid V : Type} [DecidableEq Tid] {cfg : Config Tid} {s : State Tid V}
  {g g' : Ghost Tid V} {t : Tid} {pc pc' : SinglePc V} {flag : ℕ} {fail : Bool}

/-- The outcome of an exclusive step as an outcome of the thread. -/
def lift (o : Outcome V (SinglePc V) (SingleRet V)) : Outcome V (Pc V) (Ret V) :=
  (o.1, Next.map .single .single o.2.1, o.2.2)

section Shape

omit [DecidableEq Tid] in
theorem view_holds (cfg : Config Tid) (hpc : s.pc t = .single pc) :
    (views cfg.size s.pc).holds t = singleHolds cfg.size pc := by
  simp [views, holds, hpc]

omit [DecidableEq Tid] in
theorem view_crossing (cfg : Config Tid) (hpc : s.pc t = .single pc) :
    (views cfg.size s.pc).crossing t = singleCrossing cfg.size pc := by
  simp [views, crossing, hpc]

omit [DecidableEq Tid] in
theorem local_single (h : Inv cfg s g) (hpc : s.pc t = .single pc) :
    cfg.exclusive = some t ∧ SingleLocal cfg s.queue g pc := by
  have hl := h.assertion t
  rwa [hpc] at hl

/-- An exclusive step leaves the views that are not its own as they are. -/
theorem single_inv (h : Inv cfg s g) (hpc : s.pc t = .single pc) {q' : Queue V}
    {vw' : Views Tid} {p' : Pc V} (hc : Coherent cfg q' vw' g')
    (hp : writes cfg.size p' = none ∧ stage p' = .before ∧ reads p' = none)
    (hh : vw'.holds = Function.update (views cfg.size s.pc).holds t (holds cfg.size p'))
    (hx : vw'.crossing = Function.update (views cfg.size s.pc).crossing t (crossing cfg.size p'))
    (hw : vw'.writes = (views cfg.size s.pc).writes) (hs : vw'.stage = (views cfg.size s.pc).stage)
    (hr : vw'.reads = (views cfg.size s.pc).reads) (hl : Local cfg q' g' t p')
    (hrely : ∀ t' ≠ t, Rely cfg s.queue g q' g' (views cfg.size s.pc) t') :
    Inv cfg ⟨q', Function.update s.pc t p'⟩ g' := by
  obtain ⟨h1, h2, h3⟩ := hp
  refine next_inv h hc (hw.trans (update_same ?_)) (hs.trans (update_same ?_))
    (hr.trans (update_same ?_)) hh hx hl hrely
  · rw [h1]
    simp [views, writes, hpc]
  · rw [h2]
    simp [views, stage, hpc]
  · rw [h3]
    simp [views, reads, hpc]

/-- An exclusive step that goes on at another program point. -/
theorem goto_steps (h : Inv cfg s g) (hpc : s.pc t = .single pc) (pc' : SinglePc V) {q' : Queue V}
    {vw' : Views Tid} {e : Option (Effect V)} (hc : Coherent cfg q' vw' g')
    (hh : vw'.holds = Function.update (views cfg.size s.pc).holds t (singleHolds cfg.size pc'))
    (hx : vw'.crossing =
      Function.update (views cfg.size s.pc).crossing t (singleCrossing cfg.size pc'))
    (hw : vw'.writes = (views cfg.size s.pc).writes) (hs : vw'.stage = (views cfg.size s.pc).stage)
    (hr : vw'.reads = (views cfg.size s.pc).reads) (hl : SingleLocal cfg q' g' pc')
    (hrely : ∀ t' ≠ t, Rely cfg s.queue g q' g' (views cfg.size s.pc) t')
    (hrec : Records cfg.size s.queue g e q' g') :
    Steps cfg s g t (lift (q', .goto pc', e)) g' where
  inv := single_inv h hpc hc ⟨rfl, rfl, rfl⟩ hh hx hw hs hr ⟨(local_single h hpc).1, hl⟩ hrely
  records := hrec
  received := nofun
  sound := nofun

/-- An exclusive step that returns. -/
theorem ret_steps (h : Inv cfg s g) (hpc : s.pc t = .single pc) {q' : Queue V} {vw' : Views Tid}
    {e : Option (Effect V)} (r : SingleRet V) (hc : Coherent cfg q' vw' g')
    (hh : vw'.holds = Function.update (views cfg.size s.pc).holds t none)
    (hx : vw'.crossing = Function.update (views cfg.size s.pc).crossing t false)
    (hw : vw'.writes = (views cfg.size s.pc).writes) (hs : vw'.stage = (views cfg.size s.pc).stage)
    (hr : vw'.reads = (views cfg.size s.pc).reads)
    (hrely : ∀ t' ≠ t, Rely cfg s.queue g q' g' (views cfg.size s.pc) t')
    (hrec : Records cfg.size s.queue g e q' g')
    (hval : ∀ p v, (p, v) ∈ (Ret.single r).received → g'.val p = some v) :
    Steps cfg s g t (lift (q', .ret r, e)) g' where
  inv := single_inv h hpc hc ⟨rfl, rfl, rfl⟩ hh hx hw hs hr trivial hrely
  records := hrec
  received := by
    rintro r' ⟨⟩
    exact hval
  sound := nofun

/-- An exclusive step that changes no memory. -/
theorem stay_steps (h : Inv cfg s g) (hpc : s.pc t = .single pc) (pc' : SinglePc V)
    (hh : singleHolds cfg.size pc = singleHolds cfg.size pc')
    (hx : singleCrossing cfg.size pc = singleCrossing cfg.size pc')
    (hl : SingleLocal cfg s.queue g pc') : Steps cfg s g t (lift (s.queue, .goto pc', none)) g :=
  goto_steps h hpc pc' h.coherent (update_same ((view_holds cfg hpc).trans hh))
    (update_same ((view_crossing cfg hpc).trans hx)) rfl rfl rfl hl (fun _ _ => Rely.refl)
    (.quiet rfl rfl rfl rfl rfl fun _ hL => ⟨hL, rfl⟩)

/-- An exclusive receive that returns without having changed memory. -/
theorem leave_steps (h : Inv cfg s g) (hpc : s.pc t = .single pc) (r : SingleRet V)
    (hh : singleHolds cfg.size pc = none) (hx : singleCrossing cfg.size pc = false)
    (hval : ∀ p v, (p, v) ∈ (Ret.single r).received → g.val p = some v) :
    Steps cfg s g t (lift (s.queue, .ret r, none)) g :=
  ret_steps h hpc r h.coherent (update_same ((view_holds cfg hpc).trans hh))
    (update_same ((view_crossing cfg hpc).trans hx)) rfl rfl rfl (fun _ _ => Rely.refl)
    (.quiet rfl rfl rfl rfl rfl fun _ hL => ⟨hL, rfl⟩) hval

end Shape

section Collecting

variable {head limit max : ℕ} {block : BlockId} {r : Run V} {batch : Bool}

omit [DecidableEq Tid] in
/-- The exclusive consumer finds the head on a value position. -/
theorem isValue_head (h : Inv cfg s g) (hx : cfg.exclusive = some t) :
    IsValue cfg.size s.queue.head.index :=
  (h.coherent.head_exclusive t hx).1

omit [DecidableEq Tid] in
/-- Unless the consumer is between its head updates, the head block serves
the head. -/
theorem atHead (h : Inv cfg s g) (hpc : s.pc t = .single pc)
    (hx : singleCrossing cfg.size pc = false) :
    AtHead cfg s.queue g s.queue.head.index s.queue.head.block := by
  have hc := h.coherent.head_exclusive t (local_single h hpc).1
  exact ⟨rfl, rfl, hc.1, (hc.2 ((view_crossing cfg hpc).trans hx)).symm⟩

omit [DecidableEq Tid] in
/-- The head block is the block of its lap in the live chain. -/
theorem chain_atHead (h : Inv cfg s g) (ha : AtHead cfg s.queue g head block) :
    g.chain (lapOf cfg.size head) = block := by
  rw [← ha.2.2.2, ← h.coherent.head_block, ha.2.1]

/-- A slot from the head on, in the head block. -/
theorem slot_shift {z : BlockSize} {n : ℕ} (hn : offset z head + n < blockCap z) :
    IsValue z (head + n) ∧ lapOf z (head + n) = lapOf z head ∧
      offset z (head + n) = offset z head + n := by
  have hlt : offset z head + n < lap z := by
    have := blockCap_add_one (z := z)
    omega
  have ho := offset_add hlt
  exact ⟨by rw [isValue_iff, ho]; exact hn, lapOf_add hlt, ho⟩

omit [DecidableEq Tid] in
/-- A tagged slot from the head on is published. -/
theorem published_atHead (h : Inv cfg s g) (ha : AtHead cfg s.queue g head block) {n : ℕ}
    (hn : offset cfg.size head + n < blockCap cfg.size)
    (hs : s.queue.state block (offset cfg.size head + n) = writtenTag (lapOf cfg.size head)) :
    g.published (head + n) := by
  obtain ⟨hv, hlap, ho⟩ := slot_shift hn
  have hlap' : g.headLap = lapOf cfg.size (head + n) := by rw [hlap, ha.2.2.2]
  refine h.coherent.tagged _ hv hlap'.le (by rw [← hlap']; exact h.coherent.headLap_lt) ?_
  rw [hlap, ho, chain_atHead h ha]
  exact hs

omit [DecidableEq Tid] in
/-- A published position from the head on still has its value in its slot. -/
theorem value_atHead (h : Inv cfg s g) (ha : AtHead cfg s.queue g head block) {n : ℕ}
    (hn : offset cfg.size head + n < blockCap cfg.size) (hp : g.published (head + n)) :
    s.queue.state block (offset cfg.size head + n) = writtenTag (lapOf cfg.size head) ∧
      ∃ v, g.val (head + n) = some v ∧
        s.queue.value block (offset cfg.size head + n) = some v := by
  obtain ⟨-, hlap, ho⟩ := slot_shift hn
  have hf : ¬g.finished (head + n) := by
    intro hf
    have := h.coherent.lt_of_finished hf
    have := ha.1
    omega
  have hslot := (h.coherent.slot _ hp hf).2.2
  rwa [hlap, ho, chain_atHead h ha] at hslot

theorem loadState_steps (h : Inv cfg s g) (hpc : s.pc t = .single (.loadState head block)) :
    Steps cfg s g t
      (lift ((SinglePc.loadState head block).exec cfg.size cfg.capacity flag fail s.queue)) g := by
  have ha : AtHead cfg s.queue g head block := (local_single h hpc).2
  simp only [SinglePc.exec]
  split
  · exact leave_steps h hpc _ rfl rfl fun _ _ hm => absurd hm List.not_mem_nil
  · rename_i hs
    exact stay_steps h hpc (.readValue head block) rfl rfl
      ⟨ha, published_atHead h ha (n := 0) (isValue_iff.mp ha.2.2.1) (not_not.mp hs)⟩

omit [DecidableEq Tid] in
/-- After the last read the consumer leaves its block or advances. -/
theorem leaveEntry_local (ha : AtHead cfg s.queue g r.head r.block) (hc : Collected cfg g r) :
    LeaveLocal cfg s.queue g (leaveEntry cfg.size r) := by
  rw [leaveEntry]
  split
  · rename_i hl
    exact ⟨ha, hc, hl⟩
  · rename_i hl
    refine ⟨hc, ha.1, ?_⟩
    rw [if_neg hl]
    exact ha

/-- All values have been read. -/
theorem leaveEntry_steps (h : Inv cfg s g) (hpc : s.pc t = .single pc)
    (hh : singleHolds cfg.size pc = none) (hx : singleCrossing cfg.size pc = false)
    (hb : batch = false → r.values.length = 1)
    (ha : AtHead cfg s.queue g r.head r.block) (hc : Collected cfg g r) :
    Steps cfg s g t (lift (s.queue, .goto (.leave batch (leaveEntry cfg.size r)), none)) g := by
  refine stay_steps h hpc _ (hh.trans ?_) (hx.trans ?_) ⟨?_, leaveEntry_local ha hc⟩
  · rw [leaveEntry]
    split <;> simp_all [singleHolds]
  · rw [leaveEntry]
    split <;> simp_all [singleCrossing]
  · rw [leaveEntry]
    split <;> exact hb

theorem readValue_steps (h : Inv cfg s g) (hpc : s.pc t = .single (.readValue head block)) :
    Steps cfg s g t
      (lift ((SinglePc.readValue head block).exec cfg.size cfg.capacity flag fail s.queue)) g := by
  obtain ⟨ha, hp⟩ := (local_single h hpc).2
  have hlt := isValue_iff.mp ha.2.2.1
  obtain ⟨-, v, hval, hv⟩ := value_atHead h ha (n := 0) hlt hp
  simp only [Nat.add_zero] at hv hval
  simp only [SinglePc.exec, hv]
  refine leaveEntry_steps h hpc rfl rfl (fun _ => rfl) ha ⟨?_, by simp, ?_⟩
  · intro i v' hi
    obtain ⟨hi', he⟩ := List.getElem?_eq_some_iff.mp hi
    obtain rfl : i = 0 := by simpa using hi'
    obtain rfl : v = v' := he
    exact ⟨hp, hval⟩
  · exact hlt

/-- The batch goes on, or has read as many values as it may. -/
theorem batchLoop_steps (h : Inv cfg s g) (hpc : s.pc t = .single pc)
    (hh : singleHolds cfg.size pc = none) (hx : singleCrossing cfg.size pc = false)
    (hb : Batching cfg s.queue g max r) (hmax : 0 < max) :
    Steps cfg s g t (lift (s.queue, .goto (batchLoop cfg.size max r), none)) g := by
  rw [batchLoop]
  split
  · rename_i hlt
    exact stay_steps h hpc _ hh hx ⟨hb, hlt⟩
  · rename_i hge
    obtain ⟨ha, hv, -, hle, hcap⟩ := hb
    refine leaveEntry_steps h hpc hh hx nofun ha ⟨hv, ?_, by omega⟩
    intro hnil
    rw [hnil] at hge
    exact hge hmax

theorem slotState_steps (h : Inv cfg s g) (hpc : s.pc t = .single (.slotState max r)) :
    Steps cfg s g t
      (lift ((SinglePc.slotState max r).exec cfg.size cfg.capacity flag fail s.queue)) g := by
  obtain ⟨hb, hlt⟩ := (local_single h hpc).2
  obtain ⟨ha, hv, hp, hle, hcap⟩ := hb
  simp only [SinglePc.exec]
  split
  · rename_i hs
    refine leaveEntry_steps h hpc rfl rfl nofun ha ⟨hv, ?_, by omega⟩
    intro hnil
    have hstate := (value_atHead h ha (n := 0) (isValue_iff.mp ha.2.2.1) hp).1
    rw [hnil] at hs
    exact hs hstate
  · rename_i hs
    exact stay_steps h hpc (.slotValue max r) rfl rfl
      ⟨⟨ha, hv, hp, hle, hcap⟩, hlt, published_atHead h ha (by omega) (not_not.mp hs)⟩

theorem slotValue_steps (h : Inv cfg s g) (hpc : s.pc t = .single (.slotValue max r)) :
    Steps cfg s g t
      (lift ((SinglePc.slotValue max r).exec cfg.size cfg.capacity flag fail s.queue)) g := by
  obtain ⟨⟨ha, hvals, hp, hle, hcap⟩, hlt, hpub⟩ := (local_single h hpc).2
  obtain ⟨-, v, hval, hv⟩ := value_atHead h ha (n := r.values.length) (by omega) hpub
  simp only [SinglePc.exec, hv]
  refine batchLoop_steps h hpc rfl rfl ⟨ha, ?_, hp, ?_, hcap⟩ (Nat.zero_lt_of_lt hlt)
  · intro i v' hi
    rcases Nat.lt_trichotomy i r.values.length with hi' | rfl | hi'
    · rw [List.getElem?_append_left hi'] at hi
      exact hvals i v' hi
    · simp only [List.getElem?_concat_length, Option.some.injEq] at hi
      exact ⟨hpub, hi ▸ hval⟩
    · rw [List.getElem?_eq_none (by simp; omega)] at hi
      cases hi
  · simp only [List.length_append, List.length_singleton]
    exact hlt

end Collecting

section Leaving

variable {next : BlockId} {r : Run V} {batch : Bool} {wake : ℕ}

omit [DecidableEq Tid] in
/-- A batch that ends its block ends with the last position of its lap. -/
theorem last_of_run {z : BlockSize} (hne : r.values ≠ []) (hl : r.last z = true) :
    offset z r.head + r.values.length = blockCap z ∧
      IsLast z (r.head + (r.values.length - 1)) ∧
      lapOf z (r.head + (r.values.length - 1)) = lapOf z r.head := by
  have hlen := List.length_pos_of_ne_nil hne
  have hl : offset z r.head + r.values.length = blockCap z := of_decide_eq_true hl
  obtain ⟨-, hlap, ho⟩ := slot_shift (show offset z r.head + (r.values.length - 1) < blockCap z by omega)
  exact ⟨hl, by rw [IsLast, ho]; omega, hlap⟩

omit [DecidableEq Tid] in
/-- The positions of a receive are published. -/
theorem published_of_values (hv : Values g r) {p : ℕ} (hp : r.head ≤ p)
    (hlt : p < r.head + r.values.length) : g.published p ∧ ∃ v, g.val p = some v := by
  obtain ⟨i, rfl⟩ := Nat.exists_eq_add_of_le hp
  have hi : i < r.values.length := by omega
  have h := hv i _ (List.getElem?_eq_getElem hi)
  exact ⟨h.1, _, h.2⟩

omit [DecidableEq Tid] in
/-- Once the last slot of a block has been read, its whole lap is published. -/
theorem published_of_last (h : Inv cfg s g) (ha : s.queue.head.index = r.head) (hc : Collected cfg g r)
    (hl : r.last cfg.size = true) {p : ℕ} (hv : IsValue cfg.size p)
    (hlap : lapOf cfg.size p = lapOf cfg.size r.head) : g.published p := by
  obtain ⟨-, hlast, hlap'⟩ := last_of_run hc.2.1 hl
  have hle := hlast.le hv (hlap.trans hlap'.symm)
  have hlen := List.length_pos_of_ne_nil hc.2.1
  rcases Nat.lt_or_ge p r.head with hlt | hge
  · exact h.coherent.published_of_lt hv (by omega)
  · exact (published_of_values hc.1 hge (by omega)).1

theorem loadNext_steps (h : Inv cfg s g) (hpc : s.pc t = .single (.leave batch (.loadNext r))) :
    Steps cfg s g t
      (lift ((SinglePc.leave batch (.loadNext r)).exec cfg.size cfg.capacity flag fail s.queue))
      g := by
  obtain ⟨-, hb, ha, hc, hl⟩ := local_single h hpc
  obtain ⟨-, hlast, hlap⟩ := last_of_run hc.2.1 hl
  have hpub := published_of_last h ha.1 hc hl hlast.isValue hlap
  have hL := h.coherent.last_published _ hpub hlast
  rw [hlap] at hL
  have hn := (h.coherent.next_chain _ ha.2.2.2.le hL).resolve_right (by
    rintro ⟨t', p, hw, -, hlap'⟩
    exact h.coherent.not_published hw
      (published_of_last h ha.1 hc hl (h.coherent.writes_spec t' p hw).1 hlap'))
  rw [chain_atHead h ha] at hn
  simp only [SinglePc.exec, LeavePc.exec, hn]
  exact stay_steps h hpc (.leave batch (.storeBlock r (g.chain (lapOf cfg.size r.head + 1)))) rfl rfl
    ⟨hb, ha, hc, hl, hL, rfl⟩

theorem storeBlock_steps (h : Inv cfg s g)
    (hpc : s.pc t = .single (.leave batch (.storeBlock r next))) :
    ∃ g', Steps cfg s g t
      (lift ((SinglePc.leave batch (.storeBlock r next)).exec cfg.size cfg.capacity flag fail
        s.queue)) g' := by
  obtain ⟨hx, hb, ha, hc, hl, hL, rfl⟩ := local_single h hpc
  have hlap := ha.2.2.2
  have hblock := chain_atHead h ha
  have hpub : ∀ p, IsValue cfg.size p → lapOf cfg.size p = g.headLap → g.published p :=
    fun p hv hp => published_of_last h ha.1 hc hl hv (hp.trans hlap)
  have hstart := h.coherent.start_chain _ le_rfl h.coherent.headLap_lt
  have hleave := leave_coherent h.coherent
    (Function.update (views cfg.size s.pc).crossing t true) (view_holds cfg hpc)
    (by rw [hlap]; exact hL) hpub (by simp [hx]) (fun c hc' => by
      obtain rfl : c = t := Option.some.inj (hc'.symm.trans hx)
      exact Function.update_self _ _ _)
  rw [hlap] at hstart hleave
  rw [hblock] at hstart hleave
  have hhold : singleHolds cfg.size (.leave batch (.advance r)) = some r.block := by
    simp [singleHolds, hl]
  refine ⟨g.leave t, goto_steps h hpc (.leave batch (.advance r)) hleave ?_ ?_ rfl rfl rfl
    ⟨hb, hc, ha.1, ?_⟩ (fun t' ht => leave_rely ?_ ?_ _)
      (.quiet rfl rfl rfl rfl rfl fun _ hL => ⟨hL, rfl⟩)⟩
  · rw [hhold]
    rfl
  · rw [singleCrossing, hl]
  · rw [if_pos hl]
    exact ⟨by rw [← hlap]; rfl, hstart⟩
  · intro p hp
    simp [h.coherent.reads_shared (by simp [hx])] at hp
  · rw [hx]
    exact fun he => ht (Option.some.inj he).symm

omit [DecidableEq Tid] in
/-- Where the head goes: past the values read and a sentinel after them. -/
theorem step_spec (hc : Collected cfg g r)
    (hlap : if r.last cfg.size = true then g.headLap = lapOf cfg.size r.head + 1
      else g.headLap = lapOf cfg.size r.head) :
    (r.step cfg.size = r.values.length ∨
      r.step cfg.size = r.values.length + 1 ∧ ¬IsValue cfg.size (r.head + r.values.length)) ∧
    IsValue cfg.size (r.head + r.step cfg.size) ∧
    lapOf cfg.size (r.head + r.step cfg.size) = g.headLap := by
  have hlen := List.length_pos_of_ne_nil hc.2.1
  by_cases hl : r.last cfg.size = true
  · obtain ⟨-, hlast, hlap'⟩ := last_of_run hc.2.1 hl
    have he : r.head + (r.values.length - 1) + 1 = r.head + r.values.length := by omega
    have hsent := (isLast_iff.mp hlast).2
    have hnext := lapOf_add_two_of_isLast hlast
    rw [he] at hsent
    rw [show r.head + (r.values.length - 1) + 2 = r.head + (r.values.length + 1) by omega, hlap'] at hnext
    rw [if_pos hl] at hlap
    rw [Run.step, if_pos hl]
    exact ⟨.inr ⟨rfl, hsent⟩, isValue_succ_of_not_isValue hsent, by rw [hnext, hlap]⟩
  · rw [if_neg hl] at hlap
    rw [Run.step, if_neg hl, Nat.add_zero]
    have hne : offset cfg.size r.head + r.values.length ≠ blockCap cfg.size :=
      fun he => hl (decide_eq_true he)
    obtain ⟨hv, hlap', -⟩ := slot_shift
      (show offset cfg.size r.head + r.values.length < blockCap cfg.size by have := hc.2.2; omega)
    exact ⟨.inl rfl, hv, by rw [hlap', hlap]⟩

end Leaving

section Advancing

variable {r : Run V} {batch : Bool} {wake : ℕ}

/-- Memory after the head moved past the values read. -/
def moved (z : BlockSize) (q : Queue V) (r : Run V) : Queue V :=
  setHead q (r.head + r.step z)

omit [DecidableEq Tid] in
theorem collected_finish (hc : Collected cfg g r) (p n : ℕ) : Collected cfg (g.finish p n) r := hc

/-- The advance takes the positions that were read; a block that was left is
drained by it. -/
theorem advance_effect (h : Inv cfg s g) (hpc : s.pc t = .single (.leave batch (.advance r))) :
    Coherent cfg (moved cfg.size s.queue r) ((views cfg.size s.pc).setCrossing t false)
      (g.finish r.head r.values.length) ∧
    (∀ t' ≠ t, Rely cfg s.queue g (moved cfg.size s.queue r)
      (g.finish r.head r.values.length) (views cfg.size s.pc) t') ∧
    Records cfg.size s.queue g (some (.taken r.head r.values.length))
      (moved cfg.size s.queue r) (g.finish r.head r.values.length) ∧
    (r.last cfg.size = true → Drained cfg (moved cfg.size s.queue r)
      (g.finish r.head r.values.length) r.block) := by
  obtain ⟨hx, -, hc, ha, hlast⟩ := local_single h hpc
  have hlap : if r.last cfg.size = true then g.headLap = lapOf cfg.size r.head + 1
      else g.headLap = lapOf cfg.size r.head := by
    split at hlast
    · rename_i hl
      rw [if_pos hl]
      exact hlast.1
    · rename_i hl
      rw [if_neg hl]
      exact hlast.2.2.2
  obtain ⟨hstep, hv, hlap'⟩ := step_spec hc hlap
  have hpub : ∀ p, r.head ≤ p → p < r.head + r.values.length → g.published p :=
    fun p hp hlt => (published_of_values hc.1 hp hlt).1
  have hcoh := advance_coherent h.coherent hx (n := r.values.length) (by rw [ha]; exact hpub)
    (by rw [ha]; exact hstep) (by rw [ha]; exact hv) (by rw [ha]; exact hlap')
  have hrely := fun t' (ht : t' ≠ t) =>
    advance_rely h.coherent hx ht r.values.length (r.step cfg.size)
  rw [ha] at hcoh hrely
  have hvalue : ∀ p, r.head ≤ p → p < r.head + r.values.length → IsValue cfg.size p :=
    fun p hp hlt => ((h.coherent.published_iff p).mp (hpub p hp hlt)).1
  refine ⟨hcoh, hrely, ⟨(List.append_nil _).symm, ?_, fun p v => by simp [claims, Ghost.finish],
    fun _ hL => ⟨hL, rfl⟩⟩, ?_⟩
  · change valuePositions _ (r.head + r.step cfg.size) = valuePositions _ s.queue.head.index ++ _
    rw [ha]
    rcases hstep with he | ⟨he, hs⟩
    · rw [he]
      exact valuePositions_add hvalue
    · rw [he, ← Nat.add_assoc, valuePositions_skip hs]
      exact valuePositions_add hvalue
  · intro hl
    rw [if_pos hl] at hlast
    refine ⟨lapOf cfg.size r.head, hlast.2, fun p hp hlap => ?_⟩
    obtain ⟨-, hend, hlap''⟩ := last_of_run hc.2.1 hl
    have hle := hend.le hp (hlap.trans hlap''.symm)
    have hlen := List.length_pos_of_ne_nil hc.2.1
    rcases Nat.lt_or_ge p r.head with hlt | hge
    · refine .inl ((h.coherent.finished_iff p).mpr ⟨hp, by omega, fun t' => ?_⟩)
      simp [h.coherent.reads_shared (by simp [hx])]
    · exact .inr ⟨hge, by omega⟩

omit [DecidableEq Tid] in
/-- The values of a finished receive are those claimed for its positions. -/
theorem received_result (hv : Values g r) (p : ℕ) (v : V)
    (hm : (p, v) ∈ (Ret.single (r.result batch wake)).received) : g.val p = some v := by
  have hzip : (p, v) ∈ (List.range' r.head r.values.length).zip r.values → g.val p = some v := by
    intro hm
    obtain ⟨i, hi, he⟩ := List.getElem_of_mem hm
    simp only [List.getElem_zip, List.getElem_range', Prod.mk.injEq, one_mul] at he
    obtain ⟨rfl, rfl⟩ := he
    exact (hv i _ (List.getElem?_eq_getElem (by simpa using hi))).2
  cases batch with
  | true => exact hzip hm
  | false =>
    rw [Run.result] at hm
    cases hvals : r.values with
    | nil => simp [hvals, Ret.received] at hm
    | cons w rest =>
      simp only [hvals, Ret.received, Bool.false_eq_true, if_false, List.mem_singleton,
        Prod.mk.injEq] at hm
      obtain ⟨rfl, rfl⟩ := hm
      exact (hv 0 v (by simp [hvals])).2

/-- After the head moved on, a finished block is recycled. -/
theorem advanced_steps {pc : LeavePc V} (h : Inv cfg s g)
    (hpc : s.pc t = .single (.leave batch pc)) {q' : Queue V} {vw' : Views Tid}
    {e : Option (Effect V)} (hc : Coherent cfg q' vw' g')
    (hh : vw'.holds = Function.update (views cfg.size s.pc).holds t
      (if r.last cfg.size then some r.block else none))
    (hx : vw'.crossing = Function.update (views cfg.size s.pc).crossing t false)
    (hw : vw'.writes = (views cfg.size s.pc).writes) (hs : vw'.stage = (views cfg.size s.pc).stage)
    (hr : vw'.reads = (views cfg.size s.pc).reads)
    (hb : batch = false → r.values.length = 1) (hcol : Collected cfg g' r)
    (hd : r.last cfg.size = true → Drained cfg q' g' r.block)
    (hrely : ∀ t' ≠ t, Rely cfg s.queue g q' g' (views cfg.size s.pc) t')
    (hrec : Records cfg.size s.queue g e q' g') :
    Steps cfg s g t (lift (q', QueueSingle.advanced cfg.size batch r wake, e)) g' := by
  rw [QueueSingle.advanced]
  split
  · rename_i hl
    rw [if_pos hl] at hh
    exact goto_steps h hpc (.leave batch (.resetStart r wake)) hc hh hx hw hs hr ⟨hb, hcol, hd hl⟩
      hrely hrec
  · rename_i hl
    rw [if_neg hl] at hh
    exact ret_steps h hpc _ hc hh hx hw hs hr hrely hrec (received_result hcol.1)

theorem advance_steps (h : Inv cfg s g) (hpc : s.pc t = .single (.leave batch (.advance r))) :
    ∃ g', Steps cfg s g t
      (lift ((SinglePc.leave batch (.advance r)).exec cfg.size cfg.capacity flag fail s.queue))
      g' := by
  obtain ⟨hx, hb, hc, ha, -⟩ := local_single h hpc
  obtain ⟨hcoh, hrely, hrec, hd⟩ := advance_effect h hpc
  have hhold : (views cfg.size s.pc).holds t = if r.last cfg.size then some r.block else none :=
    view_holds cfg hpc
  refine ⟨g.finish r.head r.values.length, ?_⟩
  simp only [SinglePc.exec, LeavePc.exec]
  cases cfg.capacity with
  | none =>
    exact advanced_steps h hpc hcoh (update_same hhold) rfl rfl rfl rfl hb hc hd hrely hrec
  | some cap =>
    simp only [ha]
    exact goto_steps h hpc (.leave batch (.sample r)) hcoh (update_same hhold) rfl rfl rfl rfl
      ⟨hb, hc, hd⟩ hrely hrec

theorem sample_steps (h : Inv cfg s g) (hpc : s.pc t = .single (.leave batch (.sample r))) :
    Steps cfg s g t
      (lift ((SinglePc.leave batch (.sample r)).exec cfg.size cfg.capacity flag fail s.queue))
      g := by
  obtain ⟨hx, hb, hc, hd⟩ := local_single h hpc
  exact advanced_steps h hpc h.coherent (update_same (view_holds cfg hpc))
    (update_same (view_crossing cfg hpc)) rfl rfl rfl hb hc hd (fun _ _ => Rely.refl)
    (.quiet rfl rfl rfl rfl rfl fun _ hL => ⟨hL, rfl⟩)

theorem resetStart_steps (h : Inv cfg s g)
    (hpc : s.pc t = .single (.leave batch (.resetStart r wake))) :
    Steps cfg s g t
      (lift ((SinglePc.leave batch (.resetStart r wake)).exec cfg.size cfg.capacity flag fail
        s.queue)) g := by
  obtain ⟨hx, hb, hc, hd⟩ := local_single h hpc
  have hh : (views cfg.size s.pc).holds t = some r.block := view_holds cfg hpc
  have hcr : (views cfg.size s.pc).crossing t = false := view_crossing cfg hpc
  exact goto_steps h hpc (.leave batch (.recycleSpare r wake))
    (resetStart_coherent h.coherent hh hd) (update_same hh) (update_same hcr) rfl rfl rfl
    ⟨hb, hc, Function.update_self _ _ _,
      fun i _ => h.coherent.unmarked (by simp [hx]) r.block i⟩
    (fun t' ht => held_rely h.coherent hh ht rfl rfl rfl
      (fun _ hb' => Function.update_of_ne hb' _ _) (fun _ _ => rfl) (fun _ _ => rfl)
      (fun _ _ => rfl) rfl) (.quiet rfl rfl rfl rfl rfl fun _ hL => ⟨hL, rfl⟩)

/-- An exclusive receive that returns after giving its block back. -/
theorem release_steps {pc : LeavePc V} (h : Inv cfg s g) (hpc : s.pc t = .single (.leave batch pc))
    (hx : singleCrossing cfg.size (.leave batch pc) = false) (hc : Collected cfg g r) {P : Place Tid}
    {spare : Option BlockId} {pool : BlockPool}
    (hcoh : Coherent cfg { s.queue with spare := spare, pool := pool }
      ((views cfg.size s.pc).setHolds t none) (g.move r.block P)) :
    Steps cfg s g t
      (lift ({ s.queue with spare := spare, pool := pool }, .ret (r.result batch wake), none))
      (g.move r.block P) :=
  ret_steps h hpc _ hcoh rfl (update_same ((view_crossing cfg hpc).trans hx)) rfl rfl rfl
    (fun _ _ => acquire_rely)
    (.quiet rfl rfl rfl rfl rfl fun _ hL => ⟨hL, rfl⟩) (received_result (g := g) hc.1)

theorem recycleSpare_steps (h : Inv cfg s g)
    (hpc : s.pc t = .single (.leave batch (.recycleSpare r wake))) :
    ∃ g', Steps cfg s g t
      (lift ((SinglePc.leave batch (.recycleSpare r wake)).exec cfg.size cfg.capacity flag fail
        s.queue)) g' := by
  obtain ⟨-, hb, hc, hblank⟩ := local_single h hpc
  have hh : (views cfg.size s.pc).holds t = some r.block := view_holds cfg hpc
  simp only [SinglePc.exec, LeavePc.exec]
  split
  · rename_i hs
    exact ⟨_, release_steps h hpc rfl hc (giveSpare_coherent h.coherent hh hs hblank)⟩
  · exact ⟨g, stay_steps h hpc (.leave batch (.recyclePool r wake)) rfl rfl ⟨hb, hc, hblank⟩⟩

theorem recyclePool_steps (h : Inv cfg s g)
    (hpc : s.pc t = .single (.leave batch (.recyclePool r wake))) :
    ∃ g', Steps cfg s g t
      (lift ((SinglePc.leave batch (.recyclePool r wake)).exec cfg.size cfg.capacity flag fail
        s.queue)) g' := by
  obtain ⟨-, hb, hc, hblank⟩ := local_single h hpc
  have hh : (views cfg.size s.pc).holds t = some r.block := view_holds cfg hpc
  exact ⟨_, release_steps h hpc rfl hc (giveReady_coherent h.coherent hh hblank)⟩

end Advancing

/-- Every step of an exclusive receive keeps the invariant. -/
theorem single_steps (h : Inv cfg s g) (hpc : s.pc t = .single pc) :
    ∃ g', Steps cfg s g t (lift (pc.exec cfg.size cfg.capacity flag fail s.queue)) g' := by
  have hl := (local_single h hpc).2
  have hx := (local_single h hpc).1
  cases pc with
  | loadHead => exact ⟨g, stay_steps h hpc (.loadBlock s.queue.head.index) rfl rfl rfl⟩
  | loadBlock head =>
    obtain rfl := hl
    refine ⟨g, ?_⟩
    simp only [SinglePc.exec, if_pos (isValue_iff.mp (isValue_head h hx))]
    exact stay_steps h hpc _ rfl rfl (atHead h hpc rfl)
  | loadState head block => exact ⟨g, loadState_steps h hpc⟩
  | readValue head block => exact ⟨g, readValue_steps h hpc⟩
  | batchHead limit =>
    refine ⟨g, ?_⟩
    simp only [SinglePc.exec]
    split
    · exact leave_steps h hpc _ rfl rfl fun _ _ hm => absurd hm List.not_mem_nil
    · rename_i hlim
      exact stay_steps h hpc (.batchBlock limit s.queue.head.index) rfl rfl
        ⟨Nat.pos_of_ne_zero hlim, rfl⟩
  | batchBlock limit head =>
    obtain ⟨hlim, rfl⟩ := hl
    refine ⟨g, ?_⟩
    simp only [SinglePc.exec, if_pos (isValue_iff.mp (isValue_head h hx))]
    exact stay_steps h hpc _ rfl rfl ⟨hlim, atHead h hpc rfl⟩
  | batchState limit head block =>
    obtain ⟨hlim, ha⟩ := hl
    refine ⟨g, ?_⟩
    simp only [SinglePc.exec]
    split
    · exact leave_steps h hpc _ rfl rfl fun _ _ hm => absurd hm List.not_mem_nil
    · rename_i hs
      have hlt := isValue_iff.mp ha.2.2.1
      exact stay_steps h hpc _ rfl rfl
        ⟨ha, published_atHead h ha (n := 0) hlt (not_not.mp hs), by omega, by omega⟩
  | reserve max head block =>
    obtain ⟨ha, hp, hmax, hcap⟩ := hl
    refine ⟨g, ?_⟩
    simp only [SinglePc.exec]
    split
    · exact leave_steps h hpc _ rfl rfl fun _ _ hm => absurd hm List.not_mem_nil
    · exact batchLoop_steps h hpc rfl rfl ⟨ha, nofun, hp, Nat.zero_le _, hcap⟩ hmax
  | slotState max r => exact ⟨g, slotState_steps h hpc⟩
  | slotValue max r => exact ⟨g, slotValue_steps h hpc⟩
  | leave batch pc =>
    cases pc with
    | loadNext r => exact ⟨g, loadNext_steps h hpc⟩
    | storeBlock r next => exact storeBlock_steps h hpc
    | advance r => exact advance_steps h hpc
    | sample r => exact ⟨g, sample_steps h hpc⟩
    | resetStart r wake => exact ⟨g, resetStart_steps h hpc⟩
    | recycleSpare r wake => exact recycleSpare_steps h hpc
    | recyclePool r wake => exact recyclePool_steps h hpc

end Rapidfire.QueueSingleSteps
