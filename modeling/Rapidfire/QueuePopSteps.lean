import Rapidfire.QueueSteps

/-!
# Steps of a pop

Every step of a pop keeps the invariant. The steps are grouped as the pop
runs: look at the head slot and claim it, read the value, leave a finished
block and hand it back.
-/

namespace Rapidfire.QueuePopSteps

open Positions QueueMemory QueuePop QueueMachine QueueCoherence QueueLocal QueueRely
  QueueProduce QueueConsume QueueSteps Updates

variable {Tid V : Type} [DecidableEq Tid] {cfg : Config Tid} {s : State Tid V}
  {g g' : Ghost Tid V} {t : Tid} {pc pc' : PopPc V} {flag : ℕ} {fail : Bool}

/-- The outcome of a pop step as an outcome of the thread. -/
def lift (o : Outcome V (PopPc V) (PopRet V)) : Outcome V (Pc V) (Ret V) :=
  (o.1, Next.map .pop .pop o.2.1, o.2.2)

/-- Values a finished pop returns. -/
def received : PopRet V → List (ℕ × V)
  | .popped head v _ => [(head, v)]
  | .nothing => []

section Shape

omit [DecidableEq Tid] in
theorem view_reads (cfg : Config Tid) (hpc : s.pc t = .pop pc) :
    (views cfg.size s.pc).reads t = popReads pc := by
  simp [views, reads, hpc]

omit [DecidableEq Tid] in
theorem view_holds (cfg : Config Tid) (hpc : s.pc t = .pop pc) :
    (views cfg.size s.pc).holds t = popHolds pc := by
  simp [views, holds, hpc]

omit [DecidableEq Tid] in
theorem local_pop (h : Inv cfg s g) (hpc : s.pc t = .pop pc) :
    cfg.exclusive = none ∧ PopLocal cfg s.queue g pc := by
  have hl := h.assertion t
  rwa [hpc] at hl

/-- A pop step leaves the views that are not its own as they are. -/
theorem pop_inv (h : Inv cfg s g) (hpc : s.pc t = .pop pc) {q' : Queue V} {vw' : Views Tid}
    {p' : Pc V} (hc : Coherent cfg q' vw' g') (hp : writes cfg.size p' = none ∧ stage p' = .before ∧
      crossing cfg.size p' = false)
    (hr : vw'.reads = Function.update (views cfg.size s.pc).reads t (reads p'))
    (hh : vw'.holds = Function.update (views cfg.size s.pc).holds t (holds cfg.size p'))
    (hw : vw'.writes = (views cfg.size s.pc).writes) (hs : vw'.stage = (views cfg.size s.pc).stage)
    (hx : vw'.crossing = (views cfg.size s.pc).crossing) (hl : Local cfg q' g' t p')
    (hrely : ∀ t' ≠ t, Rely cfg s.queue g q' g' (views cfg.size s.pc) t') :
    Inv cfg ⟨q', Function.update s.pc t p'⟩ g' := by
  obtain ⟨h1, h2, h3⟩ := hp
  refine next_inv h hc (hw.trans (update_same ?_)) (hs.trans (update_same ?_)) hr hh
    (hx.trans (update_same ?_)) hl hrely
  · rw [h1]
    simp [views, writes, hpc]
  · rw [h2]
    simp [views, stage, hpc]
  · rw [h3]
    simp [views, crossing, hpc]

/-- A pop step that goes on at another program point. -/
theorem goto_steps (h : Inv cfg s g) (hpc : s.pc t = .pop pc) (pc' : PopPc V) {q' : Queue V}
    {vw' : Views Tid} {e : Option (Effect V)} (hc : Coherent cfg q' vw' g')
    (hr : vw'.reads = Function.update (views cfg.size s.pc).reads t (popReads pc'))
    (hh : vw'.holds = Function.update (views cfg.size s.pc).holds t (popHolds pc'))
    (hw : vw'.writes = (views cfg.size s.pc).writes) (hs : vw'.stage = (views cfg.size s.pc).stage)
    (hx : vw'.crossing = (views cfg.size s.pc).crossing) (hl : PopLocal cfg q' g' pc')
    (hrely : ∀ t' ≠ t, Rely cfg s.queue g q' g' (views cfg.size s.pc) t')
    (hrec : Records cfg.size s.queue g e q' g') :
    Steps cfg s g t (lift (q', .goto pc', e)) g' where
  inv := pop_inv h hpc hc ⟨rfl, rfl, rfl⟩ hr hh hw hs hx ⟨(local_pop h hpc).1, hl⟩ hrely
  records := hrec
  received := nofun
  sound := nofun

/-- A pop step that returns. -/
theorem ret_steps (h : Inv cfg s g) (hpc : s.pc t = .pop pc) {q' : Queue V} {vw' : Views Tid}
    (r : PopRet V) (hc : Coherent cfg q' vw' g')
    (hr : vw'.reads = Function.update (views cfg.size s.pc).reads t none)
    (hh : vw'.holds = Function.update (views cfg.size s.pc).holds t none)
    (hw : vw'.writes = (views cfg.size s.pc).writes) (hs : vw'.stage = (views cfg.size s.pc).stage)
    (hx : vw'.crossing = (views cfg.size s.pc).crossing)
    (hrely : ∀ t' ≠ t, Rely cfg s.queue g q' g' (views cfg.size s.pc) t')
    (hrec : Records cfg.size s.queue g none q' g')
    (hval : ∀ p v, (p, v) ∈ received r → g'.val p = some v) :
    Steps cfg s g t (lift (q', .ret r, none)) g' where
  inv := pop_inv h hpc hc ⟨rfl, rfl, rfl⟩ hr hh hw hs hx trivial hrely
  records := hrec
  received := by
    rintro r' ⟨⟩
    cases r <;> exact hval
  sound := nofun

/-- A pop step that changes no memory. -/
theorem stay_steps (h : Inv cfg s g) (hpc : s.pc t = .pop pc) (pc' : PopPc V)
    (hr : popReads pc = popReads pc') (hh : popHolds pc = popHolds pc')
    (hl : PopLocal cfg s.queue g pc') : Steps cfg s g t (lift (s.queue, .goto pc', none)) g :=
  goto_steps h hpc pc' h.coherent (update_same ((view_reads cfg hpc).trans hr))
    (update_same ((view_holds cfg hpc).trans hh)) rfl rfl rfl hl (fun _ _ => Rely.refl)
    (.quiet rfl rfl rfl rfl rfl fun _ hL => ⟨hL, rfl⟩)

/-- A pop that returns without a value. -/
theorem nothing_steps (h : Inv cfg s g) (hpc : s.pc t = .pop pc)
    (hr : popReads pc = none) (hh : popHolds pc = none) :
    Steps cfg s g t (lift (s.queue, .ret .nothing, none)) g :=
  ret_steps h hpc _ h.coherent (update_same ((view_reads cfg hpc).trans hr))
    (update_same ((view_holds cfg hpc).trans hh)) rfl rfl rfl (fun _ _ => Rely.refl)
    (.quiet rfl rfl rfl rfl rfl fun _ hL => ⟨hL, rfl⟩) (fun _ _ hm => absurd hm List.not_mem_nil)

end Shape

section Claiming

variable {head wait : ℕ} {block : BlockId}

omit [DecidableEq Tid] in
/-- The head block serves the lap of the head, unless the head waits on a
sentinel. -/
theorem serves_head {q : Queue V} {vw : Views Tid} (h : Coherent cfg q vw g)
    (hx : cfg.exclusive = none) (hv : IsValue cfg.size q.head.index) :
    Serves cfg g q.head.index q.head.block := by
  rw [Serves, h.head_shared hx hv]
  exact ⟨h.headLap_lt, h.head_block.symm⟩

theorem loadBlock_steps (h : Inv cfg s g) (hpc : s.pc t = .pop (.loadBlock head wait)) :
    Steps cfg s g t
      (lift ((PopPc.loadBlock head wait).exec cfg.size cfg.capacity flag fail s.queue)) g := by
  obtain ⟨hx, hle⟩ := local_pop h hpc
  simp only [PopPc.exec, popLoop]
  split
  · split
    · exact nothing_steps h hpc rfl rfl
    · exact stay_steps h hpc _ rfl rfl trivial
  · rename_i hv
    refine stay_steps h hpc (.loadState head s.queue.head.block wait) rfl rfl ⟨hv, ?_, hle, ?_⟩
    · rw [h.coherent.head_block]
      exact h.coherent.chain_lt_allocated le_rfl h.coherent.headLap_lt
    · rintro rfl
      exact serves_head h.coherent hx hv

theorem loadState_steps (h : Inv cfg s g) (hpc : s.pc t = .pop (.loadState head block wait)) :
    Steps cfg s g t
      (lift ((PopPc.loadState head block wait).exec cfg.size cfg.capacity flag fail s.queue)) g := by
  obtain ⟨hx, hl⟩ := local_pop h hpc
  simp only [PopPc.exec]
  split
  · exact stay_steps h hpc _ rfl rfl hl
  · rename_i hstate
    refine stay_steps h hpc (.claim head block wait) rfl rfl ⟨hl, ?_⟩
    rintro rfl
    obtain ⟨hv, -, -, hs⟩ := hl
    obtain ⟨hL, rfl⟩ := hs rfl
    exact h.coherent.tagged _ hv (h.coherent.head_shared hx hv).ge hL (not_not.mp hstate)

theorem claim_steps (h : Inv cfg s g) (hpc : s.pc t = .pop (.claim head block wait)) :
    Steps cfg s g t
      (lift ((PopPc.claim head block wait).exec cfg.size cfg.capacity flag fail s.queue)) g := by
  obtain ⟨hx, ⟨hv, -, -, hs⟩, hpub⟩ := local_pop h hpc
  simp only [PopPc.exec]
  split
  · rename_i heq
    obtain ⟨rfl, -⟩ := heq
    have hpub := hpub rfl
    have hc := take_coherent h.coherent hx (view_reads cfg hpc) hpub
    have hlap := (h.coherent.head_shared hx hv).symm
    have hrec : Records cfg.size s.queue g (some (.taken s.queue.head.index 1))
        (setHead s.queue (s.queue.head.index + 1)) g := by
      refine ⟨(List.append_nil _).symm, ?_, fun p v => ?_, fun _ hL => ⟨hL, rfl⟩⟩
      · change valuePositions _ (s.queue.head.index + 1) = _ ++ [s.queue.head.index]
        rw [valuePositions_succ, if_pos hv]
      · simp [claims]
    have hh : (views cfg.size s.pc).holds t = none := view_holds cfg hpc
    cases cfg.capacity with
    | none =>
      exact goto_steps h hpc (.readValue ⟨s.queue.head.index, block, false⟩) hc rfl (update_same hh)
        rfl rfl rfl ⟨hs rfl, fun _ => ⟨rfl, hlap⟩⟩ (fun _ _ => take_rely h.coherent hx hv) hrec
    | some cap =>
      exact goto_steps h hpc (.sample s.queue.head.index block) hc rfl (update_same hh)
        rfl rfl rfl ⟨hs rfl, fun _ => ⟨rfl, hlap⟩⟩ (fun _ _ => take_rely h.coherent hx hv) hrec
  · exact stay_steps h hpc (.loadBlock s.queue.head.index (spin wait)) rfl rfl
      (le_refl s.queue.head.index)

end Claiming

section Reading

variable {k : Taken} {v : V}

omit [DecidableEq Tid] in
/-- The slot of a taken position holds the value it was claimed for. -/
theorem value_of_reads {q : Queue V} {vw : Views Tid} {p : ℕ} (h : Coherent cfg q vw g)
    (hr : vw.reads t = some p) : ∃ v, g.val p = some v ∧
      q.value (g.chain (lapOf cfg.size p)) (offset cfg.size p) = some v :=
  (h.slot p (h.published_of_lt (h.reads_spec t p hr).1 (h.reads_spec t p hr).2)
    (not_finished h hr)).2.2.2

theorem readValue_steps (h : Inv cfg s g) (hpc : s.pc t = .pop (.readValue k)) :
    Steps cfg s g t
      (lift ((PopPc.readValue k).exec cfg.size cfg.capacity flag fail s.queue)) g := by
  obtain ⟨-, hr⟩ := local_pop h hpc
  obtain ⟨v, hval, hv⟩ := value_of_reads h.coherent (view_reads cfg hpc)
  rw [hr.1.2] at hv
  simp only [PopPc.exec, hv]
  split
  · rename_i hl
    exact stay_steps h hpc (.loadNext k v) rfl rfl ⟨hr, hl, hval⟩
  · rename_i hl
    exact stay_steps h hpc (.markRead k v) rfl rfl ⟨hr, hl, hval⟩

theorem markRead_steps (h : Inv cfg s g) (hpc : s.pc t = .pop (.markRead k v)) :
    ∃ g', Steps cfg s g t
      (lift ((PopPc.markRead k v).exec cfg.size cfg.capacity flag fail s.queue)) g' := by
  obtain ⟨hx, ⟨⟨-, hb⟩, -⟩, -, hval⟩ := local_pop h hpc
  have hr : (views cfg.size s.pc).reads t = some k.head := view_reads cfg hpc
  have hc := markRead_coherent h.coherent hx hr
  have hrely : ∀ t' ≠ t, Rely cfg s.queue g _ _ (views cfg.size s.pc) t' :=
    fun _ _ => markRead_rely h.coherent hr
  rw [hb] at hc hrely
  refine ⟨g.finish k.head 1, ret_steps h hpc (.popped k.head v k.wake) hc rfl
    (update_same (view_holds cfg hpc)) rfl rfl rfl hrely
    (.quiet rfl rfl rfl rfl rfl fun _ hL => ⟨hL, rfl⟩) ?_⟩
  intro p v' hm
  obtain ⟨rfl, rfl⟩ := Prod.mk.inj (List.mem_singleton.mp hm)
  exact hval

end Reading

section Leaving

variable {k : Taken} {v : V} {next : BlockId}

omit [DecidableEq Tid] in
/-- The block after the one whose last slot was taken has been linked. -/
theorem next_of_last {q : Queue V} {vw : Views Tid} {p : ℕ} (h : Coherent cfg q vw g)
    (hr : vw.reads t = some p) (hl : IsLast cfg.size p) (hlap : g.headLap = lapOf cfg.size p) :
    lapOf cfg.size p + 1 < g.laps ∧
      q.next (g.chain (lapOf cfg.size p)) = some (g.chain (lapOf cfg.size p + 1)) := by
  have hspec := h.reads_spec t p hr
  have hL := h.last_published p (h.published_of_lt hspec.1 hspec.2) hl
  refine ⟨hL, (h.next_chain _ hlap.le hL).resolve_right ?_⟩
  rintro ⟨t', p', hw, -, hlap'⟩
  have hle := hl.le (h.writes_spec t' p' hw).1 hlap'
  have hge := (h.writes_spec t' p' hw).2.1
  have hlt := hspec.2
  omega

theorem loadNext_steps (h : Inv cfg s g) (hpc : s.pc t = .pop (.loadNext k v)) :
    Steps cfg s g t
      (lift ((PopPc.loadNext k v).exec cfg.size cfg.capacity flag fail s.queue)) g := by
  obtain ⟨-, hr, hl, hval⟩ := local_pop h hpc
  obtain ⟨hL, hn⟩ := next_of_last h.coherent (view_reads cfg hpc) hl (hr.2 hl).2
  rw [hr.1.2] at hn
  simp only [PopPc.exec, hn]
  refine stay_steps h hpc (.storeBlock k v (g.chain (lapOf cfg.size k.head + 1))) rfl rfl
    ⟨hr, hl, hval, ?_⟩
  rw [Serves, lapOf_add_two_of_isLast hl]
  exact ⟨hL, rfl⟩

theorem storeBlock_steps (h : Inv cfg s g) (hpc : s.pc t = .pop (.storeBlock k v next)) :
    ∃ g', Steps cfg s g t
      (lift ((PopPc.storeBlock k v next).exec cfg.size cfg.capacity flag fail s.queue)) g' := by
  obtain ⟨hx, hr, hl, hval, hnext⟩ := local_pop h hpc
  obtain ⟨hhead, hlap⟩ := hr.2 hl
  have hview : (views cfg.size s.pc).reads t = some k.head := view_reads cfg hpc
  have hsent : ¬IsValue cfg.size s.queue.head.index := by
    rw [hhead]
    exact (isLast_iff.mp hl).2
  have hpub : ∀ p, IsValue cfg.size p → lapOf cfg.size p = g.headLap → g.published p := by
    intro p hv hp
    have hle := hl.le hv (hp.trans hlap)
    exact h.coherent.published_of_lt hv (by omega)
  have hb : g.chain g.headLap = k.block := by
    rw [hlap]
    exact hr.1.2
  rw [Serves, lapOf_add_two_of_isLast hl, ← hlap] at hnext
  obtain ⟨hL, rfl⟩ := hnext
  have hc := leave_coherent h.coherent (views cfg.size s.pc).crossing (view_holds cfg hpc) hL hpub
    (fun _ => hsent) (by simp [hx])
  have hstart := h.coherent.start_chain _ le_rfl h.coherent.headLap_lt
  rw [hb] at hc hstart
  refine ⟨g.leave t, goto_steps h hpc (.swapIndex k v) hc (update_same hview) rfl rfl rfl
    rfl ⟨hval, hl, hhead, by rw [← hlap]; rfl, by rw [← hlap]; exact hstart⟩
    (fun t' ht => leave_rely (fun p hp => still_of_ne h.coherent hview hl ht hp) (by simp [hx]) _)
    (.quiet rfl rfl rfl rfl rfl fun _ hL => ⟨hL, rfl⟩)⟩

theorem swapIndex_steps (h : Inv cfg s g) (hpc : s.pc t = .pop (.swapIndex k v)) :
    ∃ g', Steps cfg s g t
      (lift ((PopPc.swapIndex k v).exec cfg.size cfg.capacity flag fail s.queue)) g' := by
  obtain ⟨hx, hval, hl, hhead, hlap, hstart⟩ := local_pop h hpc
  have hview : (views cfg.size s.pc).reads t = some k.head := view_reads cfg hpc
  have hh : (views cfg.size s.pc).holds t = some k.block := view_holds cfg hpc
  have hc := swapIndex_coherent h.coherent hx hview hl hlap
  refine ⟨g.finish k.head 1, goto_steps h hpc (.readersDone k v 0) hc rfl (update_same hh)
    rfl rfl rfl ⟨⟨hval, hl, .inr (by omega), ?_, hstart⟩, one_lt_blockCap, nofun⟩
    (fun t' ht => swapIndex_rely h.coherent hx hview hl ht) ?_⟩
  · rw [show (g.finish k.head 1).headLap = g.headLap from rfl, hlap]
    exact Nat.lt_succ_self _
  · refine ⟨(List.append_nil _).symm, ?_, fun p v => by simp [claims, Ghost.finish],
      fun _ hL => ⟨hL, rfl⟩⟩
    change valuePositions _ (k.head + 1 + 1) = _ ++ []
    rw [valuePositions_skip (isLast_iff.mp hl).2, hhead, List.append_nil]

theorem readersDone_steps {i : ℕ} (h : Inv cfg s g) (hpc : s.pc t = .pop (.readersDone k v i)) :
    Steps cfg s g t
      (lift ((PopPc.readersDone k v i).exec cfg.size cfg.capacity flag fail s.queue)) g := by
  obtain ⟨-, hk, hi, hm⟩ := local_pop h hpc
  simp only [PopPc.exec]
  split
  · exact stay_steps h hpc (.retire k v) rfl rfl hk
  · rename_i hmark
    have hm' : ∀ j < i + 1, s.queue.mark k.block j = true := by
      intro j hj
      rcases Nat.lt_succ_iff_lt_or_eq.mp hj with hlt | rfl
      · exact hm j hlt
      · exact Bool.eq_true_of_not_eq_false hmark
    split
    · exact stay_steps h hpc (.readersDone k v (i + 1)) rfl rfl ⟨hk, by omega, hm'⟩
    · obtain ⟨hval, hl, hf, -, hs⟩ := hk
      refine stay_steps h hpc (.resetMark k v 0) rfl rfl
        ⟨hval, ⟨lapOf cfg.size k.head, hs, fun p hv hp => ?_⟩, nofun⟩
      by_cases hl' : IsLast cfg.size p
      · rwa [hl'.ext hl hp]
      · refine h.coherent.marked k.block p (by rw [hs, hp]) hv (hm' _ ?_)
        rw [isValue_iff] at hv
        rw [IsLast] at hl'
        omega

theorem resetMark_steps {i : ℕ} (h : Inv cfg s g) (hpc : s.pc t = .pop (.resetMark k v i)) :
    Steps cfg s g t
      (lift ((PopPc.resetMark k v i).exec cfg.size cfg.capacity flag fail s.queue)) g := by
  obtain ⟨-, hval, hd, hm⟩ := local_pop h hpc
  have hb : (views cfg.size s.pc).holds t = some k.block := view_holds cfg hpc
  have hr : (views cfg.size s.pc).reads t = none := view_reads cfg hpc
  have hc := resetMark_coherent h.coherent k.block i
  have hrely : ∀ t' ≠ t, Rely cfg s.queue g (s.queue.setMark k.block i false) g
      (views cfg.size s.pc) t' := fun t' ht =>
    held_rely h.coherent hb ht rfl rfl rfl (fun _ _ => rfl) (fun _ _ => rfl) (fun _ _ => rfl)
      (fun _ hb' => Function.update_of_ne hb' _ _) rfl
  have hm' : ∀ j < i + 1, (s.queue.setMark k.block i false).mark k.block j = false := by
    intro j hj
    rw [Queue.mark_setMark, update_update_apply]
    split
    · rfl
    · rename_i hne
      have hji : j ≠ i := fun he => hne ⟨rfl, he⟩
      exact hm j (by omega)
  simp only [PopPc.exec]
  split
  · exact goto_steps h hpc (.resetMark k v (i + 1)) hc (update_same hr) (update_same hb) rfl rfl rfl
      ⟨hval, hd, hm'⟩ hrely (.quiet rfl rfl rfl rfl rfl fun _ hL => ⟨hL, rfl⟩)
  · exact goto_steps h hpc (.resetStart k v) hc (update_same hr) (update_same hb) rfl rfl rfl
      ⟨hval, hd, fun j hj => hm' j (by omega)⟩ hrely
      (.quiet rfl rfl rfl rfl rfl fun _ hL => ⟨hL, rfl⟩)

theorem resetStart_steps (h : Inv cfg s g) (hpc : s.pc t = .pop (.resetStart k v)) :
    Steps cfg s g t
      (lift ((PopPc.resetStart k v).exec cfg.size cfg.capacity flag fail s.queue)) g := by
  obtain ⟨-, hval, hd, hm⟩ := local_pop h hpc
  have hb : (views cfg.size s.pc).holds t = some k.block := view_holds cfg hpc
  have hr : (views cfg.size s.pc).reads t = none := view_reads cfg hpc
  exact goto_steps h hpc (.recycleSpare k v) (resetStart_coherent h.coherent hb hd)
    (update_same hr) (update_same hb) rfl rfl rfl ⟨hval, Function.update_self _ _ _, hm⟩
    (fun t' ht => held_rely h.coherent hb ht rfl rfl rfl
      (fun _ hb' => Function.update_of_ne hb' _ _) (fun _ _ => rfl) (fun _ _ => rfl)
      (fun _ _ => rfl) rfl) (.quiet rfl rfl rfl rfl rfl fun _ hL => ⟨hL, rfl⟩)

/-- A pop that returns after giving its block back. -/
theorem release_steps (h : Inv cfg s g) (hpc : s.pc t = .pop pc) (hr : popReads pc = none)
    (hval : g.val k.head = some v) {P : Place Tid}
    {spare : Option BlockId} {pool : BlockPool}
    (hc : Coherent cfg { s.queue with spare := spare, pool := pool }
      ((views cfg.size s.pc).setHolds t none) (g.move k.block P)) :
    Steps cfg s g t
      (lift ({ s.queue with spare := spare, pool := pool }, .ret (.popped k.head v k.wake), none))
      (g.move k.block P) := by
  refine ret_steps h hpc _ hc (update_same ((view_reads cfg hpc).trans hr)) rfl rfl rfl rfl
    (fun _ _ => acquire_rely) (.quiet rfl rfl rfl rfl rfl fun _ hL => ⟨hL, rfl⟩) fun p v' hm => ?_
  obtain ⟨rfl, rfl⟩ := Prod.mk.inj (List.mem_singleton.mp hm)
  exact hval

theorem retire_steps (h : Inv cfg s g) (hpc : s.pc t = .pop (.retire k v)) :
    ∃ g', Steps cfg s g t
      (lift ((PopPc.retire k v).exec cfg.size cfg.capacity flag fail s.queue)) g' := by
  obtain ⟨-, hval, hl, hf, hlap, hs⟩ := local_pop h hpc
  have hb : (views cfg.size s.pc).holds t = some k.block := view_holds cfg hpc
  exact ⟨_, release_steps h hpc rfl hval
    (giveRetired_coherent h.coherent hb ⟨k.head, hl, hf, hlap, hs⟩)⟩

theorem recycleSpare_steps (h : Inv cfg s g) (hpc : s.pc t = .pop (.recycleSpare k v)) :
    ∃ g', Steps cfg s g t
      (lift ((PopPc.recycleSpare k v).exec cfg.size cfg.capacity flag fail s.queue)) g' := by
  obtain ⟨-, hval, hblank⟩ := local_pop h hpc
  have hb : (views cfg.size s.pc).holds t = some k.block := view_holds cfg hpc
  simp only [PopPc.exec]
  split
  · rename_i hs
    exact ⟨_, release_steps h hpc rfl hval (giveSpare_coherent h.coherent hb hs hblank)⟩
  · exact ⟨g, stay_steps h hpc (.recyclePool k v) rfl rfl ⟨hval, hblank⟩⟩

theorem recyclePool_steps (h : Inv cfg s g) (hpc : s.pc t = .pop (.recyclePool k v)) :
    ∃ g', Steps cfg s g t
      (lift ((PopPc.recyclePool k v).exec cfg.size cfg.capacity flag fail s.queue)) g' := by
  obtain ⟨-, hval, hblank⟩ := local_pop h hpc
  have hb : (views cfg.size s.pc).holds t = some k.block := view_holds cfg hpc
  exact ⟨_, release_steps h hpc rfl hval (giveReady_coherent h.coherent hb hblank)⟩

end Leaving

/-- Every step of a pop keeps the invariant. -/
theorem pop_steps (h : Inv cfg s g) (hpc : s.pc t = .pop pc) :
    ∃ g', Steps cfg s g t (lift (pc.exec cfg.size cfg.capacity flag fail s.queue)) g' := by
  have hl := (local_pop h hpc).2
  cases pc with
  | loadHead wait =>
    exact ⟨g, stay_steps h hpc (.loadBlock s.queue.head.index wait) rfl rfl
      (le_refl s.queue.head.index)⟩
  | loadBlock head wait => exact ⟨g, loadBlock_steps h hpc⟩
  | loadState head block wait => exact ⟨g, loadState_steps h hpc⟩
  | reloadHead head block wait =>
    refine ⟨g, ?_⟩
    simp only [PopPc.exec]
    split
    · exact nothing_steps h hpc rfl rfl
    · exact stay_steps h hpc (.loadBlock s.queue.head.index wait) rfl rfl
        (le_refl s.queue.head.index)
  | claim head block wait => exact ⟨g, claim_steps h hpc⟩
  | sample head block => exact ⟨g, stay_steps h hpc _ rfl rfl hl⟩
  | readValue k => exact ⟨g, readValue_steps h hpc⟩
  | markRead k v => exact markRead_steps h hpc
  | loadNext k v => exact ⟨g, loadNext_steps h hpc⟩
  | storeBlock k v next => exact storeBlock_steps h hpc
  | swapIndex k v => exact swapIndex_steps h hpc
  | readersDone k v i => exact ⟨g, readersDone_steps h hpc⟩
  | retire k v => exact retire_steps h hpc
  | resetMark k v i => exact ⟨g, resetMark_steps h hpc⟩
  | resetStart k v => exact ⟨g, resetStart_steps h hpc⟩
  | recycleSpare k v => exact recycleSpare_steps h hpc
  | recyclePool k v => exact recyclePool_steps h hpc

end Rapidfire.QueuePopSteps
