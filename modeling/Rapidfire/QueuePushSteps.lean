import Rapidfire.QueueSteps

/-!
# Steps of a push

Every step of a push keeps the invariant. The steps are grouped as the push
runs: claim a position, find its block, install the next block, publish.
-/

namespace Rapidfire.QueuePushSteps

open Positions QueueMemory QueuePush QueueMachine QueueCoherence QueueLocal QueueRely
  QueueProduce QueueSteps Updates

variable {Tid V : Type} [DecidableEq Tid] {cfg : Config Tid} {s : State Tid V}
  {g g' : Ghost Tid V} {t : Tid} {pc pc' : PushPc V} {flag : ℕ} {fail : Bool}

/-- The outcome of a push step as an outcome of the thread. -/
def lift (o : Outcome V (PushPc V) (PushRet V)) : Outcome V (Pc V) (Ret V) :=
  (o.1, Next.map .push .push o.2.1, o.2.2)

section Shape

omit [DecidableEq Tid] in
theorem view_writes (cfg : Config Tid) (hpc : s.pc t = .push pc) :
    (views cfg.size s.pc).writes t = pushWrites cfg.size pc := by
  simp [views, writes, hpc]

omit [DecidableEq Tid] in
theorem view_stage (cfg : Config Tid) (hpc : s.pc t = .push pc) : (views cfg.size s.pc).stage t = pushStage pc := by
  simp [views, stage, hpc]

omit [DecidableEq Tid] in
theorem view_holds (cfg : Config Tid) (hpc : s.pc t = .push pc) : (views cfg.size s.pc).holds t = pushHolds pc := by
  simp [views, holds, hpc]

omit [DecidableEq Tid] in
theorem view_reads (cfg : Config Tid) (hpc : s.pc t = .push pc) : (views cfg.size s.pc).reads t = none := by
  simp [views, reads, hpc]

omit [DecidableEq Tid] in
theorem view_crossing (cfg : Config Tid) (hpc : s.pc t = .push pc) :
    (views cfg.size s.pc).crossing t = false := by
  simp [views, crossing, hpc]

omit [DecidableEq Tid] in
theorem local_push (h : Inv cfg s g) (hpc : s.pc t = .push pc) : PushLocal cfg s.queue g pc := by
  have hl := h.assertion t
  rwa [hpc] at hl

/-- A push step that goes on at another program point. -/
theorem goto_steps (h : Inv cfg s g) (hpc : s.pc t = .push pc) {q' : Queue V} {vw' : Views Tid}
    {e : Option (Effect V)} (hc : Coherent cfg q' vw' g')
    (hw : vw'.writes = Function.update (views cfg.size s.pc).writes t (pushWrites cfg.size pc'))
    (hs : vw'.stage = Function.update (views cfg.size s.pc).stage t (pushStage pc'))
    (hh : vw'.holds = Function.update (views cfg.size s.pc).holds t (pushHolds pc'))
    (hr : vw'.reads = (views cfg.size s.pc).reads)
    (hx : vw'.crossing = (views cfg.size s.pc).crossing) (hl : PushLocal cfg q' g' pc')
    (hrely : ∀ t' ≠ t, Rely cfg s.queue g q' g' (views cfg.size s.pc) t')
    (hrec : Records cfg.size s.queue g e q' g') :
    Steps cfg s g t (lift (q', .goto pc', e)) g' where
  inv := next_inv h hc hw hs (hr.trans (update_same (view_reads cfg hpc))) hh
    (hx.trans (update_same (view_crossing cfg hpc))) hl hrely
  records := hrec
  received := nofun
  sound := nofun

/-- A push step that changes no memory. -/
theorem stay_steps (h : Inv cfg s g) (hpc : s.pc t = .push pc)
    (hw : pushWrites cfg.size pc = pushWrites cfg.size pc') (hs : pushStage pc = pushStage pc')
    (hh : pushHolds pc = pushHolds pc') (hl : PushLocal cfg s.queue g pc') :
    Steps cfg s g t (lift (s.queue, .goto pc', none)) g :=
  goto_steps h hpc h.coherent (update_same ((view_writes cfg hpc).trans hw))
    (update_same ((view_stage cfg hpc).trans hs)) (update_same ((view_holds cfg hpc).trans hh)) rfl rfl hl
    (fun _ _ => Rely.refl) (.quiet rfl rfl rfl rfl rfl fun _ hL => ⟨hL, rfl⟩)

/-- A push step that changes memory outside the indices and keeps the views. -/
theorem quiet_steps (h : Inv cfg s g) (hpc : s.pc t = .push pc) {q' : Queue V}
    {e : Option (Effect V)} (hc : Coherent cfg q' (views cfg.size s.pc) g)
    (hw : pushWrites cfg.size pc = pushWrites cfg.size pc') (hs : pushStage pc = pushStage pc')
    (hh : pushHolds pc = pushHolds pc') (hl : PushLocal cfg q' g pc')
    (hrely : ∀ t' ≠ t, Rely cfg s.queue g q' g (views cfg.size s.pc) t')
    (hti : q'.tail.index = s.queue.tail.index) (hhi : q'.head.index = s.queue.head.index)
    (hce : claims e = []) (hte : takes e = []) : Steps cfg s g t (lift (q', .goto pc', e)) g :=
  goto_steps h hpc hc (update_same ((view_writes cfg hpc).trans hw))
    (update_same ((view_stage cfg hpc).trans hs)) (update_same ((view_holds cfg hpc).trans hh)) rfl rfl hl
    hrely (.quiet hti hhi rfl hce hte fun _ hL => ⟨hL, rfl⟩)

end Shape

section Claiming

/-- The value position at the tail is claimed. -/
theorem claim_steps (h : Inv cfg s g) (hpc : s.pc t = .push pc) (v : V) (pc' : PushPc V)
    (hw : pushWrites cfg.size pc = none) (hs : pushStage pc = pushStage pc')
    (hh : pushHolds pc = pushHolds pc') (hv : IsValue cfg.size s.queue.tail.index)
    (hcap : ∀ cap, cfg.capacity = some cap →
      itemsBetween cfg.size s.queue.head.index s.queue.tail.index < cap)
    (hw' : pushWrites cfg.size pc' = some s.queue.tail.index)
    (hl : PushLocal cfg (advanceTail s.queue) (g.claim s.queue.tail.index v) pc') :
    Steps cfg s g t
      (lift (advanceTail s.queue, .goto pc', some (.claimed s.queue.tail.index v)))
      (g.claim s.queue.tail.index v) := by
  have hc := claim_coherent h.coherent hv ((view_writes cfg hpc).trans hw) hcap v
  have hwrites : Function.update (views cfg.size s.pc).writes t (some s.queue.tail.index) =
      Function.update (views cfg.size s.pc).writes t (pushWrites cfg.size pc') := by rw [hw']
  refine goto_steps h hpc hc hwrites (update_same ((view_stage cfg hpc).trans hs))
    (update_same ((view_holds cfg hpc).trans hh)) rfl rfl hl (fun _ _ => claim_rely h.coherent v) ?_
  · constructor
    · change valuePositions _ (s.queue.tail.index + 1) = _ ++ [s.queue.tail.index]
      rw [valuePositions_succ, if_pos hv]
    · exact (List.append_nil _).symm
    · intro p v'
      change Function.update g.val _ (some v) p = some v' ↔ _ ∨ (p, v') ∈ [(_, v)]
      rw [update_some_iff, List.mem_singleton, Prod.mk.injEq]
      constructor
      · rintro (⟨hp, hv'⟩ | ⟨-, hp⟩)
        · exact .inr ⟨hp, hv'.symm⟩
        · exact .inl hp
      · rintro (hp | ⟨hp, hv'⟩)
        · refine .inr ⟨?_, hp⟩
          rintro rfl
          simp [h.coherent.val_none _ le_rfl] at hp
        · exact .inl ⟨hp, hv'.symm⟩
    · exact fun _ hL => ⟨hL, rfl⟩

/-- A sentinel at the tail is skipped. -/
theorem skip_steps (h : Inv cfg s g) (hpc : s.pc t = .push pc) (pc' : PushPc V)
    (hw : pushWrites cfg.size pc = pushWrites cfg.size pc') (hs : pushStage pc = pushStage pc')
    (hh : pushHolds pc = pushHolds pc') (hv : ¬IsValue cfg.size s.queue.tail.index)
    (hl : PushLocal cfg (advanceTail s.queue) g pc') :
    Steps cfg s g t (lift (advanceTail s.queue, .goto pc', none)) g := by
  refine goto_steps h hpc (skip_coherent h.coherent hv) (update_same ((view_writes cfg hpc).trans hw))
    (update_same ((view_stage cfg hpc).trans hs)) (update_same ((view_holds cfg hpc).trans hh)) rfl rfl hl
    (fun _ _ => skip_rely) ?_
  constructor
  · change valuePositions _ (s.queue.tail.index + 1) = _
    rw [valuePositions_skip hv]
    exact (List.append_nil _).symm
  · exact (List.append_nil _).symm
  · intro p v
    simp [claims]
  · exact fun _ hL => ⟨hL, rfl⟩

variable {v : V} {cap tail : ℕ}

theorem fetchAdd_steps {expected : ℕ} (h : Inv cfg s g) (hpc : s.pc t = .push (.fetchAdd v expected)) :
    ∃ g', Steps cfg s g t
      (lift ((PushPc.fetchAdd v expected).exec cfg.size flag fail s.queue)) g' := by
  have hcap : cfg.capacity = none := local_push h hpc
  simp only [PushPc.exec]
  by_cases hv : offset cfg.size s.queue.tail.index = blockCap cfg.size
  · refine ⟨g, ?_⟩
    simp only [hv, if_true]
    split
    · refine skip_steps h hpc _ ?_ rfl rfl (not_not.mpr hv) ⟨hcap, fun hv' => absurd hv hv'⟩
      simp [pushWrites, IsValue, hv]
    · exact skip_steps h hpc _ rfl rfl rfl (not_not.mpr hv) hcap
  · have hval : (g.claim s.queue.tail.index v).val s.queue.tail.index = some v :=
      Function.update_self _ _ _
    refine ⟨g.claim s.queue.tail.index v, ?_⟩
    simp only [hv, if_false]
    split
    · refine claim_steps h hpc v (.fetchAddContend v s.queue.tail.index) rfl rfl rfl hv
        (by simp [hcap]) ?_ ⟨hcap, fun _ => hval⟩
      simp [pushWrites, IsValue, hv]
    · exact claim_steps h hpc v (.sample v s.queue.tail.index) rfl rfl rfl hv (by simp [hcap]) rfl
        hval

theorem fetchAddContend_steps (h : Inv cfg s g) (hpc : s.pc t = .push (.fetchAddContend v tail)) :
    ∃ g', Steps cfg s g t
      (lift ((PushPc.fetchAddContend v tail).exec cfg.size flag fail s.queue)) g' := by
  obtain ⟨hcap, hval⟩ := local_push h hpc
  refine ⟨g, ?_⟩
  simp only [PushPc.exec]
  split
  · rename_i hv
    refine quiet_steps h hpc { h.coherent with } ?_ rfl rfl hcap
      (fun _ _ => { (Rely.refl : Rely cfg s.queue g s.queue g _ _) with }) rfl rfl rfl rfl
    simp [pushWrites, IsValue, hv]
  · rename_i hv
    refine quiet_steps h hpc { h.coherent with } ?_ rfl rfl (hval hv)
      (fun _ _ => { (Rely.refl : Rely cfg s.queue g s.queue g _ _) with }) rfl rfl rfl rfl
    simp [pushWrites, IsValue, hv]

theorem casTry_steps {failed : Bool} (h : Inv cfg s g)
    (hpc : s.pc t = .push (.casTry v tail failed)) :
    ∃ g', Steps cfg s g t
      (lift ((PushPc.casTry v tail failed).exec cfg.size flag fail s.queue)) g' := by
  have hcap : cfg.capacity = none := local_push h hpc
  simp only [PushPc.exec]
  split
  · rename_i heq
    obtain ⟨rfl, -⟩ := heq
    split
    · rename_i hv
      exact ⟨g, skip_steps h hpc _ rfl rfl rfl (not_not.mpr hv) hcap⟩
    · rename_i hv
      exact ⟨_, claim_steps h hpc v (.casLevel v s.queue.tail.index failed) rfl rfl rfl hv
        (by simp [hcap]) rfl (Function.update_self _ _ _)⟩
  · exact ⟨g, stay_steps h hpc rfl rfl rfl hcap⟩

omit [DecidableEq Tid] in
/-- The loop head of `claim_bounded` with a tail that was just loaded. -/
theorem boundedLoop_local {q : Queue V} (hcap : cfg.capacity = some cap) (ht : tail ≤ q.tail.index) :
    PushLocal cfg q g (boundedLoop cfg.size v cap tail) := by
  rw [boundedLoop]
  split
  · rename_i hv
    exact ⟨hcap, not_not.mpr hv⟩
  · rename_i hv
    exact ⟨hcap, hv, ht⟩

theorem boundedLoop_views (z : BlockSize) (v : V) (cap tail : ℕ) :
    pushWrites z (boundedLoop z v cap tail) = none ∧
      pushStage (boundedLoop z v cap tail) = .before ∧
      pushHolds (boundedLoop z v cap tail) = none := by
  rw [boundedLoop]
  split <;> exact ⟨rfl, rfl, rfl⟩

/-- Back to the loop head of `claim_bounded` with the tail just loaded. -/
theorem boundedLoop_steps (h : Inv cfg s g) (hpc : s.pc t = .push pc)
    (hcap : cfg.capacity = some cap) (hw : pushWrites cfg.size pc = none)
    (hs : pushStage pc = .before) (hh : pushHolds pc = none) :
    Steps cfg s g t
      (lift (s.queue, .goto (boundedLoop cfg.size v cap s.queue.tail.index), none)) g := by
  obtain ⟨hw', hs', hh'⟩ := boundedLoop_views cfg.size v cap s.queue.tail.index
  exact stay_steps h hpc (hw.trans hw'.symm) (hs.trans hs'.symm) (hh.trans hh'.symm)
    (boundedLoop_local hcap le_rfl)

theorem boundedSkip_steps (h : Inv cfg s g) (hpc : s.pc t = .push (.boundedSkip v cap tail)) :
    ∃ g', Steps cfg s g t
      (lift ((PushPc.boundedSkip v cap tail).exec cfg.size flag fail s.queue)) g' := by
  obtain ⟨hcap, hv⟩ := local_push h hpc
  refine ⟨g, ?_⟩
  simp only [PushPc.exec]
  split
  · rename_i heq
    obtain ⟨rfl, -⟩ := heq
    obtain ⟨hw', hs', hh'⟩ := boundedLoop_views cfg.size v cap (s.queue.tail.index + 1)
    exact skip_steps h hpc _ hw'.symm hs'.symm hh'.symm hv (boundedLoop_local hcap le_rfl)
  · exact boundedLoop_steps h hpc hcap rfl rfl rfl

theorem boundedCached_steps (h : Inv cfg s g) (hpc : s.pc t = .push (.boundedCached v cap tail)) :
    ∃ g', Steps cfg s g t
      (lift ((PushPc.boundedCached v cap tail).exec cfg.size flag fail s.queue)) g' := by
  have hl : Deciding cfg s.queue cap tail := local_push h hpc
  refine ⟨g, ?_⟩
  simp only [PushPc.exec]
  split
  · exact stay_steps h hpc rfl rfl rfl hl
  · rename_i hlt
    refine stay_steps h hpc rfl rfl rfl ⟨hl, ?_⟩
    exact (itemsBetween_anti_left h.coherent.cached_le).trans_lt (Nat.lt_of_not_le hlt)

theorem boundedHead_steps (h : Inv cfg s g) (hpc : s.pc t = .push (.boundedHead v cap tail)) :
    ∃ g', Steps cfg s g t
      (lift ((PushPc.boundedHead v cap tail).exec cfg.size flag fail s.queue)) g' := by
  have hl : Deciding cfg s.queue cap tail := local_push h hpc
  refine ⟨g, ?_⟩
  simp only [PushPc.exec]
  split
  · have hq : Quiet cfg.size (s.pc t) := by
      rw [hpc]
      exact ⟨rfl, rfl, rfl, rfl, rfl⟩
    refine ⟨quiet_inv h hq ⟨rfl, rfl, rfl, rfl, rfl⟩ trivial,
      .quiet rfl rfl rfl rfl rfl fun _ hL => ⟨hL, rfl⟩, ?_, nofun⟩
    · rintro r ⟨⟩ p v hm
      exact absurd hm List.not_mem_nil
  · rename_i hlt
    exact stay_steps h hpc rfl rfl rfl ⟨⟨hl, Nat.lt_of_not_le hlt⟩, le_rfl⟩

theorem boundedTry_steps (h : Inv cfg s g) (hpc : s.pc t = .push (.boundedTry v cap tail)) :
    ∃ g', Steps cfg s g t
      (lift ((PushPc.boundedTry v cap tail).exec cfg.size flag fail s.queue)) g' := by
  obtain ⟨⟨hcap, hv, -⟩, hroom⟩ := local_push h hpc
  simp only [PushPc.exec]
  split
  · rename_i heq
    obtain ⟨rfl, -⟩ := heq
    refine ⟨_, claim_steps h hpc v (.sample v s.queue.tail.index) rfl rfl rfl hv ?_ rfl
      (Function.update_self _ _ _)⟩
    intro cap' hcap'
    rw [hcap, Option.some.injEq] at hcap'
    rwa [← hcap']
  · exact ⟨g, boundedLoop_steps h hpc hcap rfl rfl rfl⟩

end Claiming

section Finding

variable {c : Claim V} {block : BlockId}

omit [DecidableEq Tid] in
/-- A block whose `start` is the lap start of a position serves its lap. -/
theorem serves_of_start {q : Queue V} {vw : Views Tid} {p : ℕ} (h : Coherent cfg q vw g)
    (hs : q.start block = some (lapStart cfg.size p)) : Serves cfg g p block := by
  obtain ⟨L, hL, he, hc⟩ := h.chain_start block _ hs
  rw [lapStart_eq] at he
  obtain rfl := mul_lap_injective he
  exact ⟨hL, hc⟩

/-- The block of the claimed position is found. -/
theorem found_steps (h : Inv cfg s g) (hpc : s.pc t = .push pc)
    (hw : pushWrites cfg.size pc = some c.tail) (hst : pushStage pc = .before)
    (hh : pushHolds pc = none) (ho : Owns g c) (hb : Serves cfg g c.tail block) :
    Steps cfg s g t (lift (s.queue, .goto (found cfg.size c block), none)) g := by
  rw [found]
  split
  · rename_i hl
    exact stay_steps h hpc hw hst hh ⟨ho, hb, hl⟩
  · rename_i hl
    exact goto_steps h hpc (settle_coherent h.coherent ((view_stage cfg hpc).trans hst))
      (update_same ((view_writes cfg hpc).trans hw)) rfl
      (update_same ((view_holds cfg hpc).trans hh)) rfl rfl ⟨ho, hb, fun hl' => absurd hl' hl⟩
      (fun _ _ => Rely.refl) (.quiet rfl rfl rfl rfl rfl fun _ hL => ⟨hL, rfl⟩)

theorem findStart_steps (h : Inv cfg s g) (hpc : s.pc t = .push (.findStart c block)) :
    Steps cfg s g t (lift ((PushPc.findStart c block).exec cfg.size flag fail s.queue)) g := by
  obtain ⟨ho, -⟩ := local_push h hpc
  simp only [PushPc.exec]
  split
  · rename_i hs
    exact found_steps h hpc rfl rfl rfl ho (serves_of_start h.coherent hs)
  · exact stay_steps h hpc rfl rfl rfl ho

theorem slowStart_steps (h : Inv cfg s g) (hpc : s.pc t = .push (.slowStart c block)) :
    Steps cfg s g t (lift ((PushPc.slowStart c block).exec cfg.size flag fail s.queue)) g := by
  obtain ⟨ho, -⟩ := local_push h hpc
  simp only [PushPc.exec]
  split
  · exact stay_steps h hpc rfl rfl rfl ho
  · rename_i start hs
    split
    · rename_i he
      rw [he] at hs
      exact found_steps h hpc rfl rfl rfl ho (serves_of_start h.coherent hs)
    · split
      · rename_i hgt
        obtain ⟨L, hL, rfl, hc⟩ := h.coherent.chain_start block _ hs
        rw [lapStart_eq] at hgt
        exact stay_steps h hpc rfl rfl rfl ⟨ho, L, mul_lap_lt_mul_lap.mp hgt, hL, hc⟩
      · exact stay_steps h hpc rfl rfl rfl ho

/-- The block before the one that was reached is still in the chain, since
the claimed position is not published. -/
theorem slowPrev_steps (h : Inv cfg s g) (hpc : s.pc t = .push (.slowPrev c block)) :
    Steps cfg s g t (lift ((PushPc.slowPrev c block).exec cfg.size flag fail s.queue)) g := by
  obtain ⟨ho, L, hlt, hL, rfl⟩ := local_push h hpc
  have hlive : g.headLap ≤ lapOf cfg.size c.tail :=
    h.coherent.writes_live (view_writes cfg hpc)
  obtain ⟨L, rfl⟩ := Nat.exists_eq_add_one_of_ne_zero (Nat.ne_zero_of_lt hlt)
  have hle : g.headLap ≤ L := by omega
  simp only [PushPc.exec, h.coherent.prev_chain L hle hL]
  exact stay_steps h hpc rfl rfl rfl
    ⟨ho, h.coherent.chain_lt_allocated hle (Nat.lt_of_succ_lt hL)⟩

end Finding

section Installing

variable {c : Claim V} {block next : BlockId}

/-- A pooled or retired block comes into the hands of the producer. -/
theorem acquire_steps (h : Inv cfg s g) (hpc : s.pc t = .push pc) (pc' : PushPc V)
    (hw : pushWrites cfg.size pc = pushWrites cfg.size pc') (hs : pushStage pc = pushStage pc')
    (hh : pushHolds pc = none) (hh' : pushHolds pc' = some next)
    (hp : g.place next = .spare ∨ g.place next = .ready ∨ g.place next = .retired)
    {spare : Option BlockId} {pool : BlockPool}
    (hspare : ∀ b, spare = some b ↔ s.queue.spare = some b ∧ b ≠ next)
    (hready : ∀ b, b ∈ pool.ready ↔ b ∈ s.queue.pool.ready ∧ b ≠ next)
    (hretired : ∀ b, b ∈ pool.retired ↔ b ∈ s.queue.pool.retired ∧ b ≠ next)
    (hn₁ : pool.ready.Nodup) (hn₂ : pool.retired.Nodup)
    (hl : PushLocal cfg { s.queue with spare := spare, pool := pool }
      (g.move next (.hand t)) pc') :
    Steps cfg s g t (lift ({ s.queue with spare := spare, pool := pool }, .goto pc', none))
      (g.move next (.hand t)) := by
  have hholds : Function.update (views cfg.size s.pc).holds t (some next) =
      Function.update (views cfg.size s.pc).holds t (pushHolds pc') := by rw [hh']
  exact goto_steps h hpc
    (acquire_coherent h.coherent ((view_holds cfg hpc).trans hh) hp hspare hready hretired hn₁ hn₂)
    (update_same ((view_writes cfg hpc).trans hw)) (update_same ((view_stage cfg hpc).trans hs))
    hholds rfl rfl hl (fun _ _ => acquire_rely) (.quiet rfl rfl rfl rfl rfl fun _ hL => ⟨hL, rfl⟩)

theorem takeSpare_steps (h : Inv cfg s g) (hpc : s.pc t = .push (.takeSpare c block)) :
    ∃ g', Steps cfg s g t
      (lift ((PushPc.takeSpare c block).exec cfg.size flag fail s.queue)) g' := by
  have hl : Installs cfg g c block := local_push h hpc
  simp only [PushPc.exec]
  split
  · rename_i b hb
    have hp := (h.coherent.spare_iff b).mp hb
    have hready : b ∉ s.queue.pool.ready := by simp [h.coherent.ready_iff, hp]
    have hretired : b ∉ s.queue.pool.retired := by simp [h.coherent.retired_iff, hp]
    refine ⟨_, acquire_steps h hpc (.storePrev c block b) rfl rfl rfl rfl (.inl hp) ?_ ?_ ?_
      h.coherent.ready_nodup h.coherent.retired_nodup ⟨hl, h.coherent.pooled b (.inl hp)⟩⟩
    · simp only [hb, Option.some.injEq, reduceCtorEq, false_iff, not_and, not_not]
      exact fun _ => Eq.symm
    · exact fun b' => ⟨fun hb' => ⟨hb', fun he => hready (he ▸ hb')⟩, And.left⟩
    · exact fun b' => ⟨fun hb' => ⟨hb', fun he => hretired (he ▸ hb')⟩, And.left⟩
  · exact ⟨g, stay_steps h hpc rfl rfl rfl hl⟩

omit [DecidableEq Tid] in
/-- A retired block whose readers are done is drained. -/
theorem drained_of_retired {q : Queue V} {vw : Views Tid} {b : BlockId} (h : Coherent cfg q vw g)
    (hp : g.place b = .retired) (hd : q.readersDone cfg.size b = true) : Drained cfg q g b := by
  obtain ⟨p, hl, hf, -, hs⟩ := h.retired b hp
  refine ⟨lapOf cfg.size p, hs, fun p' hv hlap => ?_⟩
  by_cases hl' : IsLast cfg.size p'
  · rwa [hl'.ext hl hlap]
  · refine h.marked b p' (by rw [hs, hlap]) hv ?_
    refine List.all_eq_true.mp hd _ (List.mem_range.mpr ?_)
    rw [isValue_iff] at hv
    rw [IsLast] at hl'
    omega

theorem takePool_steps (h : Inv cfg s g) (hpc : s.pc t = .push (.takePool c block)) :
    ∃ g', Steps cfg s g t
      (lift ((PushPc.takePool c block).exec cfg.size flag fail s.queue)) g' := by
  have hl : Installs cfg g c block := local_push h hpc
  simp only [PushPc.exec, takeBlockSlow]
  split
  · rename_i b hlast
    obtain ⟨init, hinit⟩ := List.getLast?_eq_some_iff.mp hlast
    have hp : g.place b = .ready := (h.coherent.ready_iff b).mp (by simp [hinit])
    have hn := h.coherent.ready_nodup
    rw [hinit, List.nodup_append_comm] at hn
    obtain ⟨hb, hn⟩ := List.nodup_cons.mp hn
    have hspare : s.queue.spare ≠ some b := by simp [h.coherent.spare_iff, hp]
    have hretired : b ∉ s.queue.pool.retired := by simp [h.coherent.retired_iff, hp]
    refine ⟨_, acquire_steps h hpc (.storePrev c block b) rfl rfl rfl rfl (.inr (.inl hp)) ?_ ?_ ?_
      ?_ h.coherent.retired_nodup ⟨hl, h.coherent.pooled b (.inr hp)⟩⟩
    · exact fun b' => ⟨fun hb' => ⟨hb', fun he => hspare (he ▸ hb')⟩, And.left⟩
    · intro b'
      rw [hinit, List.dropLast_concat]
      constructor
      · exact fun hb' => ⟨List.mem_append_left _ hb', fun he => hb (he ▸ hb')⟩
      · rintro ⟨hb', hne⟩
        simpa [hne] using hb'
    · exact fun b' => ⟨fun hb' => ⟨hb', fun he => hretired (he ▸ hb')⟩, And.left⟩
    · rw [hinit, List.dropLast_concat]
      exact hn
  · rename_i b _ hfind
    have hdone := List.find?_some hfind
    have hp : g.place b = .retired :=
      (h.coherent.retired_iff b).mp (List.mem_of_find?_eq_some hfind)
    have hdrained : Drained cfg s.queue g b := drained_of_retired h.coherent hp hdone
    rw [List.find?_eq_getElem?_findIdx] at hfind
    have hperm := swapRemove_perm hfind
    obtain ⟨hb, hn⟩ := List.nodup_cons.mp (hperm.nodup_iff.mpr h.coherent.retired_nodup)
    have hspare : s.queue.spare ≠ some b := by simp [h.coherent.spare_iff, hp]
    have hready : b ∉ s.queue.pool.ready := by simp [h.coherent.ready_iff, hp]
    refine ⟨_, acquire_steps h hpc (.resetMark c block b 0) rfl rfl rfl rfl (.inr (.inr hp)) ?_ ?_
      ?_ h.coherent.ready_nodup hn ⟨hl, hdrained, nofun⟩⟩
    · exact fun b' => ⟨fun hb' => ⟨hb', fun he => hspare (he ▸ hb')⟩, And.left⟩
    · exact fun b' => ⟨fun hb' => ⟨hb', fun he => hready (he ▸ hb')⟩, And.left⟩
    · intro b'
      rw [← hperm.mem_iff, List.mem_cons]
      constructor
      · exact fun hb' => ⟨.inr hb', fun he => hb (he ▸ hb')⟩
      · rintro ⟨rfl | hb', hne⟩
        · exact absurd rfl hne
        · exact hb'
  · exact ⟨g, stay_steps h hpc rfl rfl rfl hl⟩

/-- A push step that stores to the block in its hands. -/
theorem held_steps (h : Inv cfg s g) (hpc : s.pc t = .push pc) {q' : Queue V} (pc' : PushPc V)
    (hc : Coherent cfg q' (views cfg.size s.pc) g)
    (hw : pushWrites cfg.size pc = pushWrites cfg.size pc') (hs : pushStage pc = pushStage pc')
    (hh : pushHolds pc = some next) (hh' : pushHolds pc' = some next) (hl : PushLocal cfg q' g pc')
    (hrely : ∀ t' ≠ t, Rely cfg s.queue g q' g (views cfg.size s.pc) t')
    (ht : q'.tail = s.queue.tail) (hd : q'.head = s.queue.head) :
    Steps cfg s g t (lift (q', .goto pc', none)) g :=
  quiet_steps h hpc hc hw hs (hh.trans hh'.symm) hl hrely (by rw [ht]) (by rw [hd]) rfl rfl

theorem resetMark_steps {i : ℕ} (h : Inv cfg s g) (hpc : s.pc t = .push (.resetMark c block next i)) :
    Steps cfg s g t
      (lift ((PushPc.resetMark c block next i).exec cfg.size flag fail s.queue)) g := by
  obtain ⟨hi, hd, hm⟩ := local_push h hpc
  have hb := view_holds cfg hpc
  have hc := resetMark_coherent h.coherent next i
  have hrely : ∀ t' ≠ t, Rely cfg s.queue g (s.queue.setMark next i false) g
      (views cfg.size s.pc) t' := fun t' ht =>
    held_rely h.coherent hb ht rfl rfl rfl (fun _ _ => rfl) (fun _ _ => rfl) (fun _ _ => rfl)
      (fun _ hb' => Function.update_of_ne hb' _ _) rfl
  have hm' : ∀ j < i + 1, (s.queue.setMark next i false).mark next j = false := by
    intro j hj
    rw [Queue.mark_setMark, update_update_apply]
    split
    · rfl
    · rename_i hne
      have hji : j ≠ i := fun he => hne ⟨rfl, he⟩
      exact hm j (by omega)
  simp only [PushPc.exec]
  split
  · exact held_steps h hpc (.resetMark c block next (i + 1)) hc rfl rfl rfl rfl ⟨hi, hd, hm'⟩ hrely
      rfl rfl
  · rename_i hge
    exact held_steps h hpc (.resetStart c block next) hc rfl rfl rfl rfl
      ⟨hi, hd, fun j hj => hm' j (by omega)⟩ hrely rfl rfl

theorem resetStart_steps (h : Inv cfg s g) (hpc : s.pc t = .push (.resetStart c block next)) :
    Steps cfg s g t
      (lift ((PushPc.resetStart c block next).exec cfg.size flag fail s.queue)) g := by
  obtain ⟨hi, hd, hm⟩ := local_push h hpc
  have hb := view_holds cfg hpc
  exact held_steps h hpc (.storePrev c block next) (resetStart_coherent h.coherent hb hd)
    rfl rfl rfl rfl ⟨hi, Function.update_self _ _ _, hm⟩
    (fun t' ht => held_rely h.coherent hb ht rfl rfl rfl
      (fun _ hb' => Function.update_of_ne hb' _ _) (fun _ _ => rfl) (fun _ _ => rfl)
      (fun _ _ => rfl) rfl) rfl rfl

theorem allocate_steps (h : Inv cfg s g) (hpc : s.pc t = .push (.allocate c block)) :
    ∃ g', Steps cfg s g t
      (lift ((PushPc.allocate c block).exec cfg.size flag fail s.queue)) g' := by
  have hl : Installs cfg g c block := local_push h hpc
  have hw : (views cfg.size s.pc).writes t = some c.tail := view_writes cfg hpc
  have hs : (views cfg.size s.pc).stage t = .before := view_stage cfg hpc
  refine ⟨_, goto_steps h hpc (alloc_coherent h.coherent (view_holds cfg hpc))
    (update_same hw) (update_same hs) rfl rfl rfl ?_
    (fun _ _ => alloc_rely h.coherent _) (.quiet rfl rfl rfl rfl rfl fun _ hL => ⟨hL, rfl⟩)⟩
  refine ⟨hl, Function.update_self _ _ _, fun i _ => ?_⟩
  exact congrFun (Function.update_self s.queue.allocated (fun _ => false) s.queue.mark) i

theorem storePrev_steps (h : Inv cfg s g) (hpc : s.pc t = .push (.storePrev c block next)) :
    Steps cfg s g t
      (lift ((PushPc.storePrev c block next).exec cfg.size flag fail s.queue)) g := by
  obtain ⟨hi, hblank⟩ := local_push h hpc
  have hb := view_holds cfg hpc
  exact held_steps h hpc (.storeNext c block next) (storePrev_coherent h.coherent hb _)
    rfl rfl rfl rfl ⟨hi, hblank, Function.update_self _ _ _⟩
    (fun t' ht => held_rely h.coherent hb ht rfl rfl rfl (fun _ _ => rfl) (fun _ _ => rfl)
      (fun _ hb' => Function.update_of_ne hb' _ _) (fun _ _ => rfl) rfl) rfl rfl

theorem storeNext_steps (h : Inv cfg s g) (hpc : s.pc t = .push (.storeNext c block next)) :
    Steps cfg s g t
      (lift ((PushPc.storeNext c block next).exec cfg.size flag fail s.queue)) g := by
  obtain ⟨hi, hblank, hprev⟩ := local_push h hpc
  have hb := view_holds cfg hpc
  exact held_steps h hpc (.storeStart c block next) (storeNext_coherent h.coherent hb _)
    rfl rfl rfl rfl ⟨hi, hblank, hprev, Function.update_self _ _ _⟩
    (fun t' ht => held_rely h.coherent hb ht rfl rfl rfl (fun _ _ => rfl)
      (fun _ hb' => Function.update_of_ne hb' _ _) (fun _ _ => rfl) (fun _ _ => rfl) rfl) rfl rfl

theorem storeStart_steps (h : Inv cfg s g) (hpc : s.pc t = .push (.storeStart c block next)) :
    ∃ g', Steps cfg s g t
      (lift ((PushPc.storeStart c block next).exec cfg.size flag fail s.queue)) g' := by
  obtain ⟨⟨ho, hs, hl⟩, hblank, hprev, hnext⟩ := local_push h hpc
  have hb := view_holds cfg hpc
  have hw : (views cfg.size s.pc).writes t = some c.tail := view_writes cfg hpc
  have hlaps := laps_eq h.coherent hw (view_stage cfg hpc) hl hs.1
  have hstart : lapStart cfg.size c.tail + lap cfg.size = g.laps * lap cfg.size := by
    rw [lapStart_eq, ← hlaps, Nat.succ_mul]
  have hc := storeStart_coherent h.coherent hb hw (view_stage cfg hpc) hl hlaps
    hblank (hprev.trans (by rw [hs.2])) hnext
  simp only [PushPc.exec]
  rw [hstart]
  refine ⟨_, goto_steps h hpc hc (update_same hw) rfl rfl rfl rfl ?_
    (fun t' ht => storeStart_rely h.coherent hb ht _) (.quiet rfl rfl rfl rfl rfl fun L hL =>
      ⟨Nat.lt_succ_of_lt hL, Ghost.install_chain_of_lt hL⟩)⟩
  refine ⟨⟨ho, ⟨Nat.lt_succ_of_lt hs.1, ?_⟩, hl⟩, ?_, ?_⟩
  · rw [Ghost.install_chain_of_lt hs.1]
    exact hs.2
  · rw [hlaps]
    exact Nat.lt_succ_self _
  · rw [hlaps]
    exact Ghost.install_chain_laps g next

theorem linkNext_steps (h : Inv cfg s g) (hpc : s.pc t = .push (.linkNext c block next)) :
    Steps cfg s g t
      (lift ((PushPc.linkNext c block next).exec cfg.size flag fail s.queue)) g := by
  have hl : Installed cfg g c block next := local_push h hpc
  obtain ⟨⟨-, ⟨hL, rfl⟩, -⟩, hlaps, rfl⟩ := hl
  have hw : (views cfg.size s.pc).writes t = some c.tail := view_writes cfg hpc
  have hh : (views cfg.size s.pc).holds t = none := view_holds cfg hpc
  exact goto_steps h hpc (linkNext_coherent h.coherent hw hlaps) (update_same hw) rfl
    (update_same hh) rfl rfl (local_push h hpc)
    (fun _ _ => linkNext_rely h.coherent (h.coherent.writes_live hw) hL _)
    (.quiet rfl rfl rfl rfl rfl fun _ hL => ⟨hL, rfl⟩)

theorem storeTail_steps (h : Inv cfg s g) (hpc : s.pc t = .push (.storeTail c block next)) :
    Steps cfg s g t
      (lift ((PushPc.storeTail c block next).exec cfg.size flag fail s.queue)) g := by
  obtain ⟨⟨ho, hs, hl⟩, hlaps, rfl⟩ := local_push h hpc
  have hlive := h.coherent.writes_live (view_writes cfg hpc)
  have hb := h.coherent.chain_lt_allocated (Nat.le_succ_of_le hlive) hlaps
  exact quiet_steps h hpc (storeTail_coherent h.coherent hb) rfl rfl rfl ⟨ho, hs, fun _ => hlaps⟩
    (fun _ _ => { (Rely.refl : Rely cfg s.queue g s.queue g _ _) with }) rfl rfl rfl rfl

end Installing

section Publishing

variable {c : Claim V} {block : BlockId}

theorem writeValue_steps (h : Inv cfg s g) (hpc : s.pc t = .push (.writeValue c block)) :
    Steps cfg s g t
      (lift ((PushPc.writeValue c block).exec cfg.size flag fail s.queue)) g := by
  have hl : Writable cfg g c block := local_push h hpc
  obtain ⟨-, ⟨hL, rfl⟩, -⟩ := hl
  have hw := view_writes cfg hpc
  refine quiet_steps h hpc (writeValue_coherent h.coherent hw hL c.value) rfl rfl rfl
    ⟨local_push h hpc, ?_⟩ (fun t' ht => writeValue_rely h.coherent hw hL ht c.value) rfl rfl rfl rfl
  exact update_update_apply.trans (if_pos ⟨rfl, rfl⟩)

theorem publish_steps (h : Inv cfg s g) (hpc : s.pc t = .push (.publish c block)) :
    ∃ g', Steps cfg s g t
      (lift ((PushPc.publish c block).exec cfg.size flag fail s.queue)) g' := by
  obtain ⟨⟨ho, ⟨hL, rfl⟩, hlast⟩, hv⟩ := local_push h hpc
  have hc := publish_coherent h.coherent (view_writes cfg hpc)
    (by rw [view_stage cfg hpc]; nofun) hL hlast ho hv
  refine ⟨g.publish c.tail, ?_, .quiet rfl rfl rfl rfl rfl fun _ hL => ⟨hL, rfl⟩, ?_, nofun⟩
  · exact next_inv h hc rfl rfl (update_same (view_reads cfg hpc))
      (update_same (view_holds cfg hpc)) (update_same (view_crossing cfg hpc)) trivial
      fun _ _ => publish_rely _ _ _
  · rintro r ⟨⟩ p v hm
    exact absurd hm List.not_mem_nil

end Publishing

/-- Every step of a push keeps the invariant. -/
theorem push_steps (h : Inv cfg s g) (hpc : s.pc t = .push pc) :
    ∃ g', Steps cfg s g t (lift (pc.exec cfg.size flag fail s.queue)) g' := by
  have hl := local_push h hpc
  cases pc with
  | loadContended v =>
    refine ⟨g, ?_⟩
    simp only [PushPc.exec]
    split <;> exact stay_steps h hpc rfl rfl rfl hl
  | fetchAddLoad v => exact ⟨g, stay_steps h hpc rfl rfl rfl hl⟩
  | fetchAdd v expected => exact fetchAdd_steps h hpc
  | fetchAddContend v tail => exact fetchAddContend_steps h hpc
  | casLoad v => exact ⟨g, stay_steps h hpc rfl rfl rfl hl⟩
  | casTry v tail failed => exact casTry_steps h hpc
  | casLevel v tail failed =>
    refine ⟨g, ?_⟩
    simp only [PushPc.exec]
    split
    · exact stay_steps h hpc rfl rfl rfl hl
    · split <;> exact stay_steps h hpc rfl rfl rfl hl
  | casContend v tail level =>
    exact ⟨g, quiet_steps h hpc { h.coherent with } rfl rfl rfl hl
      (fun _ _ => { (Rely.refl : Rely cfg s.queue g s.queue g _ _) with }) rfl rfl rfl rfl⟩
  | boundedLoad v cap => exact ⟨g, boundedLoop_steps h hpc hl rfl rfl rfl⟩
  | boundedSkip v cap tail => exact boundedSkip_steps h hpc
  | boundedCached v cap tail => exact boundedCached_steps h hpc
  | boundedHead v cap tail => exact boundedHead_steps h hpc
  | boundedCache v cap tail head =>
    exact ⟨g, quiet_steps h hpc { h.coherent with cached_le := hl.2 } rfl rfl rfl hl.1
      (fun _ _ => { (Rely.refl : Rely cfg s.queue g s.queue g _ _) with }) rfl rfl rfl rfl⟩
  | boundedTry v cap tail => exact boundedTry_steps h hpc
  | sample v tail => exact ⟨g, stay_steps h hpc rfl rfl rfl hl⟩
  | findBlock c => exact ⟨g, stay_steps h hpc rfl rfl rfl ⟨hl, h.coherent.tail_block⟩⟩
  | findStart c block => exact ⟨g, findStart_steps h hpc⟩
  | slowBlock c => exact ⟨g, stay_steps h hpc rfl rfl rfl ⟨hl, h.coherent.tail_block⟩⟩
  | slowStart c block => exact ⟨g, slowStart_steps h hpc⟩
  | slowPrev c block => exact ⟨g, slowPrev_steps h hpc⟩
  | takeSpare c block => exact takeSpare_steps h hpc
  | takePool c block => exact takePool_steps h hpc
  | resetMark c block next i => exact ⟨g, resetMark_steps h hpc⟩
  | resetStart c block next => exact ⟨g, resetStart_steps h hpc⟩
  | allocate c block => exact allocate_steps h hpc
  | storePrev c block next => exact ⟨g, storePrev_steps h hpc⟩
  | storeNext c block next => exact ⟨g, storeNext_steps h hpc⟩
  | storeStart c block next => exact storeStart_steps h hpc
  | linkNext c block next => exact ⟨g, linkNext_steps h hpc⟩
  | storeTail c block next => exact ⟨g, storeTail_steps h hpc⟩
  | writeValue c block => exact ⟨g, writeValue_steps h hpc⟩
  | publish c block => exact publish_steps h hpc

end Rapidfire.QueuePushSteps
