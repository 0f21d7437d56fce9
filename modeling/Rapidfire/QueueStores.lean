import Rapidfire.QueueBlocks
import Rapidfire.QueueExclusive
import Rapidfire.QueueProgress

/-!
# Stores to `tail.block`

`install_next` publishes the start of a block before it stores the block in
`tail.block`. A walker may accept the block in between, and when it owns the
last slot of that lap it installs and stores the next block first; the paused
installer then moves `tail.block` back. As long as nobody stores a block before
the block it follows has been stored, the stores come lap by lap.
-/

namespace Rapidfire.QueueStores

open Positions QueueMemory QueuePush QueueMachine QueueCoherence QueueLocal QueueSteps
  QueueInvariant QueueExclusive QueueProgress Runs

variable {Tid V : Type} {cfg : Config Tid} {q : Queue V} {s s' : State Tid V} {g g' : Ghost Tid V}
  {t u : Tid} {l : Label V} {τ : List (Tid × Label V)} {L M : ℕ}

/-- Start position of the block an access stores in `tail.block`. -/
def storedBy : Option (Effect V) → List (Option ℕ)
  | some (.storedTail start) => [start]
  | _ => []

/-- Start positions of the blocks stored in `tail.block`, in order. -/
def stored (τ : List (Tid × Label V)) : List (Option ℕ) :=
  τ.flatMap fun l => storedBy l.2.effect

/-- Every entry is a lap start, each before the next. -/
def Increasing (xs : List (Option ℕ)) : Prop :=
  xs.Pairwise fun a b => ∃ S ∈ a, ∃ T ∈ b, S < T

/-- Block whose start a thread has published and which it has not yet stored in
`tail.block`. -/
def unstored : Pc V → Option BlockId
  | .push (.linkNext _ _ next) | .push (.storeTail _ _ next) => some next
  | _ => none

/-- Lap of the block a thread has published and not yet stored. -/
def storing (z : BlockSize) : Pc V → Option ℕ
  | .push (.linkNext c _ _) | .push (.storeTail c _ _) => some (lapOf z c.tail + 1)
  | _ => none

/-- The step of the thread does not store a block in `tail.block` while the
installer of the block before has yet to store that one. -/
def StoresInTurn (s : State Tid V) (t : Tid) : Prop :=
  ∀ c block next, s.pc t = .push (.storeTail c block next) → ∀ u, unstored (s.pc u) ≠ some block

/-- No push and no receive is in flight. -/
def Settled (s : State Tid V) : Prop := ∀ t, s.pc t = .idle ∨ ∃ pc, s.pc t = .read pc

section Turns

/-- The stores so far are those of the laps up to `M`, in order, and the blocks
of the later laps are published and about to be stored. -/
structure Turns (cfg : Config Tid) (τ : List (Tid × Label V)) (s : State Tid V)
    (g : Ghost Tid V) (M : ℕ) : Prop where
  inv : Inv cfg s g
  log : stored τ = (List.range M).map fun i => some ((i + 1) * lap cfg.size)
  lt : M < g.laps
  tail : s.queue.tail.block = g.chain M
  pending : ∀ L, (∃ u, storing cfg.size (s.pc u) = some L) ↔ M < L ∧ L < g.laps

theorem init_turns : Turns cfg [] (State.init Tid V) (Ghost.init Tid V) 0 where
  inv := init_inv
  log := rfl
  lt := Nat.zero_lt_one
  tail := rfl
  pending L := by
    refine ⟨?_, fun h => absurd h.2 (Nat.not_lt.mpr h.1)⟩
    rintro ⟨u, hu⟩
    cases hu

/-- What an access has to do with the stores: nothing, it publishes a start, or
it stores `tail.block`. -/
theorem push_stores (pc : PushPc V) {z : BlockSize} {flag : ℕ} {fail : Bool}
    {o : Outcome V (PushPc V) (PushRet V)} (ho : pc.exec z flag fail q = o) :
    (storedBy o.2.2 = [] ∧ o.1.tail.block = q.tail.block ∧
      ((∃ c block next, pc = .storeStart c block next) ∨
        storing z (nextPc (Next.map .push .push o.2.1)) = storing z (.push pc))) ∨
    ∃ c block next, pc = .storeTail c block next := by
  cases pc with
  | storeTail c block next => exact .inr ⟨c, block, next, rfl⟩
  | storeStart c block next =>
    subst ho
    exact .inl ⟨rfl, rfl, .inl ⟨c, block, next, rfl⟩⟩
  | takePool c block =>
    simp only [PushPc.exec, takeBlockSlow] at ho
    split at ho <;> subst ho <;> exact .inl ⟨rfl, rfl, .inr rfl⟩
  | loadContended v | fetchAdd v expected | fetchAddContend v tail | casTry v tail failed
  | casLevel v tail failed | boundedLoad v cap | boundedSkip v cap tail | boundedCached v cap tail
  | boundedHead v cap tail | boundedTry v cap tail | findStart c block | slowStart c block
  | slowPrev c block | takeSpare c block | resetMark c block next i =>
    simp only [PushPc.exec, boundedLoop, found] at ho
    (repeat' split at ho) <;> subst ho <;> exact .inl ⟨rfl, rfl, .inr rfl⟩
  | _ =>
    subst ho
    exact .inl ⟨rfl, rfl, .inr rfl⟩

/-- No pop has anything to do with the stores. -/
theorem pop_stores (pc : QueuePop.PopPc V) {z : BlockSize} {capacity : Option ℕ} {flag : ℕ}
    {fail : Bool} {o : Outcome V (QueuePop.PopPc V) (QueuePop.PopRet V)}
    (ho : pc.exec z capacity flag fail q = o) : storedBy o.2.2 = [] ∧ o.1.tail = q.tail ∧
      storing z (nextPc (Next.map .pop .pop o.2.1)) = none := by
  cases pc with
  | loadBlock head wait | loadState head block wait | reloadHead head block wait
  | claim head block wait | readValue k | loadNext k v | readersDone k v i | resetMark k v i
  | recycleSpare k v =>
    simp only [QueuePop.PopPc.exec, QueuePop.popLoop] at ho
    (repeat' split at ho) <;> subst ho <;> exact ⟨rfl, rfl, rfl⟩
  | _ =>
    subst ho
    exact ⟨rfl, rfl, rfl⟩

/-- No exclusive receive has anything to do with the stores. -/
theorem single_stores (pc : QueueSingle.SinglePc V) {z : BlockSize} {capacity : Option ℕ}
    {flag : ℕ} {fail : Bool} {o : Outcome V (QueueSingle.SinglePc V) (QueueSingle.SingleRet V)}
    (ho : pc.exec z capacity flag fail q = o) : storedBy o.2.2 = [] ∧ o.1.tail = q.tail ∧
      storing z (nextPc (Next.map .single .single o.2.1)) = none := by
  cases pc with
  | leave batch pc =>
    cases pc <;> simp only [QueueSingle.SinglePc.exec, QueueSingle.LeavePc.exec,
      QueueSingle.advanced] at ho <;> (repeat' split at ho) <;> subst ho <;> exact ⟨rfl, rfl, rfl⟩
  | _ =>
    simp only [QueueSingle.SinglePc.exec, QueueSingle.batchLoop] at ho
    (repeat' split at ho) <;> subst ho <;> exact ⟨rfl, rfl, rfl⟩

/-- What an access has to do with the stores, for any operation. -/
theorem exec_stores {flag : ℕ} {fail : Bool} {o : Outcome V (Pc V) (Ret V)}
    (ho : (s.pc t).exec cfg flag fail s.queue = some o) :
    (storedBy o.2.2 = [] ∧ o.1.tail.block = s.queue.tail.block ∧
      ((∃ c block next, s.pc t = .push (.storeStart c block next)) ∨
        storing cfg.size (nextPc o.2.1) = storing cfg.size (s.pc t))) ∨
    ∃ c block next, s.pc t = .push (.storeTail c block next) := by
  cases hpc : s.pc t with
  | idle | fault => simp [hpc, Pc.exec] at ho
  | push pc =>
    rw [hpc, Pc.exec, Option.some.injEq] at ho
    subst ho
    rcases push_stores pc rfl with ⟨h1, h2, ⟨c, block, next, rfl⟩ | h3⟩ | ⟨c, block, next, rfl⟩
    · exact .inl ⟨h1, h2, .inl ⟨c, block, next, rfl⟩⟩
    · exact .inl ⟨h1, h2, .inr h3⟩
    · exact .inr ⟨c, block, next, rfl⟩
  | pop pc =>
    rw [hpc, Pc.exec, Option.some.injEq] at ho
    subst ho
    obtain ⟨h1, h2, h3⟩ := pop_stores pc rfl
    exact .inl ⟨h1, congrArg Tail.block h2, .inr h3⟩
  | single pc =>
    rw [hpc, Pc.exec, Option.some.injEq] at ho
    subst ho
    obtain ⟨h1, h2, h3⟩ := single_stores pc rfl
    exact .inl ⟨h1, congrArg Tail.block h2, .inr h3⟩
  | read pc =>
    rw [hpc, Pc.exec, Option.some.injEq] at ho
    subst ho
    cases pc <;> exact .inl ⟨rfl, rfl, .inr rfl⟩

/-- The number of laps is read off the start positions. -/
theorem laps_le (h : Inv cfg s g) (h' : Inv cfg s' g') {n : ℕ} (hn : g.laps ≤ n)
    (hs : ∀ b S, s'.queue.start b = some S →
      s.queue.start b = some S ∨ S < n * lap cfg.size) : g'.laps ≤ n := by
  have hlive := h'.coherent.last_live
  have hlast := h'.coherent.start_chain (g'.laps - 1) hlive.1 hlive.2
  rcases hs _ _ hlast with hold | hlt
  · obtain ⟨L, hL, he, -⟩ := h.coherent.chain_start _ _ hold
    have := mul_lap_injective he
    omega
  · have := mul_lap_lt_mul_lap.mp hlt
    omega

/-- Installed laps stay installed. -/
theorem le_laps (h : Inv cfg s g) (hk : ∀ L, L < g.laps → L < g'.laps ∧ g'.chain L = g.chain L) :
    g.laps ≤ g'.laps := by
  have := (hk (g.laps - 1) h.coherent.last_live.2).1
  omega

/-- A step that publishes no start and stores nothing. -/
theorem turns_of_quiet (h : Turns cfg τ s g M) (h' : Inv cfg s' g')
    (hk : ∀ L, L < g.laps → L < g'.laps ∧ g'.chain L = g.chain L)
    (hs : ∀ b S, s'.queue.start b = some S → s.queue.start b = some S)
    (he : storedBy l.effect = []) (ht : s'.queue.tail.block = s.queue.tail.block)
    (hst : ∀ u, storing cfg.size (s'.pc u) = storing cfg.size (s.pc u)) :
    Turns cfg (τ ++ [(t, l)]) s' g' M where
  inv := h'
  log := by
    rw [stored, List.flatMap_append, List.flatMap_singleton, he, List.append_nil]
    exact h.log
  lt := (hk M h.lt).1
  tail := by rw [ht, h.tail, (hk M h.lt).2]
  pending L := by
    have h1 := laps_le h.inv h' le_rfl fun b S hb => .inl (hs b S hb)
    have h2 := le_laps h.inv hk
    simp only [hst, h.pending L]
    omega

variable [DecidableEq Tid]

/-- The step that publishes the start of the next block. -/
theorem turns_of_publish {c : Claim V} {block next : BlockId} (h : Turns cfg τ s g M)
    (hs : Step cfg s (t, l) s') (h' : Inv cfg s' g')
    (hk : ∀ L, L < g.laps → L < g'.laps ∧ g'.chain L = g.chain L)
    (hpc : s.pc t = .push (.storeStart c block next)) : Turns cfg (τ ++ [(t, l)]) s' g' M := by
  obtain ⟨⟨-, hserves, hlast⟩, -⟩ := QueuePushSteps.local_push h.inv hpc
  have hlaps := QueueProduce.laps_eq h.inv.coherent (QueuePushSteps.view_writes cfg hpc)
    (QueuePushSteps.view_stage cfg hpc) hlast hserves.1
  obtain ⟨flag, fail, rfl, rfl⟩ := step_of_push hs hpc
  have hpc' : Function.update s.pc t (Pc.push (.linkNext c block next)) t =
      .push (.linkNext c block next) := Function.update_self _ _ _
  have hnew := (QueuePushSteps.local_push h' hpc').2.1
  have hle : g'.laps ≤ g.laps + 1 := by
    refine laps_le h.inv h' (Nat.le_succ _) fun b S hb => ?_
    rcases Updates.update_some_iff.mp hb with ⟨-, rfl⟩ | ⟨-, hb⟩
    · rw [lapStart_eq, ← Nat.succ_mul]
      exact .inr (mul_lap_lt_mul_lap.mpr (by omega))
    · exact .inl hb
  refine ⟨h', ?_, (hk M h.lt).1, h.tail.trans (hk M h.lt).2.symm, fun L => ?_⟩
  · rw [stored, List.flatMap_append, List.flatMap_singleton]
    exact (List.append_nil _).trans h.log
  · have hM := h.lt
    constructor
    · rintro ⟨u, hu⟩
      by_cases hut : u = t
      · subst hut
        simp only [PushPc.exec, Next.map, nextPc, Function.update_self, storing,
          Option.some.injEq] at hu
        omega
      · simp only [Function.update_of_ne hut] at hu
        have := (h.pending L).mp ⟨u, hu⟩
        omega
    · intro hL
      rcases Nat.lt_or_ge L g.laps with hlt | hge
      · obtain ⟨u, hu⟩ := (h.pending L).mpr ⟨hL.1, hlt⟩
        refine ⟨u, ?_⟩
        have hut : u ≠ t := by
          rintro rfl
          rw [hpc] at hu
          cases hu
        simp only [Function.update_of_ne hut]
        exact hu
      · refine ⟨t, ?_⟩
        simp only [PushPc.exec, Next.map, nextPc, Function.update_self, storing,
          Option.some.injEq]
        omega

omit [DecidableEq Tid] in
/-- The installers between publishing and storing, by lap. -/
theorem storing_spec (h : Inv cfg s g) (hu : storing cfg.size (s.pc u) = some L) :
    ∃ p, (views cfg.size s.pc).writes u = some p ∧ IsLast cfg.size p ∧ lapOf cfg.size p + 1 = L ∧
      unstored (s.pc u) = some (g.chain L) := by
  cases hpc : s.pc u with
  | push pc =>
    rw [hpc] at hu
    cases pc with
    | linkNext c block next | storeTail c block next =>
      obtain rfl := Option.some.inj hu
      obtain ⟨⟨-, -, hlast⟩, -, hchain⟩ := QueuePushSteps.local_push h hpc
      exact ⟨c.tail, QueuePushSteps.view_writes cfg hpc, hlast, rfl, congrArg some hchain.symm⟩
    | _ => cases hu
  | _ =>
    rw [hpc] at hu
    cases hu

/-- A store in turn is the next one. -/
theorem turns_of_store {c : Claim V} {block next : BlockId} (h : Turns cfg τ s g M)
    (hs : Step cfg s (t, l) s') (h' : Inv cfg s' g')
    (hk : ∀ L, L < g.laps → L < g'.laps ∧ g'.chain L = g.chain L)
    (hpc : s.pc t = .push (.storeTail c block next)) (hturn : StoresInTurn s t) :
    Turns cfg (τ ++ [(t, l)]) s' g' (M + 1) := by
  obtain ⟨⟨-, hserves, hlast⟩, hlt, hnext⟩ := QueuePushSteps.local_push h.inv hpc
  have hwrites := QueuePushSteps.view_writes cfg hpc
  have hlive := h.inv.coherent.writes_live hwrites
  have hstoring : storing cfg.size (s.pc t) = some (lapOf cfg.size c.tail + 1) := by
    rw [hpc]
    rfl
  have hM := (h.pending _).mp ⟨t, hstoring⟩
  have hturn' : lapOf cfg.size c.tail = M := by
    refine Nat.le_antisymm (Nat.le_of_not_lt fun hgt => ?_) (Nat.le_of_lt_succ hM.1)
    obtain ⟨u, hu⟩ := (h.pending _).mpr ⟨hgt, hserves.1⟩
    obtain ⟨-, -, -, -, hb⟩ := storing_spec h.inv hu
    rw [hserves.2] at hb
    exact hturn c block next hpc u hb
  obtain ⟨flag, fail, rfl, rfl⟩ := step_of_push hs hpc
  have h1 := laps_le h.inv h' le_rfl fun b S hb => .inl hb
  have h2 := le_laps h.inv hk
  have hstart : s.queue.start next = some ((M + 1) * lap cfg.size) := by
    rw [← hnext, h.inv.coherent.start_chain _ (Nat.le_succ_of_le hlive) hlt, hturn']
  refine ⟨h', ?_, by omega, ?_, fun L => ?_⟩
  · rw [stored, List.flatMap_append, List.flatMap_singleton, List.range_succ, List.map_append,
      ← h.log]
    exact congrArg (stored τ ++ [·]) hstart
  · rw [← hturn', (hk _ hlt).2]
    exact hnext.symm
  · constructor
    · rintro ⟨u, hu⟩
      by_cases hut : u = t
      · subst hut
        simp [PushPc.exec, Next.map, nextPc, storing] at hu
      · simp only [Function.update_of_ne hut] at hu
        have hL := (h.pending L).mp ⟨u, hu⟩
        refine ⟨Nat.lt_of_le_of_ne hL.1 ?_, by omega⟩
        rintro rfl
        obtain ⟨p, hp, hpl, hlap, -⟩ := storing_spec h.inv hu
        have he := hpl.ext hlast (by omega)
        exact hut (h.inv.coherent.writes_inj u t p hp (by rw [hwrites, he]; rfl))
    · rintro ⟨hL, hL'⟩
      obtain ⟨u, hu⟩ := (h.pending L).mpr ⟨by omega, by omega⟩
      have hut : u ≠ t := by
        rintro rfl
        rw [hstoring, Option.some.injEq] at hu
        omega
      refine ⟨u, ?_⟩
      simp only [Function.update_of_ne hut]
      exact hu

/-- Steps that store in turn keep the stores in order. -/
theorem step_turns (h : Turns cfg τ s g M) (hs : Step cfg s (t, l) s')
    (hturn : StoresInTurn s t) : ∃ g' M', Turns cfg (τ ++ [(t, l)]) s' g' M' := by
  obtain ⟨g', h', hrec, -⟩ := step_inv h.inv hs
  rcases step_cases hs with ⟨op, rfl, hpc, -, rfl⟩ | ⟨flag, fail, o, ho, rfl, rfl⟩
  · refine ⟨g', M, turns_of_quiet h h' hrec.kept (fun _ _ hb => hb) rfl rfl fun u => ?_⟩
    by_cases hut : u = t
    · subst hut
      rw [hpc, State.setPc]
      simp only [Function.update_self]
      cases op with
      | push v => cases cfg.capacity <;> rfl
      | _ => rfl
    · rw [State.setPc]
      simp only [Function.update_of_ne hut]
  · rcases exec_stores ho with ⟨he, htail, ⟨c, block, next, hpc⟩ | hsame⟩ | ⟨c, block, next, hpc⟩
    · exact ⟨g', M, turns_of_publish h hs h' hrec.kept hpc⟩
    · by_cases hpub : ∃ c block next, s.pc t = .push (.storeStart c block next)
      · obtain ⟨c, block, next, hpc⟩ := hpub
        exact ⟨g', M, turns_of_publish h hs h' hrec.kept hpc⟩
      · refine ⟨g', M, turns_of_quiet h h' hrec.kept (fun b S hb => ?_) he htail fun u => ?_⟩
        · refine (QueueBlocks.exec_start ho hb).resolve_right ?_
          rintro ⟨c, block, hpc⟩
          exact hpub ⟨c, block, b, hpc⟩
        · by_cases hut : u = t
          · subst hut
            simpa using hsame
          · simp [Function.update_of_ne hut]
    · exact ⟨g', M + 1, turns_of_store h hs h' hrec.kept hpc hturn⟩

/-- In a run that stores in turn, the stores come lap by lap. -/
theorem run_turns (h : Run (fun s l s' => Step cfg s l s' ∧ StoresInTurn s l.1)
    (State.init Tid V) τ s) : ∃ g M, Turns cfg τ s g M := by
  refine h.invariant (P := fun τ s => ∃ g M, Turns cfg τ s g M) ⟨_, _, init_turns⟩ ?_
  rintro τ s ⟨t, l⟩ s' - ⟨g, M, hg⟩ ⟨hs, hturn⟩
  exact step_turns hg hs hturn

omit [DecidableEq Tid] in
theorem increasing_of_turns (h : Turns cfg τ s g M) : Increasing (stored τ) := by
  rw [Increasing, h.log, List.pairwise_map]
  refine (List.pairwise_lt_range (n := M)).imp fun hlt => ?_
  exact ⟨_, rfl, _, rfl, mul_lap_lt_mul_lap.mpr (Nat.succ_lt_succ hlt)⟩

end Turns

section Settled

theorem Settled.stage (h : Settled s) (t : Tid) : (views cfg.size s.pc).stage t ≠ .linking := by
  rcases h t with hpc | ⟨pc, hpc⟩ <;> simp [views, QueueLocal.stage, hpc]

theorem Settled.writes (h : Settled s) (t : Tid) : (views cfg.size s.pc).writes t = none := by
  rcases h t with hpc | ⟨pc, hpc⟩ <;> simp [views, QueueLocal.writes, hpc]

/-- Once everything has settled the last store was that of the last block. -/
theorem stored_last (h : Turns cfg τ s g M) (hq : Settled s) : M = g.laps - 1 := by
  have hM := h.lt
  refine Nat.le_antisymm (Nat.le_sub_one_of_lt hM) (Nat.le_of_not_lt fun hlt => ?_)
  obtain ⟨u, hu⟩ := (h.pending (g.laps - 1)).mpr ⟨hlt, by omega⟩
  rcases hq u with hpc | ⟨pc, hpc⟩ <;> rw [hpc] at hu <;> cases hu

/-- The block of the next position to claim is the last one installed. -/
theorem lap_of_next (h : Inv cfg s g) (hq : Settled s) :
    lapOf cfg.size (nextValue cfg.size s.queue.tail.index) = g.laps - 1 := by
  have hlive := h.coherent.last_live
  have hcap := one_lt_blockCap (z := cfg.size)
  have hsucc := blockCap_add_one (z := cfg.size)
  have hlast : ∀ L, IsLast cfg.size (L * lap cfg.size + (blockCap cfg.size - 1)) ∧
      lapOf cfg.size (L * lap cfg.size + (blockCap cfg.size - 1)) = L := fun L => by
    refine ⟨?_, lapOf_mul_add (by omega)⟩
    rw [IsLast, offset_mul_add (by omega)]
    omega
  refine Nat.le_antisymm ?_ ?_
  · obtain ⟨hl, hlap⟩ := hlast (g.laps - 1)
    have hle : s.queue.tail.index ≤ (g.laps - 1) * lap cfg.size + (blockCap cfg.size - 1) := by
      refine Nat.le_of_not_lt fun hlt => ?_
      have hpub := (h.coherent.published_iff _).mpr ⟨hl.isValue, hlt, fun t => by simp [hq.writes]⟩
      have := h.coherent.last_published _ hpub hl
      omega
    rw [← hlap]
    refine lapOf_mono ?_
    by_cases hv : IsValue cfg.size s.queue.tail.index
    · rwa [nextValue_of_isValue hv]
    · rw [nextValue_of_not_isValue hv]
      refine Nat.succ_le_of_lt (Nat.lt_of_le_of_ne hle fun he => hv ?_)
      rw [he]
      exact hl.isValue
  · rcases Nat.eq_zero_or_pos (g.laps - 1) with h0 | hpos
    · rw [h0]
      exact Nat.zero_le _
    · obtain ⟨hl, hlap⟩ := hlast (g.laps - 1 - 1)
      have hlt := h.coherent.last_claimed _ hl (by omega)
      have hnext := lapOf_add_two_of_isLast hl
      rw [hlap, Nat.sub_add_cancel hpos] at hnext
      rw [← hnext]
      refine lapOf_mono ?_
      by_cases hv : IsValue cfg.size s.queue.tail.index
      · rw [nextValue_of_isValue hv]
        refine Nat.succ_le_of_lt (Nat.lt_of_le_of_ne hlt fun he => (isLast_iff.mp hl).2 ?_)
        exact he ▸ hv
      · rw [nextValue_of_not_isValue hv]
        exact Nat.succ_le_succ hlt

/-- Once everything has settled the whole live chain hangs on the head block. -/
theorem chained_of_settled (h : Inv cfg s g) (hq : Settled s) (hL : g.headLap ≤ L) :
    L < g.laps → Chained s.queue (g.chain L) := by
  induction L, hL using Nat.le_induction with
  | base =>
    intro _
    rw [← h.coherent.head_block]
    exact .head
  | succ L hL ih =>
    intro hlt
    exact .next (ih (Nat.lt_of_succ_lt hlt)) (h.coherent.next_settled hq.stage hL hlt)

end Settled

variable [DecidableEq Tid]

/-- The access of a thread inside a push. -/
theorem step_push (cfg : Config Tid) {pc : PushPc V} (hpc : s.pc u = .push pc) :
    Step cfg s (u, .access (pc.exec cfg.size 0 false s.queue).2.2
        (nextRet (Next.map .push .push (pc.exec cfg.size 0 false s.queue).2.1)))
      ⟨(pc.exec cfg.size 0 false s.queue).1, Function.update s.pc u
        (nextPc (Next.map .push .push (pc.exec cfg.size 0 false s.queue).2.1))⟩ :=
  ⟨.run 0 false, by rw [State.step, hpc]; rfl⟩

/-- A paused installer goes on to store its block, whatever is stored by then. -/
theorem store_of_unstored (cfg : Config Tid) {pcs : Tid → Pc V} {block : BlockId}
    (hu : unstored (pcs u) = some block) :
    ∃ τ' s', Run (Step cfg) ⟨q, pcs⟩ τ' s' ∧ stored τ' = [q.start block] := by
  have hstore : ∀ (q : Queue V) (pcs : Tid → Pc V) (c : Claim V) (b : BlockId),
      pcs u = .push (.storeTail c b block) →
      ∃ τ' s', Run (Step cfg) ⟨q, pcs⟩ τ' s' ∧ stored τ' = [q.start block] :=
    fun q pcs c b hpc => ⟨_, _, .single (step_push cfg (s := ⟨q, pcs⟩) hpc), rfl⟩
  cases hpc : pcs u with
  | push pc =>
    rw [hpc] at hu
    cases pc with
    | storeTail c b next =>
      obtain rfl := Option.some.inj hu
      exact hstore q pcs c b hpc
    | linkNext c b next =>
      obtain rfl := Option.some.inj hu
      have hlink := step_push cfg (s := ⟨q, pcs⟩) hpc
      obtain ⟨τ', s', hr, he⟩ := hstore (q.setNext b (some next))
        (Function.update pcs u (.push (.storeTail c b next))) c b (Function.update_self _ _ _)
      exact ⟨_, s', (Run.single hlink).append hr, he⟩
    | _ => cases hu
  | _ =>
    rw [hpc] at hu
    cases hu

omit [DecidableEq Tid] in
/-- A block is not its own successor. -/
theorem next_ne_block (h : Inv cfg s g) {c : Claim V} {block next : BlockId}
    (hpc : s.pc t = .push (.storeTail c block next)) : next ≠ block := by
  obtain ⟨⟨-, hserves, -⟩, hlt, hnext⟩ := QueuePushSteps.local_push h hpc
  have hlive := h.coherent.writes_live (QueuePushSteps.view_writes cfg hpc)
  rintro rfl
  have := h.coherent.chain_inj hlive hserves.1 (Nat.le_succ_of_le hlive) hlt
    (hserves.2.trans hnext.symm)
  omega

/-- A thread that is alone in the world stores in turn. -/
theorem turns_of_subsingleton [Subsingleton Tid] (h : Reach cfg τ s) :
    Run (fun s l s' => Step cfg s l s' ∧ StoresInTurn s l.1) (State.init Tid V) τ s := by
  induction h with
  | refl => exact .refl
  | @tail τ s s' l hr hs ih =>
    obtain ⟨g, hg⟩ := reach_inv hr
    refine ih.tail ⟨hs, fun c block next hpc u hu => ?_⟩
    rw [Subsingleton.elim u l.1, hpc] at hu
    exact next_ne_block hg hpc (Option.some.inj hu)

/-- A store out of turn leads to a run that moves `tail.block` back. -/
theorem moves_back (h : Inv cfg s g) (hs : Step cfg s (t, l) s') (hturn : ¬StoresInTurn s t) :
    ∃ τ' s'', Run (Step cfg) s' τ' s'' ∧ ¬Increasing (stored (τ ++ (t, l) :: τ')) := by
  simp only [StoresInTurn, not_forall, not_not] at hturn
  obtain ⟨c, block, next, hpc, u, hu⟩ := hturn
  obtain ⟨⟨-, hserves, hlast⟩, hlt, hnext⟩ := QueuePushSteps.local_push h hpc
  have hlive := h.coherent.writes_live (QueuePushSteps.view_writes cfg hpc)
  have hblock := h.coherent.start_chain _ hlive hserves.1
  have hstart := h.coherent.start_chain _ (Nat.le_succ_of_le hlive) hlt
  rw [hserves.2] at hblock
  rw [hnext] at hstart
  have hut : u ≠ t := by
    rintro rfl
    rw [hpc] at hu
    exact next_ne_block h hpc (Option.some.inj hu)
  obtain ⟨flag, fail, rfl, rfl⟩ := step_of_push hs hpc
  have hu' : unstored (Function.update s.pc t (.push (.writeValue c block)) u) = some block := by
    rwa [Function.update_of_ne hut]
  obtain ⟨τ', s'', hr, he⟩ := store_of_unstored cfg
    (q := { s.queue with tail := { s.queue.tail with block := next } }) hu'
  refine ⟨τ', s'', hr, fun hinc => ?_⟩
  rw [Increasing, stored, List.flatMap_append, List.flatMap_cons] at hinc
  have htail := (List.pairwise_append.mp hinc).2.1
  rw [← stored, he] at htail
  have hpair := (List.pairwise_cons.mp htail).1 _ (List.mem_singleton.mpr rfl)
  obtain ⟨S, hS, T, hT, hlt'⟩ := hpair
  obtain rfl := Option.some.inj (hstart.symm.trans hS)
  obtain rfl := Option.some.inj (hblock.symm.trans hT)
  have := mul_lap_lt_mul_lap.mp hlt'
  omega

/-- The stores to `tail.block` in a run in which no push stores the block after
a block that its own installer has yet to store. The stores come lap by lap.
Whenever no push or receive is in flight, `tail.block` is the last block of the
live chain and serves the lap of the next value position, and a push that then
runs alone with room returns `Ok` for that position. The first store out of
turn instead leads to a run that moves `tail.block` back. -/
theorem stores_lap_by_lap
    (h : Run (fun s l s' => Step cfg s l s' ∧ StoresInTurn s l.1) (State.init Tid V) τ s) :
    Increasing (stored τ) ∧
    (Settled s →
      Chained s.queue s.queue.tail.block ∧ s.queue.next s.queue.tail.block = none ∧
      s.queue.start s.queue.tail.block =
        some (lapStart cfg.size (nextValue cfg.size s.queue.tail.index)) ∧
      ∀ t v, s.pc t = .idle → (∀ cap ∈ cfg.capacity, HasRoom cfg.size s.queue cap) →
        ∀ flags, ∃ n ≤ 20 + blockCap cfg.size, ∃ τ' s' e wake,
          s.runs cfg ((t, .call (.push v)) :: alone t ((List.range (n + 1)).map flags)) =
            some (τ' ++ [(t, .access e (some (.push
              (.pushed (nextValue cfg.size s.queue.tail.index) wake))))], s') ∧
          s'.pc t = .idle) ∧
    ∀ t l s', Step cfg s (t, l) s' → ¬StoresInTurn s t →
      ∃ τ' s'', Run (Step cfg) s' τ' s'' ∧ ¬Increasing (stored (τ ++ (t, l) :: τ')) := by
  obtain ⟨g, M, hg⟩ := run_turns h
  refine ⟨increasing_of_turns hg, fun hq => ?_, fun t l s' => moves_back hg.inv⟩
  have hlive := hg.inv.coherent.last_live
  have htail : s.queue.tail.block = g.chain (g.laps - 1) := by rw [hg.tail, stored_last hg hq]
  have hserves : TailServes cfg.size s.queue (nextValue cfg.size s.queue.tail.index) := by
    rw [TailServes, htail, hg.inv.coherent.start_chain _ hlive.1 hlive.2, lapStart_eq,
      lap_of_next hg.inv hq]
  refine ⟨?_, ?_, hserves, fun t v hidle hroom flags => ?_⟩
  · rw [htail]
    exact chained_of_settled hg.inv hq hlive.1 hlive.2
  · rw [htail]
    exact hg.inv.coherent.next_last
  · have hcall : s.step cfg t (.call (.push v)) =
        some (.call (.push v), s.setPc t (Op.entry cfg.capacity (.push v))) := by
      simp [State.step, hidle, Op.Allowed]
    obtain ⟨n, hn, τ', s', e, wake, hruns, hidle', -⟩ :=
      push_returns (s := s.setPc t (Op.entry cfg.capacity (.push v))) (t := t)
        (Function.update_self _ _ _) ⟨rfl, hserves⟩ hroom flags
    refine ⟨n, hn, (t, .call (.push v)) :: τ', s', e, wake, ?_, hidle'⟩
    rw [State.runs_cons hcall, hruns]
    rfl

/-- An unbounded queue of small blocks used by one thread. -/
def lonely : Config (Fin 1) := ⟨.small, none, Config.unbounded_pos, none⟩

/-- The thread fills the first block. -/
def fill : List (Fin 1 × Choice ℕ) :=
  (0, .call (.push 7)) :: List.replicate 8 (0, .run 0 false) ++
  (0, .call (.push 8)) :: List.replicate 8 (0, .run 0 false) ++
  (0, .call (.push 9)) :: List.replicate 16 (0, .run 0 false)

/-- In that run the second block is stored, and serves the next position. -/
theorem stores_lap_by_lap_of_fill : ∃ (τ : List (Fin 1 × Label ℕ)) (s : State (Fin 1) ℕ),
    Reach lonely τ s ∧ stored τ = [some 4] ∧ Increasing (stored τ) ∧
      Chained s.queue s.queue.tail.block ∧ s.queue.next s.queue.tail.block = none ∧
      s.queue.start s.queue.tail.block =
        some (lapStart .small (nextValue .small s.queue.tail.index)) := by
  have h : ((State.init (Fin 1) ℕ).runs lonely fill).map
      (fun r => (stored r.1, (r.2.pc 0).isIdle)) = some ([some 4], true) := by
    decide +kernel
  obtain ⟨⟨τ, s⟩, hr, he⟩ := Option.map_eq_some_iff.mp h
  simp only [Prod.mk.injEq, Pc.isIdle_iff] at he
  have hreach : Reach lonely τ s := State.runs_run hr
  obtain ⟨hinc, hset, -⟩ := stores_lap_by_lap (turns_of_subsingleton hreach)
  obtain ⟨hc, hn, hs, -⟩ := hset fun t => .inl (by rw [Subsingleton.elim t 0, he.2])
  exact ⟨τ, s, hreach, he.1, hinc, hc, hn, hs⟩

/-- An unbounded queue of small blocks shared by eight threads. -/
def crowded : Config (Fin 8) := ⟨.small, none, Config.unbounded_pos, none⟩

/-- A thread runs for a number of accesses. -/
def go (t : Fin 8) (n : ℕ) : List (Fin 8 × Choice ℕ) := List.replicate n (t, .run 0 false)

/-- Thread 1 owns the last slot of the first lap and installs the second block
up to the store of its start, threads 2 and 3 hold positions of the first lap,
and threads 4 to 7 claim the positions of the second and third lap. Once the
first block is read, recycled and reinstalled, the stale walk of thread 4
accepts a block that its installer has not stored yet. -/
def staleWalk : List (Fin 8 × Choice ℕ) :=
  (0, .call (.push 0)) :: go 0 8 ++ (0, .call (.push 1)) :: go 0 8 ++
  (1, .call (.push 2)) :: go 1 3 ++ (2, .call (.push 4)) :: go 2 5 ++
  (3, .call (.push 5)) :: go 3 3 ++ (4, .call (.push 6)) :: go 4 3 ++
  (5, .call (.push 8)) :: go 5 5 ++ (6, .call (.push 9)) :: go 6 3 ++
  (7, .call (.push 10)) :: go 7 5 ++ go 1 13 ++ go 2 5 ++ go 3 5 ++
  (0, .call .pop) :: go 0 6 ++ (0, .call .pop) :: go 0 6 ++ (0, .call .pop) :: go 0 15 ++
  go 4 7 ++ go 7 11 ++ go 4 4 ++ go 5 5 ++ go 6 5

/-- The stores of that run go from lap 1 to lap 3 and back to lap 2. Then no
operation is in flight, but `tail.block` is neither the last block nor the one
for the next position, and a push that runs alone never returns. -/
theorem tail_block_moves_back : ∃ (τ τ' : List (Fin 8 × Label ℕ)) (s s' : State (Fin 8) ℕ),
    Reach crowded τ s ∧ stored τ = [some 4, some 12, some 8] ∧ ¬Increasing (stored τ) ∧
      (∀ t, s.pc t = .idle) ∧ s.queue.next s.queue.tail.block ≠ none ∧
      s.queue.start s.queue.tail.block ≠
        some (lapStart .small (nextValue .small s.queue.tail.index)) ∧
      Run (Step crowded) s τ' s' ∧ τ'.map Prod.fst = List.replicate 9 0 ∧
      walksFor (s'.pc 0) = some (nextValue .small s.queue.tail.index) ∧
      ∀ τ'' s'', Run (fun s l s' => Step crowded s l s' ∧ l.1 = 0) s' τ'' s'' →
        s''.pc 0 ≠ .idle := by
  have h : (((State.init (Fin 8) ℕ).runs crowded staleWalk).bind fun r =>
      (r.2.runs crowded ((0, .call (.push 11)) :: go 0 8)).map fun r' =>
        (stored r.1, (List.finRange 8).all fun t => (r.2.pc t).isIdle, r'.1.map Prod.fst,
          [r.2.queue.next r.2.queue.tail.block, r.2.queue.start r.2.queue.tail.block,
            some r.2.queue.tail.index, walksFor (r'.2.pc 0),
            r'.2.queue.start r'.2.queue.tail.block])) =
      some ([some 4, some 12, some 8], true, List.replicate 9 0,
        [some 2, some 8, some 11, some 12, some 8]) := by
    decide +kernel
  obtain ⟨⟨τ, s⟩, hr, h⟩ := Option.bind_eq_some_iff.mp h
  obtain ⟨⟨τ', s'⟩, hr', he⟩ := Option.map_eq_some_iff.mp h
  simp only [Prod.mk.injEq, List.all_eq_true, List.mem_finRange, forall_const,
    Pc.isIdle_iff, List.cons.injEq, Option.some.injEq, and_true] at he
  obtain ⟨hst, hidle, hfst, hnext, hstart, htail, hwalk, hstart'⟩ := he
  refine ⟨τ, τ', s, s', State.runs_run hr, hst, ?_, hidle, by simp [hnext], ?_,
    State.runs_run hr', hfst, ?_, fun τ'' s'' hrun => ?_⟩
  · rw [hst, Increasing]
    intro hinc
    simp at hinc
  · rw [hstart, htail]
    decide
  · rw [hwalk, htail]
    rfl
  · exact stranded_run (stranded_of_walksFor (z := .small) hwalk hstart' (by decide)) hrun

end Rapidfire.QueueStores
