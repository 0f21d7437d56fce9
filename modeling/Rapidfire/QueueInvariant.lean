import Rapidfire.QueuePushSteps
import Rapidfire.QueuePopSteps
import Rapidfire.QueueSingleSteps

/-!
# The invariant of the queue

The invariant holds of a new queue and is kept by every step of every thread,
so it holds in every reachable state, for some auxiliary record.
-/

namespace Rapidfire.QueueInvariant

open Positions QueueMemory QueueMachine QueueCoherence QueueLocal QueueRely QueueSteps Runs

variable {Tid V : Type} {cfg : Config Tid} {s s' : State Tid V} {g : Ghost Tid V} {t : Tid}
  {l : Label V}

/-- The auxiliary record of a new queue: block 0 serves the first lap. -/
def Ghost.init (Tid V : Type) : Ghost Tid V where
  val := fun _ => none
  published := fun _ => False
  finished := fun _ => False
  laps := 1
  chain := fun _ => 0
  headLap := 0
  place := fun b => if b = 0 then .serving else .fresh

theorem init_coherent : Coherent cfg (Queue.new V) (views cfg.size (State.init Tid V).pc)
    (Ghost.init Tid V) where
  writes_spec := nofun
  writes_inj := nofun
  reads_spec := nofun
  reads_inj := nofun
  taken_claimed _ _ h := h
  published_iff p := ⟨nofun, fun h => absurd h.2.1 (Nat.not_lt_zero p)⟩
  finished_iff p := ⟨nofun, fun h => absurd h.2.1 (Nat.not_lt_zero p)⟩
  val_none _ _ := rfl
  headLap_lt := Nat.zero_lt_one
  head_block := rfl
  start_chain L _ hL := by
    obtain rfl := Nat.lt_one_iff.mp hL
    simp [Queue.new, Ghost.init]
  chain_start b S hS := by
    by_cases hb : b = 0
    · subst hb
      simp only [Queue.new, if_true, Option.some.injEq] at hS
      exact ⟨0, Nat.zero_lt_one, by rw [← hS, Nat.zero_mul], rfl⟩
    · simp [Queue.new, hb] at hS
  next_chain L _ hL := absurd hL (by simp [Ghost.init])
  next_live L _ _ hL := absurd hL (by simp [Ghost.init])
  next_last := rfl
  prev_chain L _ hL := absurd hL (by simp [Ghost.init])
  behind p _ hp := absurd hp (Nat.not_lt_zero _)
  last_claimed p _ hp := absurd hp (by simp [Ghost.init])
  last_published := nofun
  stage_before := nofun
  state_lt b i := by
    rw [writtenTag_eq]
    exact Nat.succ_pos _
  slot := nofun
  tagged p _ _ _ hs := by
    rw [writtenTag_eq] at hs
    exact absurd hs.symm (Nat.succ_ne_zero _)
  marked := nofun
  reads_shared _ _ := rfl
  unmarked _ _ _ := rfl
  pooled b hb := by
    by_cases h : b = 0 <;> simp [Ghost.init, h] at hb
  retired b hb := by
    by_cases h : b = 0 <;> simp [Ghost.init, h] at hb
  spare_iff b := by
    by_cases h : b = 0 <;> simp [Queue.new, Ghost.init, h]
  ready_iff b := by
    by_cases h : b = 0 <;> simp [Queue.new, Ghost.init, h]
  ready_nodup := List.nodup_nil
  retired_iff b := by
    by_cases h : b = 0 <;> simp [Queue.new, Ghost.init, h]
  retired_nodup := List.nodup_nil
  hand_iff t b := by
    by_cases h : b = 0 <;> simp [views, holds, State.init, Ghost.init, h]
  serving_iff b := by
    by_cases h : b = 0
    · subst h
      simp only [Ghost.init, if_true, iff_true]
      exact ⟨0, le_rfl, Nat.zero_lt_one, trivial⟩
    · simp [Ghost.init, h, eq_comm]
  fresh_iff b := by
    by_cases h : b = 0 <;> simp [Queue.new, Ghost.init, h, Nat.one_le_iff_ne_zero]
  untouched b hb := by
    have hne : b ≠ 0 := Nat.one_le_iff_ne_zero.mp hb
    simp [Queue.new, hne]
  tail_block := Nat.zero_lt_one
  head_waits := nofun
  head_shared _ _ := by simp [Queue.new, Ghost.init, lapOf_eq_div]
  head_exclusive c _ := by
    refine ⟨?_, fun _ => by simp [Queue.new, Ghost.init, lapOf_eq_div]⟩
    rw [isValue_iff, offset_eq_mod]
    have := one_lt_blockCap (z := cfg.size)
    simp only [Queue.new, Nat.zero_mod]
    omega
  capacity cap _ := by simp [Queue.new]
  cached_le := le_rfl

/-- The invariant holds of a new queue. -/
theorem init_inv : Inv cfg (State.init Tid V) (Ghost.init Tid V) :=
  ⟨init_coherent, fun _ => trivial⟩

variable [DecidableEq Tid]

/-- A thread owns nothing when it enters an operation. -/
theorem entry_quiet (z : BlockSize) (capacity : Option ℕ) (op : Op V) :
    Quiet z (op.entry capacity) := by
  cases op with
  | push v => cases capacity <;> exact ⟨rfl, rfl, rfl, rfl, rfl⟩
  | _ => exact ⟨rfl, rfl, rfl, rfl, rfl⟩

omit [DecidableEq Tid] in
theorem entry_local {q : Queue V} {op : Op V} (ha : op.Allowed cfg t) :
    Local cfg q g t (op.entry cfg.capacity) := by
  cases op with
  | push v =>
    simp only [Op.entry, QueuePush.PushPc.entry]
    split <;> assumption
  | pop | popSingle | popSingleBatch limit => exact ⟨ha, trivial⟩
  | _ => trivial

/-- Calling an operation keeps the invariant. -/
theorem call_inv (h : Inv cfg s g) (hpc : s.pc t = .idle) {op : Op V} (ha : op.Allowed cfg t) :
    Inv cfg (s.setPc t (op.entry cfg.capacity)) g := by
  refine quiet_inv h ?_ (entry_quiet cfg.size cfg.capacity op) (entry_local ha)
  rw [hpc]
  exact ⟨rfl, rfl, rfl, rfl, rfl⟩

/-- Every step of an operation that only looks keeps the invariant. -/
theorem read_steps {pc : ReadPc} (h : Inv cfg s g) (hpc : s.pc t = .read pc) :
    Steps cfg s g t
      ((pc.exec cfg.size cfg.capacity s.queue).1,
        Next.map .read .read (pc.exec cfg.size cfg.capacity s.queue).2.1,
        (pc.exec cfg.size cfg.capacity s.queue).2.2) g := by
  have hq : Quiet cfg.size (s.pc t) := by
    rw [hpc]
    exact ⟨rfl, rfl, rfl, rfl, rfl⟩
  cases pc with
  | emptyHead | lenHead =>
    exact ⟨quiet_inv h hq ⟨rfl, rfl, rfl, rfl, rfl⟩ (le_refl s.queue.head.index),
      .quiet rfl rfl rfl rfl rfl fun _ hL => ⟨hL, rfl⟩, nofun, nofun⟩
  | _ =>
    refine ⟨quiet_inv h hq ⟨rfl, rfl, rfl, rfl, rfl⟩ trivial,
      .quiet rfl rfl rfl rfl rfl fun _ hL => ⟨hL, rfl⟩, ?_, nofun⟩
    rintro r ⟨⟩ p v hm
    exact absurd hm List.not_mem_nil

/-- Every access keeps the invariant. -/
theorem exec_steps (h : Inv cfg s g) {flag : ℕ} {fail : Bool} {o : Outcome V (Pc V) (Ret V)}
    (ho : (s.pc t).exec cfg flag fail s.queue = some o) : ∃ g', Steps cfg s g t o g' := by
  cases hpc : s.pc t with
  | idle => simp [hpc, Pc.exec] at ho
  | fault => simp [hpc, Pc.exec] at ho
  | push pc =>
    rw [hpc, Pc.exec, Option.some.injEq] at ho
    exact ho ▸ QueuePushSteps.push_steps h hpc
  | pop pc =>
    rw [hpc, Pc.exec, Option.some.injEq] at ho
    exact ho ▸ QueuePopSteps.pop_steps h hpc
  | single pc =>
    rw [hpc, Pc.exec, Option.some.injEq] at ho
    exact ho ▸ QueueSingleSteps.single_steps h hpc
  | read pc =>
    rw [hpc, Pc.exec, Option.some.injEq] at ho
    exact ho ▸ ⟨g, read_steps h hpc⟩

/-- Every step keeps the invariant, records what it claims and takes, and
returns the values claimed for the positions it took. -/
theorem step_inv (h : Inv cfg s g) (hs : Step cfg s (t, l) s') :
    ∃ g', Inv cfg s' g' ∧ Records cfg.size s.queue g l.effect s'.queue g' ∧
      ∀ r, l.result = some r → ∀ p v, (p, v) ∈ r.received → g'.val p = some v := by
  rcases step_cases hs with ⟨op, rfl, hpc, ha, rfl⟩ | ⟨flag, fail, o, ho, rfl, rfl⟩
  · exact ⟨g, call_inv h hpc ha, .quiet rfl rfl rfl rfl rfl fun _ hL => ⟨hL, rfl⟩, nofun⟩
  · obtain ⟨g', hg⟩ := exec_steps h ho
    refine ⟨g', hg.inv, hg.records, fun r hr => hg.received r ?_⟩
    cases hnext : o.2.1 with
    | ret r' =>
      rw [hnext] at hr
      exact congrArg _ (Option.some.inj hr)
    | goto pc =>
      rw [hnext] at hr
      cases hr
    | fault =>
      rw [hnext] at hr
      cases hr

/-- The invariant holds in every reachable state. -/
theorem reach_inv {τ : List (Tid × Label V)} (h : Reach cfg τ s) : ∃ g, Inv cfg s g := by
  refine h.stateInvariant (P := fun s => ∃ g, Inv cfg s g) ⟨_, init_inv⟩ ?_
  rintro s ⟨t, l⟩ s' ⟨g, hg⟩ hs
  obtain ⟨g', hg', -⟩ := step_inv hg hs
  exact ⟨g', hg'⟩

/-- No assertion of the queue fails and no null pointer or uninitialised slot
is ever used. -/
theorem no_fault {τ : List (Tid × Label V)} (h : Reach cfg τ s) (t : Tid) : s.pc t ≠ .fault := by
  obtain ⟨g, hg⟩ := reach_inv h
  intro hf
  have hl := hg.assertion t
  rw [hf] at hl
  exact hl

end Rapidfire.QueueInvariant
