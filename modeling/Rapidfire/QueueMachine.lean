import Rapidfire.QueuePush
import Rapidfire.QueuePop
import Rapidfire.QueueSingle
import Rapidfire.Runs

/-!
# The queue as a transition system

Any number of threads run queue operations on the shared memory, one atomic
access at a time and in any order. A thread is a producer or a consumer only
by the operations it calls; the exclusive receive paths belong to the one
consumer named by the configuration, and then nobody calls `pop`.
-/

namespace Rapidfire.QueueMachine

open Positions QueueMemory QueuePush QueuePop QueueSingle Runs

variable {Tid V : Type}

/-- The example runs have two threads, 0 and 1. -/
instance twoThreads : NeZero 2 := ⟨by decide⟩

/-- Operations of the queue. -/
inductive Op (V : Type) where
  | push (v : V)
  | pop
  | popSingle
  | popSingleBatch (limit : ℕ)
  | receiverParking
  | senderParking
  | claimsBelow (tail : ℕ)
  | isEmptySeqcst
  | len
  deriving DecidableEq

/-- Results of the operations that only look at the indices. -/
inductive ReadRet where
  | parked (tail : ℕ)
  | answer (b : Bool)
  | length (n : ℕ)
  deriving DecidableEq

/-- Results of the operations. -/
inductive Ret (V : Type) where
  | push (r : PushRet V)
  | pop (r : PopRet V)
  | single (r : SingleRet V)
  | read (r : ReadRet)
  deriving DecidableEq

/-- Program points of the operations that only look at the indices. -/
inductive ReadPc where
  | receiverParking
  | senderParking
  | claimsBelow (tail : ℕ)
  | emptyHead
  | emptyTail (head : ℕ)
  | lenHead
  | lenTail (head : ℕ)

/-- Program points of a thread. -/
inductive Pc (V : Type) where
  | idle
  | fault
  | push (pc : PushPc V)
  | pop (pc : PopPc V)
  | single (pc : SinglePc V)
  | read (pc : ReadPc)

/-- The thread is between operations. -/
def Pc.isIdle : Pc V → Bool
  | .idle => true
  | _ => false

theorem Pc.isIdle_iff {pc : Pc V} : pc.isIdle = true ↔ pc = .idle := by
  cases pc <;> simp [Pc.isIdle]

/-- `receiver_parking`, `sender_parking`, `claims_below`, `is_empty_seqcst`
and `len`. Adding zero to an index changes nothing but orders memory. -/
def ReadPc.exec (z : BlockSize) (capacity : Option ℕ) (q : Queue V) :
    ReadPc → Outcome V ReadPc ReadRet
  | .receiverParking => (q, .ret (.parked q.tail.index), none)
  | .senderParking => (q, .ret (.parked q.head.index), none)
  | .claimsBelow tail => (q, .ret (.answer (decide (itemsBetween z q.head.index tail ≠ 0))), none)
  | .emptyHead => (q, .goto (.emptyTail q.head.index), none)
  | .emptyTail head =>
    (q, .ret (.answer (decide (itemsBetween z head q.tail.index = 0))), none)
  | .lenHead => (q, .goto (.lenTail q.head.index), none)
  | .lenTail head =>
    (q, .ret (.length (match capacity with
      | none => itemsBetween z head q.tail.index
      | some cap => min (itemsBetween z head q.tail.index) cap)), none)

/-- One step of the operation a thread is in. -/
def Pc.exec (cfg : Config Tid) (flag : ℕ) (fail : Bool) (q : Queue V) :
    Pc V → Option (Outcome V (Pc V) (Ret V))
  | .idle => none
  | .fault => none
  | .push pc =>
    let (q', next, e) := pc.exec cfg.size flag fail q
    some (q', Next.map .push .push next, e)
  | .pop pc =>
    let (q', next, e) := pc.exec cfg.size cfg.capacity flag fail q
    some (q', Next.map .pop .pop next, e)
  | .single pc =>
    let (q', next, e) := pc.exec cfg.size cfg.capacity flag fail q
    some (q', Next.map .single .single next, e)
  | .read pc =>
    let (q', next, e) := pc.exec cfg.size cfg.capacity q
    some (q', Next.map .read .read next, e)

/-- First program point of an operation. -/
def Op.entry (capacity : Option ℕ) : Op V → Pc V
  | .push v => .push (.entry capacity v)
  | .pop => .pop .entry
  | .popSingle => .single .loadHead
  | .popSingleBatch limit => .single (.batchHead limit)
  | .receiverParking => .read .receiverParking
  | .senderParking => .read .senderParking
  | .claimsBelow tail => .read (.claimsBelow tail)
  | .isEmptySeqcst => .read .emptyHead
  | .len => .read .lenHead

/-- The contract of the receive paths: `pop` is shared by everyone, the
exclusive paths belong to the one consumer of the configuration. -/
def Op.Allowed (cfg : Config Tid) (t : Tid) : Op V → Prop
  | .pop => cfg.exclusive = none
  | .popSingle | .popSingleBatch _ => cfg.exclusive = some t
  | _ => True

instance [DecidableEq Tid] (cfg : Config Tid) (t : Tid) (op : Op V) :
    Decidable (op.Allowed cfg t) := by
  cases op <;> unfold Op.Allowed <;> infer_instance

/-- Shared memory and the program point of every thread. -/
structure State (Tid V : Type) where
  queue : Queue V
  pc : Tid → Pc V

/-- What a step shows: a call, or the effect and the result of an access. -/
inductive Label (V : Type) where
  | call (op : Op V)
  | access (effect : Option (Effect V)) (ret : Option (Ret V))
  deriving DecidableEq

/-- Value positions claimed by an access, with their values. -/
def claims : Option (Effect V) → List (ℕ × V)
  | some (.claimed tail v) => [(tail, v)]
  | _ => []

/-- Positions taken by an access. -/
def takes : Option (Effect V) → List ℕ
  | some (.taken head count) => List.range' head count
  | _ => []

/-- Values an operation returns, with the positions they were taken from. -/
def Ret.received : Ret V → List (ℕ × V)
  | .pop (.popped head v _) | .single (.popped head v _) => [(head, v)]
  | .single (.batch head values _) => (List.range' head values.length).zip values
  | _ => []

/-- Effect of a step on what the properties speak of. -/
def Label.effect : Label V → Option (Effect V)
  | .call _ => none
  | .access e _ => e

/-- Result of the operation a step ends. -/
def Label.result : Label V → Option (Ret V)
  | .call _ => none
  | .access _ r => r

/-- Choices of a scheduled step: call an operation, or run on with the given
value of the sampled counter and the given failure choice. -/
inductive Choice (V : Type) where
  | call (op : Op V)
  | run (flag : ℕ) (fail : Bool)

variable [DecidableEq Tid]

/-- Set the program point of one thread. -/
def State.setPc (s : State Tid V) (t : Tid) (pc : Pc V) : State Tid V :=
  { s with pc := Function.update s.pc t pc }

/-- The program point a finished access leads to. -/
def nextPc : Next (Pc V) (Ret V) → Pc V
  | .goto pc => pc
  | .ret _ => .idle
  | .fault => .fault

/-- The result of a finished access. -/
def nextRet : Next (Pc V) (Ret V) → Option (Ret V)
  | .goto _ => none
  | .ret r => some r
  | .fault => none

omit [DecidableEq Tid] in
/-- The result of an access comes from the operation it belongs to. -/
theorem nextRet_map {P R : Type} {f : P → Pc V} {k : R → Ret V} {n : Next P R} {r : Ret V} :
    nextRet (Next.map f k n) = some r ↔ ∃ r', n = .ret r' ∧ k r' = r := by
  cases n <;> simp [Next.map, nextRet]

/-- One scheduled step of thread `t`. -/
def State.step (cfg : Config Tid) (s : State Tid V) (t : Tid) :
    Choice V → Option (Label V × State Tid V)
  | .call op =>
    match s.pc t with
    | .idle =>
      if op.Allowed cfg t then some (.call op, s.setPc t (op.entry cfg.capacity)) else none
    | _ => none
  | .run flag fail =>
    match (s.pc t).exec cfg flag fail s.queue with
    | none => none
    | some (q', next, e) =>
      some (.access e (nextRet next), { queue := q', pc := Function.update s.pc t (nextPc next) })

/-- Initial state: a new queue and idle threads. -/
def State.init (Tid V : Type) : State Tid V := ⟨Queue.new V, fun _ => .idle⟩

/-- The step relation, labelled by the thread and what its step shows. -/
def Step (cfg : Config Tid) (s : State Tid V) (l : Tid × Label V) (s' : State Tid V) : Prop :=
  ∃ c, s.step cfg l.1 c = some (l.2, s')

/-- What a step can do: an idle thread calls an operation it is allowed to
call, or a thread inside an operation performs one access. -/
theorem step_cases {cfg : Config Tid} {s s' : State Tid V} {t : Tid} {l : Label V}
    (h : Step cfg s (t, l) s') :
    (∃ op : Op V, l = .call op ∧ s.pc t = .idle ∧ op.Allowed cfg t ∧
      s' = s.setPc t (op.entry cfg.capacity)) ∨
    ∃ flag fail o, (s.pc t).exec cfg flag fail s.queue = some o ∧
      l = .access o.2.2 (nextRet o.2.1) ∧
      s' = { queue := o.1, pc := Function.update s.pc t (nextPc o.2.1) } := by
  obtain ⟨c, hc⟩ := h
  cases c with
  | call op =>
    simp only [State.step] at hc
    split at hc
    · rename_i hpc
      split at hc
      · rename_i ha
        obtain ⟨rfl, rfl⟩ := Prod.mk.inj (Option.some.inj hc)
        exact .inl ⟨op, rfl, hpc, ha, rfl⟩
      · cases hc
    · cases hc
  | run flag fail =>
    simp only [State.step] at hc
    split at hc
    · cases hc
    · rename_i q' next e ho
      obtain ⟨rfl, rfl⟩ := Prod.mk.inj (Option.some.inj hc)
      exact .inr ⟨flag, fail, (q', next, e), ho, rfl, rfl⟩

/-- The step of a thread inside a push. -/
theorem step_of_push {cfg : Config Tid} {s s' : State Tid V} {t : Tid} {l : Label V}
    {pc : PushPc V} (h : Step cfg s (t, l) s') (hpc : s.pc t = .push pc) :
    ∃ flag fail, l = .access (pc.exec cfg.size flag fail s.queue).2.2
        (nextRet (Next.map .push .push (pc.exec cfg.size flag fail s.queue).2.1)) ∧
      s' = ⟨(pc.exec cfg.size flag fail s.queue).1, Function.update s.pc t
        (nextPc (Next.map .push .push (pc.exec cfg.size flag fail s.queue).2.1))⟩ := by
  rcases step_cases h with ⟨op, -, hidle, -⟩ | ⟨flag, fail, o, ho, rfl, rfl⟩
  · rw [hpc] at hidle
    cases hidle
  · rw [hpc, Pc.exec, Option.some.injEq] at ho
    subst ho
    exact ⟨flag, fail, rfl, rfl⟩

/-- Runs of the queue from its creation. -/
abbrev Reach (cfg : Config Tid) : List (Tid × Label V) → State Tid V → Prop :=
  Run (Step cfg) (State.init Tid V)

/-- Run a schedule, collecting the labels. -/
def State.runs (cfg : Config Tid) :
    State Tid V → List (Tid × Choice V) → Option (List (Tid × Label V) × State Tid V)
  | s, [] => some ([], s)
  | s, (t, c) :: rest =>
    match s.step cfg t c with
    | none => none
    | some (l, s') =>
      match State.runs cfg s' rest with
      | none => none
      | some (τ, s'') => some ((t, l) :: τ, s'')

/-- The first step of a schedule that executes. -/
theorem State.runs_cons {cfg : Config Tid} {s m : State Tid V} {t : Tid} {c : Choice V}
    {l : Label V} (h : s.step cfg t c = some (l, m)) (rest : List (Tid × Choice V)) :
    s.runs cfg ((t, c) :: rest) = (m.runs cfg rest).map fun x => ((t, l) :: x.1, x.2) := by
  rw [State.runs, h]
  simp only
  split <;> rename_i heq <;> rw [heq] <;> rfl

/-- A schedule that executes is a run. -/
theorem State.runs_run {cfg : Config Tid} {s s' : State Tid V}
    {sched : List (Tid × Choice V)} {τ : List (Tid × Label V)}
    (h : s.runs cfg sched = some (τ, s')) : Run (Step cfg) s τ s' := by
  induction sched generalizing s τ with
  | nil =>
    obtain ⟨rfl, rfl⟩ := Prod.mk.inj (Option.some.inj h)
    exact .refl
  | cons head rest ih =>
    obtain ⟨t, c⟩ := head
    simp only [State.runs] at h
    cases hs : s.step cfg t c with
    | none => simp [hs] at h
    | some r =>
      obtain ⟨l, m⟩ := r
      simp only [hs] at h
      cases hr : m.runs cfg rest with
      | none => simp [hr] at h
      | some r' =>
        obtain ⟨τ', m'⟩ := r'
        simp only [hr, Option.some.injEq, Prod.mk.injEq] at h
        obtain ⟨rfl, rfl⟩ := h
        exact (Run.single (l := (t, l)) ⟨c, hs⟩).append (ih hr)

end Rapidfire.QueueMachine
