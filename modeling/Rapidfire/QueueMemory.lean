import Rapidfire.Positions
import Mathlib.Logic.Function.Basic
import Mathlib.Data.List.Perm.Basic

/-!
# Shared memory of the block queue

Blocks are never freed while the queue lives, so a block identifier always
points at valid memory. The two index lines, the spare slot, the overflow
pool and every block field are kept as the source has them, the memory of the
blocks as one map for each field; a null pointer is `none`, and so is the
`POOLED` mark of a start position.
-/

namespace Rapidfire.QueueMemory

open Positions

/-- Address of an allocated block. -/
abbrev BlockId := ℕ

/-- One side of the queue. The `cached` and `contended` words of the head
side are never used and are left out. -/
structure Head where
  index : ℕ
  block : BlockId

/-- Producer side with its cached head and its contention hint. -/
structure Tail where
  index : ℕ
  block : BlockId
  cached : ℕ
  contended : ℕ

/-- Blocks outside the live chain, both stacks with their top at the end. -/
structure BlockPool where
  ready : List BlockId
  retired : List BlockId

/-- Shared words of the queue, with one map for every field of a block and of
its slots. Addresses from `allocated` on are not in use yet. -/
structure Queue (V : Type) where
  head : Head
  tail : Tail
  spare : Option BlockId
  pool : BlockPool
  /-- First position of the lap a block serves, or `none` for `POOLED`. -/
  start : BlockId → Option ℕ
  next : BlockId → Option BlockId
  prev : BlockId → Option BlockId
  /-- `read_marks`; true once the reader of that slot has finished. -/
  mark : BlockId → ℕ → Bool
  /-- Lap tag of a slot, never reset. -/
  state : BlockId → ℕ → ℕ
  /-- Value of a slot, if it was ever written. -/
  value : BlockId → ℕ → Option V
  allocated : ℕ

/-- Uncontended pushes needed to leave CAS mode. -/
def contentionWindow : ℕ := 64

/-- Immutable parameters: block size, capacity (`none` for `UNBOUNDED`) and
the consumer that owns the exclusive receive paths, if any. -/
structure Config (Tid : Type) where
  size : BlockSize
  capacity : Option ℕ
  capacity_pos : ∀ c ∈ capacity, 0 < c
  exclusive : Option Tid

/-- An unbounded queue has no capacity to be positive. -/
theorem Config.unbounded_pos : ∀ c ∈ (none : Option ℕ), 0 < c := nofun

/-- `Queue::new`: block 0 serves the first lap. -/
def Queue.new (V : Type) : Queue V where
  head := ⟨0, 0⟩
  tail := ⟨0, 0, 0, 0⟩
  spare := none
  pool := ⟨[], []⟩
  start := fun b => if b = 0 then some 0 else none
  next := fun _ => none
  prev := fun _ => none
  mark := fun _ _ => false
  state := fun _ _ => 0
  value := fun _ _ => none
  allocated := 1

/-- `Vec::swap_remove`: the last element takes the place of the removed one. -/
def swapRemove (l : List BlockId) (i : ℕ) : List BlockId :=
  match l.getLast? with
  | none => []
  | some last => (l.set i last).dropLast

/-- What `swap_remove` leaves is the list without the removed element. -/
theorem swapRemove_perm {l : List BlockId} {i : ℕ} {b : BlockId} (h : l[i]? = some b) :
    (b :: swapRemove l i).Perm l := by
  obtain ⟨hi, hb⟩ := List.getElem?_eq_some_iff.mp h
  induction l using List.reverseRecOn with
  | nil => simp at hi
  | append_singleton init last _ =>
    simp only [swapRemove, List.getLast?_concat]
    rcases Nat.lt_or_ge i init.length with hlt | hge
    · rw [List.getElem_append_left hlt] at hb
      rw [List.set_append_left _ _ hlt, List.dropLast_concat]
      calc b :: init.set i last
          _ |>.Perm (b :: last :: init.eraseIdx i) := (List.set_perm_cons_eraseIdx hlt last).cons b
          _ |>.Perm (last :: b :: init.eraseIdx i) := .swap ..
          _ |>.Perm (last :: init) := by
            rw [← hb]
            exact (List.getElem_cons_eraseIdx_perm hlt).cons last
          _ |>.Perm (init ++ [last]) := (List.perm_append_singleton last init).symm
    · simp only [List.length_append, List.length_singleton] at hi
      obtain rfl : i = init.length := by omega
      rw [List.getElem_concat_length rfl] at hb
      rw [List.set_append_right _ _ hge, Nat.sub_self, List.set_cons_zero, List.dropLast_concat, hb]
      exact (List.perm_append_singleton b init).symm

/-- Effects of a step that the properties speak of: a claimed value position
with its value, a store to `tail.block` with the start position of the stored
block, and a run of `count` positions taken from `head` on. -/
inductive Effect (V : Type) where
  | claimed (tail : ℕ) (v : V)
  | storedTail (start : Option ℕ)
  | taken (head count : ℕ)
  deriving DecidableEq

/-- Where an operation stands after a step: at a program point, returned, or
at a failed assertion, null dereference or read of an uninitialised slot. -/
inductive Next (P R : Type) where
  | goto (pc : P)
  | ret (r : R)
  | fault

/-- Forget which operation a program point and a result belong to. -/
def Next.map {P R P' R' : Type} (f : P → P') (g : R → R') : Next P R → Next P' R'
  | .goto pc => .goto (f pc)
  | .ret r => .ret (g r)
  | .fault => .fault

/-- Result of one step: new memory, where the operation stands, its effect. -/
abbrev Outcome (V P R : Type) := Queue V × Next P R × Option (Effect V)

namespace Queue

variable {V : Type}

/-- `Block::readers_done`: every slot but the last has been marked. -/
def readersDone (z : BlockSize) (q : Queue V) (b : BlockId) : Bool :=
  (List.range (blockCap z - 1)).all (q.mark b)

/-- Store to `start`. -/
def setStart (q : Queue V) (b : BlockId) (s : Option ℕ) : Queue V :=
  { q with start := Function.update q.start b s }

/-- Store to `next`. -/
def setNext (q : Queue V) (b : BlockId) (n : Option BlockId) : Queue V :=
  { q with next := Function.update q.next b n }

/-- Store to `prev`. -/
def setPrev (q : Queue V) (b : BlockId) (n : Option BlockId) : Queue V :=
  { q with prev := Function.update q.prev b n }

/-- Store to a read mark. -/
def setMark (q : Queue V) (b : BlockId) (i : ℕ) (m : Bool) : Queue V :=
  { q with mark := Function.update q.mark b (Function.update (q.mark b) i m) }

/-- Write of a slot value. -/
def setValue (q : Queue V) (b : BlockId) (i : ℕ) (v : V) : Queue V :=
  { q with value := Function.update q.value b (Function.update (q.value b) i (some v)) }

/-- Store to a slot state. -/
def setState (q : Queue V) (b : BlockId) (i : ℕ) (s : ℕ) : Queue V :=
  { q with state := Function.update q.state b (Function.update (q.state b) i s) }

/-- `Block::allocate`: a block at the next address, pooled, unlinked, unmarked
and uninitialised. -/
def alloc (q : Queue V) : Queue V :=
  { q with
    start := Function.update q.start q.allocated none
    next := Function.update q.next q.allocated none
    prev := Function.update q.prev q.allocated none
    mark := Function.update q.mark q.allocated fun _ => false
    state := Function.update q.state q.allocated fun _ => 0
    value := Function.update q.value q.allocated fun _ => none
    allocated := q.allocated + 1 }

theorem start_setStart (q : Queue V) (b : BlockId) (s : Option ℕ) :
    (q.setStart b s).start = Function.update q.start b s := rfl

theorem next_setNext (q : Queue V) (b : BlockId) (n : Option BlockId) :
    (q.setNext b n).next = Function.update q.next b n := rfl

theorem prev_setPrev (q : Queue V) (b : BlockId) (n : Option BlockId) :
    (q.setPrev b n).prev = Function.update q.prev b n := rfl

theorem mark_setMark (q : Queue V) (b : BlockId) (i : ℕ) (m : Bool) :
    (q.setMark b i m).mark = Function.update q.mark b (Function.update (q.mark b) i m) := rfl

theorem value_setValue (q : Queue V) (b : BlockId) (i : ℕ) (v : V) :
    (q.setValue b i v).value =
      Function.update q.value b (Function.update (q.value b) i (some v)) := rfl

theorem state_setState (q : Queue V) (b : BlockId) (i s : ℕ) :
    (q.setState b i s).state = Function.update q.state b (Function.update (q.state b) i s) := rfl

end Queue

end Rapidfire.QueueMemory
