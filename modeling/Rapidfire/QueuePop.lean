import Rapidfire.QueueMemory

/-!
# Program points of `Queue::pop`

The MPMC receive checks the state of the head slot and claims it by a
compare-exchange on `head.index`. The consumer of the last slot of a block
moves the head to the next block and hands the old block back.
-/

namespace Rapidfire.QueuePop

open Positions QueueMemory

/-- `SPIN_LIMIT`. -/
def spinLimit : ℕ := 6

/-- `TIGHT_POLLS`. -/
def tightPolls : ℕ := 64

/-- `SNOOZE_LIMIT`. -/
def snoozeLimit : ℕ := tightPolls + 8

/-- Counter update of `Backoff::spin`. -/
def spin (wait : ℕ) : ℕ := if wait ≤ spinLimit then wait + 1 else wait

/-- Counter update of `Backoff::snooze`. -/
def snooze (wait : ℕ) : ℕ := if wait < snoozeLimit then wait + 1 else wait

/-- `Backoff::snooze_bounded`: `none` once the spinning budget is used up. -/
def snoozeBounded (wait : ℕ) : Option ℕ :=
  if wait ≥ snoozeLimit then none else some (snooze wait)

/-- Locals of a pop after its claim: position, block and sampled flag. -/
structure Taken where
  head : ℕ
  block : BlockId
  wake : Bool

/-- Program points of a pop and of the functions it calls. -/
inductive PopPc (V : Type) where
  | loadHead (wait : ℕ)
  | loadBlock (head wait : ℕ)
  | loadState (head : ℕ) (block : BlockId) (wait : ℕ)
  | reloadHead (head : ℕ) (block : BlockId) (wait : ℕ)
  | claim (head : ℕ) (block : BlockId) (wait : ℕ)
  | sample (head : ℕ) (block : BlockId)
  | readValue (k : Taken)
  | markRead (k : Taken) (v : V)
  | loadNext (k : Taken) (v : V)
  | storeBlock (k : Taken) (v : V) (next : BlockId)
  | swapIndex (k : Taken) (v : V)
  | readersDone (k : Taken) (v : V) (i : ℕ)
  | retire (k : Taken) (v : V)
  | resetMark (k : Taken) (v : V) (i : ℕ)
  | resetStart (k : Taken) (v : V)
  | recycleSpare (k : Taken) (v : V)
  | recyclePool (k : Taken) (v : V)

/-- `Some((value, wake))` with the position it came from, or `None`. -/
inductive PopRet (V : Type) where
  | popped (head : ℕ) (v : V) (wake : Bool)
  | nothing
  deriving DecidableEq

variable {V : Type}

/-- Entry of `Queue::pop`. -/
def PopPc.entry : PopPc V := .loadHead 0

/-- Loop head of `pop`, with the index and the block just loaded. -/
def popLoop (z : BlockSize) (head : ℕ) (block : BlockId) (wait : ℕ) :
    Next (PopPc V) (PopRet V) :=
  if offset z head = blockCap z then
    match snoozeBounded wait with
    | none => .ret .nothing
    | some wait => .goto (.loadHead wait)
  else .goto (.loadState head block wait)

/-- One step of a pop. `flag` is the present value of the sampled waiter
counter; `fail` makes the weak compare-exchange fail spuriously. -/
def PopPc.exec (z : BlockSize) (capacity : Option ℕ) (flag : ℕ) (fail : Bool) (q : Queue V) :
    PopPc V → Outcome V (PopPc V) (PopRet V)
  | .loadHead wait => (q, .goto (.loadBlock q.head.index wait), none)
  | .loadBlock head wait => (q, popLoop z head q.head.block wait, none)
  | .loadState head block wait =>
    (q, .goto (if q.state block (offset z head) ≠ writtenTag (lapOf z head) then
      .reloadHead head block wait else .claim head block wait), none)
  | .reloadHead head _ wait =>
    (q, if q.head.index = head then .ret .nothing else .goto (.loadBlock q.head.index wait), none)
  | .claim head block wait =>
    if q.head.index = head ∧ fail = false then
      ({ q with head := { q.head with index := head + 1 } },
        .goto (match capacity with
          | none => .readValue ⟨head, block, false⟩
          | some _ => .sample head block), some (.taken head 1))
    else (q, .goto (.loadBlock q.head.index (spin wait)), none)
  | .sample head block => (q, .goto (.readValue ⟨head, block, decide (flag ≠ 0)⟩), none)
  | .readValue k =>
    match q.value k.block (offset z k.head) with
    | none => (q, .fault, none)
    | some v =>
      (q, .goto (if offset z k.head + 1 = blockCap z then .loadNext k v else .markRead k v), none)
  | .markRead k v =>
    (q.setMark k.block (offset z k.head) true, .ret (.popped k.head v k.wake), none)
  | .loadNext k v =>
    match q.next k.block with
    | none => (q, .fault, none)
    | some n => (q, .goto (.storeBlock k v n), none)
  | .storeBlock k v next =>
    ({ q with head := { q.head with block := next } }, .goto (.swapIndex k v), none)
  | .swapIndex k v =>
    ({ q with head := { q.head with index := k.head + 2 } }, .goto (.readersDone k v 0), none)
  | .readersDone k v i =>
    (q, .goto (if q.mark k.block i = false then .retire k v
      else if i + 1 < blockCap z - 1 then .readersDone k v (i + 1)
      else .resetMark k v 0), none)
  | .retire k v =>
    ({ q with pool := { q.pool with retired := q.pool.retired ++ [k.block] } },
      .ret (.popped k.head v k.wake), none)
  | .resetMark k v i =>
    (q.setMark k.block i false,
      .goto (if i + 1 < blockCap z then .resetMark k v (i + 1) else .resetStart k v), none)
  | .resetStart k v => (q.setStart k.block none, .goto (.recycleSpare k v), none)
  | .recycleSpare k v =>
    match q.spare with
    | none => ({ q with spare := some k.block }, .ret (.popped k.head v k.wake), none)
    | some _ => (q, .goto (.recyclePool k v), none)
  | .recyclePool k v =>
    ({ q with pool := { q.pool with ready := q.pool.ready ++ [k.block] } },
      .ret (.popped k.head v k.wake), none)

end Rapidfire.QueuePop
