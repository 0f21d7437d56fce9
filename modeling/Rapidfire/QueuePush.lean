import Rapidfire.QueueMemory

/-!
# Program points of `Queue::push`

Every constructor is the program point just before one atomic access (or one
plain access to a slot). A step performs that access and runs the local code
up to the next one.
-/

namespace Rapidfire.QueuePush

open Positions QueueMemory

/-- Locals of a push after its claim: value, claimed position, sampled flag. -/
structure Claim (V : Type) where
  value : V
  tail : ℕ
  wake : Bool

/-- Program points of a push and of the functions it calls. -/
inductive PushPc (V : Type) where
  | loadContended (v : V)
  | fetchAddLoad (v : V)
  | fetchAdd (v : V) (expected : ℕ)
  | fetchAddContend (v : V) (tail : ℕ)
  | casLoad (v : V)
  | casTry (v : V) (tail : ℕ) (failed : Bool)
  | casLevel (v : V) (tail : ℕ) (failed : Bool)
  | casContend (v : V) (tail level : ℕ)
  | boundedLoad (v : V) (cap : ℕ)
  | boundedSkip (v : V) (cap tail : ℕ)
  | boundedCached (v : V) (cap tail : ℕ)
  | boundedHead (v : V) (cap tail : ℕ)
  | boundedCache (v : V) (cap tail head : ℕ)
  | boundedTry (v : V) (cap tail : ℕ)
  | sample (v : V) (tail : ℕ)
  | findBlock (c : Claim V)
  | findStart (c : Claim V) (block : BlockId)
  | slowBlock (c : Claim V)
  | slowStart (c : Claim V) (block : BlockId)
  | slowPrev (c : Claim V) (block : BlockId)
  | takeSpare (c : Claim V) (block : BlockId)
  | takePool (c : Claim V) (block : BlockId)
  | resetMark (c : Claim V) (block next : BlockId) (i : ℕ)
  | resetStart (c : Claim V) (block next : BlockId)
  | allocate (c : Claim V) (block : BlockId)
  | storePrev (c : Claim V) (block next : BlockId)
  | storeNext (c : Claim V) (block next : BlockId)
  | storeStart (c : Claim V) (block next : BlockId)
  | linkNext (c : Claim V) (block next : BlockId)
  | storeTail (c : Claim V) (block next : BlockId)
  | writeValue (c : Claim V) (block : BlockId)
  | publish (c : Claim V) (block : BlockId)

/-- `Ok(wake)` with the position the value went to, or the value given back. -/
inductive PushRet (V : Type) where
  | pushed (tail : ℕ) (wake : Bool)
  | full (v : V)
  deriving DecidableEq

variable {V : Type}

/-- Continue with the block found for the claimed position: the producer of
the last slot installs the next block first. -/
def found (z : BlockSize) (c : Claim V) (block : BlockId) : PushPc V :=
  if offset z c.tail + 1 = blockCap z then .takeSpare c block else .writeValue c block

/-- Loop head of `claim_bounded`. -/
def boundedLoop (z : BlockSize) (v : V) (cap tail : ℕ) : PushPc V :=
  if offset z tail = blockCap z then .boundedSkip v cap tail else .boundedCached v cap tail

/-- Entry of `Queue::push`. -/
def PushPc.entry (capacity : Option ℕ) (v : V) : PushPc V :=
  match capacity with
  | none => .loadContended v
  | some cap => .boundedLoad v cap

/-- The pool section of `take_block_slow`, then `reset` or `allocate`. -/
def takeBlockSlow (z : BlockSize) (c : Claim V) (block : BlockId) (q : Queue V) :
    Queue V × PushPc V :=
  let done := Queue.readersDone z q
  match q.pool.ready.getLast?, q.pool.retired.find? done with
  | some b, _ => ({ q with pool := { q.pool with ready := q.pool.ready.dropLast } },
      .storePrev c block b)
  | none, some b =>
    ({ q with pool := { q.pool with
        retired := swapRemove q.pool.retired (q.pool.retired.findIdx done) } },
      .resetMark c block b 0)
  | none, none => (q, .allocate c block)

/-- One step of a push. `flag` is the present value of the sampled waiter
counter; `fail` makes a weak compare-exchange fail spuriously. -/
def PushPc.exec (z : BlockSize) (flag : ℕ) (fail : Bool) (q : Queue V) :
    PushPc V → Outcome V (PushPc V) (PushRet V)
  | .loadContended v =>
    (q, .goto (if q.tail.contended = 0 then .fetchAddLoad v else .casLoad v), none)
  | .fetchAddLoad v => (q, .goto (.fetchAdd v q.tail.index), none)
  | .fetchAdd v expected =>
    let tail := q.tail.index
    let q' := { q with tail := { q.tail with index := tail + 1 } }
    let event := if offset z tail = blockCap z then none else some (.claimed tail v)
    if tail ≠ expected then (q', .goto (.fetchAddContend v tail), event)
    else if offset z tail = blockCap z then (q', .goto (.fetchAddLoad v), event)
    else (q', .goto (.sample v tail), event)
  | .fetchAddContend v tail =>
    ({ q with tail := { q.tail with contended := contentionWindow } },
      .goto (if offset z tail = blockCap z then .fetchAddLoad v else .sample v tail), none)
  | .casLoad v => (q, .goto (.casTry v q.tail.index false), none)
  | .casTry v tail failed =>
    if q.tail.index = tail ∧ fail = false then
      let q' := { q with tail := { q.tail with index := tail + 1 } }
      if offset z tail = blockCap z then (q', .goto (.casTry v (tail + 1) failed), none)
      else (q', .goto (.casLevel v tail failed), some (.claimed tail v))
    else (q, .goto (.casTry v q.tail.index true), none)
  | .casLevel v tail failed =>
    if failed = true then (q, .goto (.casContend v tail contentionWindow), none)
    else if q.tail.contended > 0 then
      (q, .goto (.casContend v tail (q.tail.contended - 1)), none)
    else (q, .goto (.sample v tail), none)
  | .casContend v tail level =>
    ({ q with tail := { q.tail with contended := level } }, .goto (.sample v tail), none)
  | .boundedLoad v cap => (q, .goto (boundedLoop z v cap q.tail.index), none)
  | .boundedSkip v cap tail =>
    if q.tail.index = tail ∧ fail = false then
      ({ q with tail := { q.tail with index := tail + 1 } },
        .goto (boundedLoop z v cap (tail + 1)), none)
    else (q, .goto (boundedLoop z v cap q.tail.index), none)
  | .boundedCached v cap tail =>
    (q, .goto (if itemsBetween z q.tail.cached tail ≥ cap then .boundedHead v cap tail
      else .boundedTry v cap tail), none)
  | .boundedHead v cap tail =>
    if itemsBetween z q.head.index tail ≥ cap then (q, .ret (.full v), none)
    else (q, .goto (.boundedCache v cap tail q.head.index), none)
  | .boundedCache v cap tail head =>
    ({ q with tail := { q.tail with cached := head } }, .goto (.boundedTry v cap tail), none)
  | .boundedTry v cap tail =>
    if q.tail.index = tail ∧ fail = false then
      ({ q with tail := { q.tail with index := tail + 1 } }, .goto (.sample v tail),
        some (.claimed tail v))
    else (q, .goto (boundedLoop z v cap q.tail.index), none)
  | .sample v tail => (q, .goto (.findBlock ⟨v, tail, decide (flag ≠ 0)⟩), none)
  | .findBlock c => (q, .goto (.findStart c q.tail.block), none)
  | .findStart c block =>
    (q, .goto (if q.start block = some (lapStart z c.tail) then found z c block
      else .slowBlock c), none)
  | .slowBlock c => (q, .goto (.slowStart c q.tail.block), none)
  | .slowStart c block =>
    match q.start block with
    | none => (q, .goto (.slowBlock c), none)
    | some s =>
      (q, .goto (if s = lapStart z c.tail then found z c block
        else if s > lapStart z c.tail then .slowPrev c block else .slowBlock c), none)
  | .slowPrev c block =>
    match q.prev block with
    | none => (q, .fault, none)
    | some b => (q, .goto (.slowStart c b), none)
  | .takeSpare c block =>
    match q.spare with
    | some b => ({ q with spare := none }, .goto (.storePrev c block b), none)
    | none => (q, .goto (.takePool c block), none)
  | .takePool c block =>
    let (q', pc) := takeBlockSlow z c block q
    (q', .goto pc, none)
  | .resetMark c block next i =>
    (q.setMark next i false,
      .goto (if i + 1 < blockCap z then .resetMark c block next (i + 1)
        else .resetStart c block next), none)
  | .resetStart c block next => (q.setStart next none, .goto (.storePrev c block next), none)
  | .allocate c block =>
    (q.alloc, .goto (.storePrev c block q.allocated), none)
  | .storePrev c block next =>
    (q.setPrev next (some block), .goto (.storeNext c block next), none)
  | .storeNext c block next =>
    (q.setNext next none, .goto (.storeStart c block next), none)
  | .storeStart c block next =>
    (q.setStart next (some (lapStart z c.tail + lap z)), .goto (.linkNext c block next), none)
  | .linkNext c block next =>
    (q.setNext block (some next), .goto (.storeTail c block next), none)
  | .storeTail c block next =>
    ({ q with tail := { q.tail with block := next } }, .goto (.writeValue c block),
      some (.storedTail (q.start next)))
  | .writeValue c block =>
    (q.setValue block (offset z c.tail) c.value, .goto (.publish c block), none)
  | .publish c block =>
    (q.setState block (offset z c.tail) (writtenTag (lapOf z c.tail)),
      .ret (.pushed c.tail c.wake), none)

end Rapidfire.QueuePush
