import Rapidfire.QueueMemory

/-!
# Program points of the exclusive receive paths

`pop_single` and `pop_single_batch` run under the contract of one consumer
for the whole life of the queue. Values are read before the head advances,
no read marks are set, and a block is recycled as soon as the head left it.
-/

namespace Rapidfire.QueueSingle

open Positions QueueMemory

/-- Locals of an exclusive receive: the head index and block it loaded and
the values read so far, the first of them from the head position. -/
structure Run (V : Type) where
  head : ℕ
  block : BlockId
  values : List V

/-- Program points shared by `pop_single` and `pop_single_batch` once the
values have been read, and of `recycle_single`. -/
inductive LeavePc (V : Type) where
  | loadNext (r : Run V)
  | storeBlock (r : Run V) (next : BlockId)
  | advance (r : Run V)
  | sample (r : Run V)
  | resetStart (r : Run V) (wake : ℕ)
  | recycleSpare (r : Run V) (wake : ℕ)
  | recyclePool (r : Run V) (wake : ℕ)

/-- Program points of the exclusive receive paths. -/
inductive SinglePc (V : Type) where
  | loadHead
  | loadBlock (head : ℕ)
  | loadState (head : ℕ) (block : BlockId)
  | readValue (head : ℕ) (block : BlockId)
  | batchHead (limit : ℕ)
  | batchBlock (limit head : ℕ)
  | batchState (limit head : ℕ) (block : BlockId)
  | reserve (max head : ℕ) (block : BlockId)
  | slotState (max : ℕ) (r : Run V)
  | slotValue (max : ℕ) (r : Run V)
  | leave (batch : Bool) (pc : LeavePc V)

/-- Results: `None` and `Some((value, wake))` of `pop_single`, the appended
values with the number of senders to notify of `pop_single_batch`, and an
unwound growth of the buffer. Positions start at `head`. -/
inductive SingleRet (V : Type) where
  | nothing
  | popped (head : ℕ) (v : V) (wake : Bool)
  | batch (head : ℕ) (values : List V) (wake : ℕ)
  | unwound
  deriving DecidableEq

variable {V : Type}

/-- The values taken by this receive end its block. -/
def Run.last (z : BlockSize) (r : Run V) : Bool :=
  offset z r.head + r.values.length = blockCap z

/-- `advance`: the taken positions, and the sentinel after the last one. -/
def Run.step (z : BlockSize) (r : Run V) : ℕ :=
  r.values.length + if r.last z then 1 else 0

/-- The result of a finished receive. -/
def Run.result (batch : Bool) (r : Run V) (wake : ℕ) : SingleRet V :=
  if batch then .batch r.head r.values wake
  else match r.values with
    | [] => .nothing
    | v :: _ => .popped r.head v (decide (wake ≠ 0))

/-- After the last read: leave the block if its last slot was taken. -/
def leaveEntry (z : BlockSize) (r : Run V) : LeavePc V :=
  if r.last z then .loadNext r else .advance r

/-- Loop test of the batch, `count < max`. -/
def batchLoop (z : BlockSize) (max : ℕ) (r : Run V) : SinglePc V :=
  if r.values.length < max then .slotState max r else .leave true (leaveEntry z r)

/-- Sampled count: a flag for `pop_single`, at most the batch size otherwise. -/
def sampled (batch : Bool) (flag : ℕ) (r : Run V) : ℕ :=
  if batch then min flag r.values.length else if flag ≠ 0 then 1 else 0

/-- After the head advanced: recycle a finished block, else return. -/
def advanced (z : BlockSize) (batch : Bool) (r : Run V) (wake : ℕ) :
    Next (SinglePc V) (SingleRet V) :=
  if r.last z then .goto (.leave batch (.resetStart r wake)) else .ret (r.result batch wake)

/-- Steps from the last read to the return. -/
def LeavePc.exec (z : BlockSize) (capacity : Option ℕ) (batch : Bool) (flag : ℕ) (q : Queue V) :
    LeavePc V → Outcome V (SinglePc V) (SingleRet V)
  | .loadNext r =>
    match q.next r.block with
    | none => (q, .fault, none)
    | some n => (q, .goto (.leave batch (.storeBlock r n)), none)
  | .storeBlock r next =>
    ({ q with head := { q.head with block := next } }, .goto (.leave batch (.advance r)), none)
  | .advance r =>
    match capacity with
    | none =>
      ({ q with head := { q.head with index := r.head + r.step z } }, advanced z batch r 0,
        some (.taken r.head r.values.length))
    | some _ =>
      ({ q with head := { q.head with index := q.head.index + r.step z } },
        .goto (.leave batch (.sample r)), some (.taken r.head r.values.length))
  | .sample r => (q, advanced z batch r (sampled batch flag r), none)
  | .resetStart r wake =>
    (q.setStart r.block none, .goto (.leave batch (.recycleSpare r wake)), none)
  | .recycleSpare r wake =>
    match q.spare with
    | none => ({ q with spare := some r.block }, .ret (r.result batch wake), none)
    | some _ => (q, .goto (.leave batch (.recyclePool r wake)), none)
  | .recyclePool r wake =>
    ({ q with pool := { q.pool with ready := q.pool.ready ++ [r.block] } },
      .ret (r.result batch wake), none)

/-- One step of an exclusive receive. `fail` makes the growth of the buffer
unwind; an offset past the slots is an out-of-bounds access. -/
def SinglePc.exec (z : BlockSize) (capacity : Option ℕ) (flag : ℕ) (fail : Bool) (q : Queue V) :
    SinglePc V → Outcome V (SinglePc V) (SingleRet V)
  | .loadHead => (q, .goto (.loadBlock q.head.index), none)
  | .loadBlock head =>
    (q, if offset z head < blockCap z then .goto (.loadState head q.head.block) else .fault, none)
  | .loadState head block =>
    (q, if q.state block (offset z head) ≠ writtenTag (lapOf z head) then
      .ret .nothing else .goto (.readValue head block), none)
  | .readValue head block =>
    match q.value block (offset z head) with
    | none => (q, .fault, none)
    | some v => (q, .goto (.leave false (leaveEntry z ⟨head, block, [v]⟩)), none)
  | .batchHead limit =>
    (q, if limit = 0 then .ret (.batch q.head.index [] 0)
      else .goto (.batchBlock limit q.head.index), none)
  | .batchBlock limit head =>
    (q, if offset z head < blockCap z then .goto (.batchState limit head q.head.block)
      else .fault, none)
  | .batchState limit head block =>
    (q, if q.state block (offset z head) ≠ writtenTag (lapOf z head) then
      .ret (.batch head [] 0)
      else .goto (.reserve (min limit (blockCap z - offset z head)) head block), none)
  | .reserve max head block =>
    (q, if fail then .ret .unwound else .goto (batchLoop z max ⟨head, block, []⟩), none)
  | .slotState max r =>
    (q, .goto (if q.state r.block (offset z r.head + r.values.length) ≠
        writtenTag (lapOf z r.head) then .leave true (leaveEntry z r)
      else .slotValue max r), none)
  | .slotValue max r =>
    match q.value r.block (offset z r.head + r.values.length) with
    | none => (q, .fault, none)
    | some v => (q, .goto (batchLoop z max { r with values := r.values ++ [v] }), none)
  | .leave batch pc => pc.exec z capacity batch flag q

end Rapidfire.QueueSingle
