import Rapidfire.QueueMachine

/-!
# Shared state of a channel

The queue with the flags and the two waiter lists of `Inner`. A list with its
counter exists once for each side, and so does every operation on it. A waker
names the future it wakes: the agent that polls it and the number of its
futures so far, so that a late wake never reaches a newer future.
-/

namespace Rapidfire.ChannelState

open QueueMemory

/-- The two ends of a channel. -/
inductive Side where
  | senders
  | receivers
  deriving DecidableEq

/-- The future a waker belongs to. -/
structure Waker (Tid : Type) where
  agent : Tid
  future : ℕ
  deriving DecidableEq

/-- Entry of a waiter list. -/
structure Waiter (Tid : Type) where
  id : ℕ
  waker : Waker Tid
  deriving DecidableEq

/-- `Inner` with its flags. `list` and `count` are a `WaiterList` and its
counter, `handles` the numbers of live handles, by side. `woken` tells whether
the waker of an agent's future was invoked since its last poll began, `future`
how many futures the agent has made. -/
structure Shared (Tid V : Type) where
  queue : Queue V
  closed : Bool
  list : Side → List (Waiter Tid)
  count : Side → ℕ
  handles : Side → ℕ
  nextWaiterId : ℕ
  woken : Tid → Bool
  future : Tid → ℕ

namespace Shared

variable {Tid V : Type}

/-- `Inner::new`, with the first handle of each side. -/
def new (Tid V : Type) : Shared Tid V where
  queue := Queue.new V
  closed := false
  list := fun _ => []
  count := fun _ => 0
  handles := fun _ => 1
  nextWaiterId := 1
  woken := fun _ => false
  future := fun _ => 0

/-- Replace a list and its counter. -/
def setList (c : Shared Tid V) (side : Side) (list : List (Waiter Tid)) (count : ℕ) :
    Shared Tid V :=
  { c with
    list := Function.update c.list side list
    count := Function.update c.count side count }

/-- The list holds an entry with this id. -/
def parked (c : Shared Tid V) (side : Side) (id : ℕ) : Bool :=
  (c.list side).any fun e => e.id = id

/-- `WaiterList::register`: refresh the entry of a registered id, or add one at
the end. A new id is drawn when the future has none. -/
def register (c : Shared Tid V) (side : Side) (id : Option ℕ) (waker : Waker Tid) :
    Shared Tid V × ℕ :=
  match id with
  | some my =>
    if c.parked side my then
      ({ c with
        list := Function.update c.list side
          ((c.list side).modify ((c.list side).findIdx fun e => e.id = my) fun e =>
            { e with waker := waker }) }, my)
    else (c.setList side (c.list side ++ [⟨my, waker⟩]) (c.count side + 1), my)
  | none =>
    ({ c.setList side (c.list side ++ [⟨c.nextWaiterId, waker⟩]) (c.count side + 1) with
      nextWaiterId := c.nextWaiterId + 1 }, c.nextWaiterId)

/-- The removal in `WaiterList::unregister`. -/
def remove (c : Shared Tid V) (side : Side) (id : ℕ) : Shared Tid V :=
  c.setList side ((c.list side).eraseP fun e => e.id = id) (c.count side - 1)

/-- The locked section of `notify_one` and `notify_many`, for at most `limit`
entries: what is left, and the wakers taken out. -/
def notifyMany (c : Shared Tid V) (side : Side) (limit : ℕ) : Shared Tid V × List (Waker Tid) :=
  let n := min limit (c.list side).length
  (c.setList side ((c.list side).drop n) (c.count side - n),
    ((c.list side).take n).map Waiter.waker)

/-- The locked section of `notify_all`. -/
def notifyAll (c : Shared Tid V) (side : Side) : Shared Tid V × List (Waker Tid) :=
  (c.setList side [] 0, (c.list side).map Waiter.waker)

/-- Invoke a waker. -/
def wake [DecidableEq Tid] (c : Shared Tid V) (w : Waker Tid) : Shared Tid V :=
  if c.future w.agent = w.future then { c with woken := Function.update c.woken w.agent true }
  else c

/-- A poll of the agent's future begins. -/
def beginPoll [DecidableEq Tid] (c : Shared Tid V) (t : Tid) : Shared Tid V :=
  { c with woken := Function.update c.woken t false }

/-- The agent makes a new future. -/
def newFuture [DecidableEq Tid] (c : Shared Tid V) (t : Tid) : Shared Tid V :=
  { c with
    woken := Function.update c.woken t false
    future := Function.update c.future t (c.future t + 1) }

/-- Waker of the agent's present future. -/
def waker (c : Shared Tid V) (t : Tid) : Waker Tid := ⟨t, c.future t⟩

/-- Change the number of live handles of a side. -/
def setHandles (c : Shared Tid V) (side : Side) (n : ℕ) : Shared Tid V :=
  { c with handles := Function.update c.handles side n }

end Shared

end Rapidfire.ChannelState
