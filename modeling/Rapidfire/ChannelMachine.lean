import Rapidfire.ChannelState
import Mathlib.Data.Fintype.Basic

/-!
# The channel as a transition system

An agent is a thread that uses handles, or a task with one future at a time. It
is between operations, holds a future between polls, or stands before an atomic
access, a locked section of a waiter list, or the call of a waker. Agents take
steps in any order; inside the queue they follow the program points of the
queue operations.
-/

namespace Rapidfire.ChannelMachine

open Positions QueueMemory QueuePush QueuePop QueueSingle QueueMachine ChannelState Runs

variable {Tid V : Type}

/-- Result of a send, the message given back unless it was sent. -/
inductive SendResult (V : Type) where
  | ok
  | full (v : V)
  | closed (v : V)
  deriving DecidableEq

/-- Result of a receive. -/
inductive RecvResult (V : Type) where
  | ok (v : V)
  | empty
  | closed
  deriving DecidableEq

/-- Results of the operations. A poll returns `pending` or the output of its
future; `recvMany` lists the values appended, or is `none` for `RecvError`, and
`unwound` those appended before the buffer failed to grow, with a value lost. -/
inductive Ret (V : Type) where
  | trySend (r : SendResult V)
  | send (r : SendResult V)
  | tryRecv (r : RecvResult V)
  | recv (r : RecvResult V)
  | recvMany (values : Option (List V))
  | unwound (values : List V) (lost : Option V)
  | pending
  | closed (flipped : Bool)
  | dropped
  | length (n : ℕ)
  deriving DecidableEq

/-- Locals of `recv_many`: its limit and the values it has appended. -/
structure Many (V : Type) where
  limit : ℕ
  values : List V

/-- Where `Inner::try_send` was called: by the handle, or by `Send::poll` before
or after it registered. -/
inductive SendK where
  | call
  | first
  | second (id : ℕ)

/-- Where `try_recv_nonblocking` was called: by the handle, or by `Recv::poll`
before or after it registered, on behalf of `recv` or of a `recv_many` with the given
limit, which has appended nothing yet. -/
inductive RecvK where
  | call
  | first (many : Option ℕ)
  | second (id tail wait : ℕ) (many : Option ℕ)

/-- Who closes the channel: a call of `close`, or the drop of a last handle. -/
inductive Closer where
  | call
  | last (side : Side)
  deriving DecidableEq

/-- What an agent does after it unregistered or notified. -/
inductive Kont (V : Type) where
  | sendFirst (v : V)
  | recvFirst (many : Option ℕ)
  | sent (k : SendK)
  | received (k : RecvK) (v : V)
  | batched (got : ℕ) (many : Many V)
  | sendReady (r : SendResult V)
  | recvReady (v : Option V) (many : Option ℕ)
  | closeSenders (who : Closer)
  | closeDone (who : Closer)
  | dropped (side : Side)

/-- Operation of the queue an agent is in, with what it is for. -/
inductive QueueK (V : Type) where
  | push (k : SendK) (v : V)
  | parkSender (id : ℕ) (v : V)
  | pop (k : RecvK)
  | parkReceiver (id : ℕ) (many : Option ℕ)
  | isEmpty (k : RecvK)
  | claimsBelow (id tail wait : ℕ) (many : Option ℕ)
  | batch (many : Many V)
  | len

/-- Program points of an agent. `sending` and `receiving` are futures between
polls; a future that was polled before has a waiter id. -/
inductive AgentPc (Tid V : Type) where
  | idle
  | fault
  | sending (v : V) (id : Option ℕ)
  | receiving (id : Option ℕ) (many : Option ℕ)
  | trySend (k : SendK) (v : V)
  | queue (k : QueueK V) (pc : Pc V)
  | recvState (k : RecvK)
  | unregister (side : Side) (id : ℕ) (k : Kont V)
  | unregisterLocked (side : Side) (id : ℕ) (forward : Bool) (k : Kont V)
  | registerSender (v : V)
  | registerReceiver (many : Option ℕ)
  | notify (side : Side) (limit : Option ℕ) (k : Kont V)
  | waking (wakers : List (Waker Tid)) (k : Kont V)
  | wakeSelf (id : ℕ) (many : Option ℕ)
  | closeSwap (who : Closer)
  | append (v : V) (limit : ℕ)

/-- What an agent may be asked to do. -/
inductive Op (V : Type) where
  | trySend (v : V)
  | send (v : V)
  | tryRecv
  | recv
  | recvMany (limit : ℕ)
  | close
  | clone (side : Side)
  | dropHandle (side : Side)
  | len
  | poll
  | dropFuture
  deriving DecidableEq

section Local

variable (cfg : Config Tid)

/-- The receive of the channel kind: `pop`, or `pop_single` for the exclusive
receiver. -/
def popOp : QueueMachine.Op V :=
  match cfg.exclusive with
  | none => .pop
  | some _ => .popSingle

/-- Operation of the queue that is called. -/
def QueueK.op : QueueK V → QueueMachine.Op V
  | .push _ v => .push v
  | .parkSender _ _ => .senderParking
  | .pop _ => popOp cfg
  | .parkReceiver _ _ => .receiverParking
  | .isEmpty _ => .isEmptySeqcst
  | .claimsBelow _ tail _ _ => .claimsBelow tail
  | .batch many => .popSingleBatch (many.limit - many.values.length)
  | .len => .len

/-- Call an operation of the queue. -/
def enter (k : QueueK V) : AgentPc Tid V := .queue k ((k.op cfg).entry cfg.capacity)

/-- Where an agent goes on to, with the result of an operation that ended. -/
abbrev Goes (Tid V : Type) := AgentPc Tid V × Option (Ret V)

/-- Next iteration of the loop of `recv_many`, or its end. -/
def manyLoop (many : Many V) : Goes Tid V :=
  if many.values.length < many.limit then (enter cfg (.batch many), none)
  else (.idle, some (.recvMany (some many.values)))

/-- `recv_many` after `try_recv_many_ready` appended `got` values. If nothing is
appended so far, it waits for its first value. -/
def manyGot (got : ℕ) (many : Many V) : Goes Tid V :=
  if got = 0 then
    if many.values = [] then (enter cfg (.pop (.first (some many.limit))), none)
    else (.idle, some (.recvMany (some many.values)))
  else manyLoop cfg many

/-- `Inner::try_send` succeeded. -/
def sendOk : SendK → Goes Tid V
  | .call => (.idle, some (.trySend .ok))
  | .first => (.idle, some (.send .ok))
  | .second id => (.unregisterLocked .senders id true (.sendReady .ok), none)

/-- `Inner::try_send` found the channel closed. -/
def sendClosed (v : V) : SendK → Goes Tid V
  | .call => (.idle, some (.trySend (.closed v)))
  | .first => (.idle, some (.send (.closed v)))
  | .second id => (.unregister .senders id (.sendReady (.closed v)), none)

/-- `Inner::try_send` found the queue full. -/
def sendFull (v : V) : SendK → Goes Tid V
  | .call => (.idle, some (.trySend (.full v)))
  | .first => (.registerSender v, none)
  | .second id => (.sending v (some id), some .pending)

/-- Output of `Recv::poll`, which `recv_many` goes on with. -/
def recvReady (v : Option V) : Option ℕ → Goes Tid V
  | none => (.idle, some (.recv (match v with
      | some v => .ok v
      | none => .closed)))
  | some limit =>
    match v with
    | some v => (.append v limit, none)
    | none => (.idle, some (.recvMany none))

/-- `try_recv_nonblocking` received a value. -/
def recvOk (v : V) : RecvK → Goes Tid V
  | .call => (.idle, some (.tryRecv (.ok v)))
  | .first many => recvReady (some v) many
  | .second id _ _ many => (.unregisterLocked .receivers id true (.recvReady (some v) many), none)

/-- `try_recv_nonblocking` found the channel closed and drained. -/
def recvClosed : RecvK → Goes Tid V
  | .call => (.idle, some (.tryRecv .closed))
  | .first many => recvReady none many
  | .second id _ _ many => (.unregister .receivers id (.recvReady none many), none)

/-- Another round of `Recv::poll`, or the poll gives up and wakes itself. -/
def recvAgain (id tail wait : ℕ) (many : Option ℕ) : Goes Tid V :=
  match snoozeBounded wait with
  | some wait => (enter cfg (.pop (.second id tail wait many)), none)
  | none => (.wakeSelf id many, none)

/-- `try_recv_nonblocking` found a closed channel that is not drained. -/
def recvBusy : RecvK → Goes Tid V
  | .call => (enter cfg (.pop .call), none)
  | .first many => (.registerReceiver many, none)
  | .second id tail wait many => recvAgain cfg id tail wait many

/-- `try_recv_nonblocking` found an open channel without a value. -/
def recvEmpty : RecvK → Goes Tid V
  | .call => (.idle, some (.tryRecv .empty))
  | .first many => (.registerReceiver many, none)
  | .second id tail wait many => (enter cfg (.claimsBelow id tail wait many), none)

/-- Go on after unregistering or notifying. -/
def resume : Kont V → Goes Tid V
  | .sendFirst v => (.trySend .first v, none)
  | .recvFirst many => (enter cfg (.pop (.first many)), none)
  | .sent k => sendOk k
  | .received k v => recvOk v k
  | .batched got many => manyGot cfg got many
  | .sendReady r => (.idle, some (.send r))
  | .recvReady v many => recvReady v many
  | .closeSenders who => (.notify .senders none (.closeDone who), none)
  | .closeDone (.call) => (.idle, some (.closed true))
  | .closeDone (.last _) => (.idle, some .dropped)
  | .dropped _ => (.idle, some .dropped)

/-- Invoke the wakers one by one, then go on. -/
def wakeAll (wakers : List (Waker Tid)) (k : Kont V) : Goes Tid V :=
  match wakers with
  | [] => resume cfg k
  | _ => (.waking wakers k, none)

/-- A receive took a value: notify a sender if the sampled flag says so. -/
def popped (k : RecvK) (v : V) (wake : Bool) : Goes Tid V :=
  if wake then (.notify .senders (some 1) (.received k v), none) else recvOk v k

/-- Go on with the result of a queue operation. -/
def QueueK.finish : QueueK V → QueueMachine.Ret V → Goes Tid V
  | .push k _, .push (.pushed _ wake) =>
    if wake then (.notify .receivers (some 1) (.sent k), none) else sendOk k
  | .push k _, .push (.full v) => sendFull v k
  | .parkSender id v, .read (.parked _) => (.trySend (.second id) v, none)
  | .pop k, .pop (.popped _ v wake) => popped k v wake
  | .pop k, .single (.popped _ v wake) => popped k v wake
  | .pop k, .pop .nothing => (.recvState k, none)
  | .pop k, .single .nothing => (.recvState k, none)
  | .parkReceiver id many, .read (.parked tail) =>
    (enter cfg (.pop (.second id tail 0 many)), none)
  | .isEmpty k, .read (.answer empty) => if empty then recvClosed k else recvBusy cfg k
  | .claimsBelow id tail wait many, .read (.answer below) =>
    if below then recvAgain cfg id tail wait many
    else (.receiving (some id) many, some .pending)
  | .batch many, .single (.batch _ values wake) =>
    let many' := { many with values := many.values ++ values }
    if wake ≠ 0 then (.notify .senders (some wake) (.batched values.length many'), none)
    else manyGot cfg values.length many'
  | .batch many, .single .unwound => (.idle, some (.unwound many.values none))
  | .len, .read (.length n) => (.idle, some (.length n))
  | _, _ => (.fault, none)

/-- Go on after an access of a queue operation. -/
def QueueK.next (k : QueueK V) : Next (Pc V) (QueueMachine.Ret V) → Goes Tid V
  | .goto pc => (.queue k pc, none)
  | .ret r => k.finish cfg r
  | .fault => (.fault, none)

theorem finish_pushed (k : SendK) (v : V) (tail : ℕ) (wake : Bool) :
    (QueueK.push k v).finish cfg (.push (.pushed tail wake)) =
      if wake then (.notify .receivers (some 1) (.sent k), none) else sendOk k := rfl

theorem finish_isEmpty (k : RecvK) (empty : Bool) :
    (QueueK.isEmpty (V := V) k).finish cfg (.read (.answer empty)) =
      if empty then recvClosed k else recvBusy cfg k := rfl

theorem finish_claimsBelow (id tail wait : ℕ) (many : Option ℕ) (below : Bool) :
    (QueueK.claimsBelow (V := V) id tail wait many).finish cfg (.read (.answer below)) =
      if below then recvAgain cfg id tail wait many
      else (.receiving (some id) many, some .pending) := rfl

theorem finish_batch (many : Many V) (head : ℕ) (values : List V) (wake : ℕ) :
    (QueueK.batch many).finish cfg (.single (.batch head values wake)) =
      if wake ≠ 0 then
        (.notify .senders (some wake) (.batched values.length
          { many with values := many.values ++ values }), none)
      else manyGot cfg values.length { many with values := many.values ++ values } := rfl

end Local

/-- The side an agent uses a handle of, while it continues. -/
def Kont.side : Kont V → Option Side
  | .sendFirst _ | .sent _ | .sendReady _ => some .senders
  | .recvFirst _ | .received _ _ | .batched _ _ | .recvReady _ _ => some .receivers
  | .dropped side => some side
  | .closeSenders _ | .closeDone _ => none

/-- The side an agent uses a handle of, inside the queue. -/
def QueueK.side : QueueK V → Option Side
  | .push _ _ | .parkSender _ _ => some .senders
  | .pop _ | .parkReceiver _ _ | .isEmpty _ | .claimsBelow _ _ _ _ | .batch _ => some .receivers
  | .len => none

/-- The side an agent uses a handle of. -/
def AgentPc.side : AgentPc Tid V → Option Side
  | .sending _ _ | .trySend _ _ | .registerSender _ => some .senders
  | .receiving _ _ | .recvState _ | .registerReceiver _ | .wakeSelf _ _ | .append _ _ =>
    some .receivers
  | .queue k _ => k.side
  | .unregister _ _ k | .unregisterLocked _ _ _ k | .notify _ _ k | .waking _ k => k.side
  | .idle | .fault | .closeSwap _ => none

/-- The side an operation needs a handle of. -/
def Op.side : Op V → Option Side
  | .trySend _ | .send _ => some .senders
  | .tryRecv | .recv | .recvMany _ => some .receivers
  | .clone side | .dropHandle side => some side
  | .close | .len | .poll | .dropFuture => none

/-- Program points of all agents over the shared state. -/
structure State (Tid V : Type) where
  shared : Shared Tid V
  pc : Tid → AgentPc Tid V

/-- What a step shows: the accesses and calls on the queue, the operation an
agent was asked for, the result of an operation that ended, and who closed the
channel. -/
structure Label (V : Type) where
  queue : List (QueueMachine.Label V)
  call : Option (Op V)
  ret : Option (Ret V)
  flip : Option Closer

/-- Choices of a scheduled step: ask an agent for an operation, or run on with
the given failure choice. -/
inductive Choice (V : Type) where
  | call (op : Op V)
  | run (fail : Bool)

/-- The call on the queue of an agent that has just entered it. -/
def entered (cfg : Config Tid) : AgentPc Tid V → List (QueueMachine.Label V)
  | .queue k _ => [.call (k.op cfg)]
  | _ => []

/-- The call on the queue that follows an access, if the access ends its
operation. -/
def called (cfg : Config Tid) (pc : AgentPc Tid V) :
    Next (Pc V) (QueueMachine.Ret V) → List (QueueMachine.Label V)
  | .ret _ => entered cfg pc
  | _ => []

/-- Who closes the channel by a step outside the queue. -/
def AgentPc.flip (c : Shared Tid V) : AgentPc Tid V → Option Closer
  | .closeSwap who => if c.closed then none else some who
  | _ => none

/-- The contract of the handles. An operation needs a live handle of its side;
the exclusive receiver receives alone, has `recv_many` and cannot be cloned;
the last handle of a side is dropped when nobody uses it any more. -/
def Op.Allowed (cfg : Config Tid) (s : State Tid V) (t : Tid) (op : Op V) : Prop :=
  (∀ side ∈ op.side, 0 < s.shared.handles side) ∧
    match op with
    | .tryRecv | .recv => ∀ c ∈ cfg.exclusive, t = c
    | .recvMany _ => cfg.exclusive = some t
    | .close | .len => 0 < s.shared.handles .senders ∨ 0 < s.shared.handles .receivers
    | .clone .receivers => cfg.exclusive = none
    | .dropHandle side =>
      s.shared.handles side = 1 → ∀ u, (s.pc u).side ≠ some side
    | _ => True

section Step

variable [DecidableEq Tid] (cfg : Config Tid)

/-- The value the queue operation samples as the waiter counter: a push looks at
the receivers, a receive at the senders. -/
def sampledCount (c : Shared Tid V) : Pc V → ℕ
  | .push _ => c.count .receivers
  | _ => c.count .senders

/-- An idle agent starts an operation, or a future is polled or dropped: the
shared state, where the agent goes and what it returns at once. -/
def startOp (c : Shared Tid V) (t : Tid) : AgentPc Tid V → Op V → Option (Shared Tid V × Goes Tid V)
  | .idle, .trySend v => some (c, .trySend .call v, none)
  | .idle, .send v => some (c.newFuture t, .sending v none, none)
  | .idle, .tryRecv => some (c, enter cfg (.pop .call), none)
  | .idle, .recv => some (c.newFuture t, .receiving none none, none)
  | .idle, .recvMany limit => some (c.newFuture t, .receiving none (some limit), none)
  | .idle, .close => some (c, .closeSwap .call, none)
  | .idle, .clone side => some (c.setHandles side (c.handles side + 1), .idle, none)
  | .idle, .dropHandle side =>
    some (c.setHandles side (c.handles side - 1),
      if c.handles side = 1 then (.closeSwap (.last side), none) else (.idle, some .dropped))
  | .idle, .len => some (c, enter cfg .len, none)
  | .sending v (some id), .poll =>
    some (c.beginPoll t, .unregister .senders id (.sendFirst v), none)
  | .sending v none, .poll => some (c.beginPoll t, .trySend .first v, none)
  | .receiving (some id) many, .poll =>
    some (c.beginPoll t, .unregister .receivers id (.recvFirst many), none)
  | .receiving none none, .poll => some (c.beginPoll t, enter cfg (.pop (.first none)), none)
  | .receiving none (some limit), .poll =>
    some (c.beginPoll t,
      if limit = 0 then (.idle, some (.recvMany (some [])))
      else (enter cfg (.batch ⟨limit, []⟩), none))
  | .sending _ (some id), .dropFuture =>
    some (c, .unregisterLocked .senders id true (.dropped .senders), none)
  | .receiving (some id) _, .dropFuture =>
    some (c, .unregisterLocked .receivers id true (.dropped .receivers), none)
  | .sending _ none, .dropFuture | .receiving none _, .dropFuture =>
    some (c, .idle, some .dropped)
  | _, _ => none

/-- One step of an agent outside the queue. -/
def AgentPc.exec (c : Shared Tid V) (t : Tid) (fail : Bool) :
    AgentPc Tid V → Option (Shared Tid V × Goes Tid V)
  | .trySend k v => some (c, if c.closed then sendClosed v k else (enter cfg (.push k v), none))
  | .recvState k =>
    some (c, if c.closed then (enter cfg (.isEmpty k), none) else recvEmpty cfg k)
  | .unregister side id k =>
    some (c, if c.count side = 0 then resume cfg k
      else (.unregisterLocked side id false k, none))
  | .unregisterLocked side id forward k =>
    if c.parked side id then some (c.remove side id, resume cfg k)
    else some (c, if forward then (.notify side (some 1) k, none) else resume cfg k)
  | .registerSender v =>
    let (c', id) := c.register .senders none (c.waker t)
    some (c', enter cfg (.parkSender id v), none)
  | .registerReceiver many =>
    let (c', id) := c.register .receivers none (c.waker t)
    some (c', enter cfg (.parkReceiver id many), none)
  | .notify side (some limit) k =>
    let (c', wakers) := c.notifyMany side limit
    some (c', wakeAll cfg wakers k)
  | .notify side none k =>
    let (c', wakers) := c.notifyAll side
    some (c', wakeAll cfg wakers k)
  | .waking [] k => some (c, resume cfg k)
  | .waking (w :: wakers) k => some (c.wake w, wakeAll cfg wakers k)
  | .wakeSelf id many => some (c.wake (c.waker t), .receiving (some id) many, some .pending)
  | .closeSwap who =>
    some ({ c with closed := true },
      if c.closed then (.idle, some (match who with
          | .call => .closed false
          | .last _ => .dropped))
      else (.notify .receivers none (.closeSenders who), none))
  | .append v limit =>
    some (c, if fail then (.idle, some (.unwound [] (some v)))
      else manyLoop cfg ⟨limit, [v]⟩)
  | .idle | .fault | .sending _ _ | .receiving _ _ | .queue _ _ => none

/-- One scheduled step of agent `t`. -/
def State.step (s : State Tid V) (t : Tid) : Choice V → Option (Label V × State Tid V)
  | .call op =>
    match startOp cfg s.shared t (s.pc t) op with
    | none => none
    | some (c, pc, ret) =>
      some (⟨entered cfg pc, some op, ret, none⟩, ⟨c, Function.update s.pc t pc⟩)
  | .run fail =>
    match s.pc t with
    | .queue k pc =>
      match pc.exec cfg (sampledCount s.shared pc) fail s.shared.queue with
      | none => none
      | some (q, n, e) =>
        let (pc', ret) := k.next cfg n
        some (⟨.access e (nextRet n) :: called cfg pc' n, none, ret, none⟩,
          ⟨{ s.shared with queue := q }, Function.update s.pc t pc'⟩)
    | pc =>
      match pc.exec cfg s.shared t fail with
      | none => none
      | some (c, pc', ret) =>
        some (⟨entered cfg pc', none, ret, pc.flip s.shared⟩, ⟨c, Function.update s.pc t pc'⟩)

/-- Initial state: a new channel and idle agents. -/
def State.init (Tid V : Type) : State Tid V := ⟨Shared.new Tid V, fun _ => .idle⟩

/-- The step relation: scheduled steps that keep the contract of the handles. -/
def Step (s : State Tid V) (l : Tid × Label V) (s' : State Tid V) : Prop :=
  ∃ c, s.step cfg l.1 c = some (l.2, s') ∧ ∀ op, c = .call op → op.Allowed cfg s l.1

/-- First poll of a receive: `recv_many` tries for a batch before it waits. -/
def firstPoll : Option ℕ → Goes Tid V
  | none => (enter cfg (.pop (.first none)), none)
  | some limit =>
    if limit = 0 then (.idle, some (.recvMany (some [])))
    else (enter cfg (.batch ⟨limit, []⟩), none)

/-- The operations an agent can start, by its program point. -/
inductive Starts (c : Shared Tid V) (t : Tid) :
    AgentPc Tid V → Op V → Shared Tid V → Goes Tid V → Prop where
  | trySend (v : V) : Starts c t .idle (.trySend v) c (.trySend .call v, none)
  | send (v : V) : Starts c t .idle (.send v) (c.newFuture t) (.sending v none, none)
  | tryRecv : Starts c t .idle .tryRecv c (enter cfg (.pop .call), none)
  | recv : Starts c t .idle .recv (c.newFuture t) (.receiving none none, none)
  | recvMany (limit : ℕ) :
      Starts c t .idle (.recvMany limit) (c.newFuture t)
        (.receiving none (some limit), none)
  | close : Starts c t .idle .close c (.closeSwap .call, none)
  | clone (side : Side) :
      Starts c t .idle (.clone side) (c.setHandles side (c.handles side + 1)) (.idle, none)
  | dropLast (side : Side) : c.handles side = 1 →
      Starts c t .idle (.dropHandle side) (c.setHandles side (c.handles side - 1))
        (.closeSwap (.last side), none)
  | dropHandle (side : Side) : c.handles side ≠ 1 →
      Starts c t .idle (.dropHandle side) (c.setHandles side (c.handles side - 1))
        (.idle, some .dropped)
  | len : Starts c t .idle .len c (enter cfg .len, none)
  | pollSend (v : V) :
      Starts c t (.sending v none) .poll (c.beginPoll t) (.trySend .first v, none)
  | repollSend (v : V) (id : ℕ) :
      Starts c t (.sending v (some id)) .poll (c.beginPoll t)
        (.unregister .senders id (.sendFirst v), none)
  | pollRecv (many : Option ℕ) :
      Starts c t (.receiving none many) .poll (c.beginPoll t) (firstPoll cfg many)
  | repollRecv (id : ℕ) (many : Option ℕ) :
      Starts c t (.receiving (some id) many) .poll (c.beginPoll t)
        (.unregister .receivers id (.recvFirst many), none)
  | dropSend (v : V) (id : ℕ) :
      Starts c t (.sending v (some id)) .dropFuture c
        (.unregisterLocked .senders id true (.dropped .senders), none)
  | dropRecv (id : ℕ) (many : Option ℕ) :
      Starts c t (.receiving (some id) many) .dropFuture c
        (.unregisterLocked .receivers id true (.dropped .receivers), none)
  | dropFreshSend (v : V) : Starts c t (.sending v none) .dropFuture c (.idle, some .dropped)
  | dropFreshRecv (many : Option ℕ) :
      Starts c t (.receiving none many) .dropFuture c (.idle, some .dropped)

theorem starts_of_startOp {c c' : Shared Tid V} {t : Tid} {pc : AgentPc Tid V} {op : Op V}
    {n : Goes Tid V} (h : startOp cfg c t pc op = some (c', n)) : Starts cfg c t pc op c' n := by
  unfold startOp at h
  split at h <;> first
    | cases h
      first
        | constructor
        | exact .pollRecv none
        | exact .pollRecv (some _)
    | cases h
  rename_i side
  by_cases hs : c.handles side = 1
  · rw [if_pos hs]
    exact .dropLast side hs
  · rw [if_neg hs]
    exact .dropHandle side hs

/-- What a step can do: an agent is asked for an operation, or performs an
access of the queue, or another step of its own. -/
theorem step_cases {s s' : State Tid V} {t : Tid} {l : Label V} (h : Step cfg s (t, l) s') :
    (∃ op c n, Starts cfg s.shared t (s.pc t) op c n ∧ op.Allowed cfg s t ∧
      l = ⟨entered cfg n.1, some op, n.2, none⟩ ∧ s' = ⟨c, Function.update s.pc t n.1⟩) ∨
    (∃ k pc fail o, s.pc t = .queue k pc ∧
      pc.exec cfg (sampledCount s.shared pc) fail s.shared.queue = some o ∧
      l = ⟨.access o.2.2 (nextRet o.2.1) :: called cfg (k.next cfg o.2.1).1 o.2.1, none,
        (k.next cfg o.2.1).2, none⟩ ∧
      s' = ⟨{ s.shared with queue := o.1 }, Function.update s.pc t (k.next cfg o.2.1).1⟩) ∨
    ∃ fail c n, (s.pc t).exec cfg s.shared t fail = some (c, n) ∧
      l = ⟨entered cfg n.1, none, n.2, (s.pc t).flip s.shared⟩ ∧
      s' = ⟨c, Function.update s.pc t n.1⟩ := by
  obtain ⟨choice, hc, ha⟩ := h
  cases choice with
  | call op =>
    simp only [State.step] at hc
    split at hc
    · cases hc
    · rename_i c pc ret ho
      obtain ⟨rfl, rfl⟩ := Prod.mk.inj (Option.some.inj hc)
      exact .inl ⟨op, c, (pc, ret), starts_of_startOp cfg ho, ha op rfl, rfl, rfl⟩
  | run fail =>
    simp only [State.step] at hc
    split at hc
    · rename_i k pc hpc
      split at hc
      · cases hc
      · rename_i q n e ho
        obtain ⟨rfl, rfl⟩ := Prod.mk.inj (Option.some.inj hc)
        exact .inr (.inl ⟨k, pc, fail, (q, n, e), hpc, ho, rfl, rfl⟩)
    · split at hc
      · cases hc
      · rename_i c pc ret ho
        obtain ⟨rfl, rfl⟩ := Prod.mk.inj (Option.some.inj hc)
        exact .inr (.inr ⟨fail, c, (pc, ret), ho, rfl, rfl⟩)

/-- A step moves one agent. -/
theorem step_others {s s' : State Tid V} {t u : Tid} {l : Label V} (h : Step cfg s (t, l) s')
    (hu : u ≠ t) : s'.pc u = s.pc u := by
  rcases step_cases cfg h with ⟨op, c, n, -, -, -, rfl⟩ | ⟨k, pc, fail, o, -, -, -, rfl⟩ |
    ⟨fail, c, n, -, -, rfl⟩ <;> exact Function.update_of_ne hu _ _

/-- A step outside the queue leaves the handles alone, and only the swap of a
close changes the flag. -/
theorem exec_flags {c c' : Shared Tid V} {t : Tid} {fail : Bool} {pc : AgentPc Tid V}
    {n : Goes Tid V} (h : pc.exec cfg c t fail = some (c', n)) :
    c'.handles = c.handles ∧
      (c'.closed = c.closed ∨ c'.closed = true ∧ ∃ who, pc = .closeSwap who) := by
  have hwake : ∀ w : Waker Tid, (c.wake w).handles = c.handles ∧ (c.wake w).closed = c.closed := by
    intro w
    unfold Shared.wake
    split <;> exact ⟨rfl, rfl⟩
  cases pc with
  | unregisterLocked side id forward k =>
    simp only [AgentPc.exec] at h
    split at h <;> cases h <;> exact ⟨rfl, .inl rfl⟩
  | notify side limit k =>
    cases limit with
    | none | some limit =>
      cases h
      exact ⟨rfl, .inl rfl⟩
  | waking wakers k =>
    cases wakers with
    | nil =>
      cases h
      exact ⟨rfl, .inl rfl⟩
    | cons w wakers =>
      cases h
      exact ⟨(hwake w).1, .inl (hwake w).2⟩
  | wakeSelf id many =>
    cases h
    exact ⟨(hwake _).1, .inl (hwake _).2⟩
  | closeSwap who =>
    cases h
    exact ⟨rfl, .inr ⟨rfl, who, rfl⟩⟩
  | idle | fault | sending v id | receiving id many | queue k pc => cases h
  | _ =>
    cases h
    exact ⟨rfl, .inl rfl⟩

/-- Starting an operation leaves the flag alone. -/
theorem starts_closed {c c' : Shared Tid V} {t : Tid} {pc : AgentPc Tid V} {op : Op V}
    {n : Goes Tid V} (h : Starts cfg c t pc op c' n) : c'.closed = c.closed := by
  cases h <;> rfl

/-- A closed channel stays closed. -/
theorem step_closed {s s' : State Tid V} {t : Tid} {l : Label V} (h : Step cfg s (t, l) s')
    (hc : s.shared.closed = true) : s'.shared.closed = true := by
  rcases step_cases cfg h with ⟨op, c, n, hs, -, -, rfl⟩ | ⟨k, pc, fail, o, -, -, -, rfl⟩ |
    ⟨fail, c, n, hs, -, rfl⟩
  · exact (starts_closed cfg hs).trans hc
  · exact hc
  · rcases (exec_flags cfg hs).2 with he | ⟨he, -⟩
    · exact he.trans hc
    · exact he

/-- A scheduled choice keeps the contract of the handles. -/
def Choice.Allowed (s : State Tid V) (t : Tid) : Choice V → Prop
  | .call op => op.Allowed cfg s t
  | .run _ => True

instance [Fintype Tid] (s : State Tid V) (t : Tid) (c : Choice V) :
    Decidable (c.Allowed cfg s t) := by
  cases c with
  | call op =>
    unfold Choice.Allowed Op.Allowed
    cases op with
    | clone side => cases side <;> infer_instance
    | _ => infer_instance
  | run fail => exact inferInstanceAs (Decidable True)

/-- Runs of the channel from its creation. -/
abbrev Reach : List (Tid × Label V) → State Tid V → Prop :=
  Run (Step cfg) (State.init Tid V)

/-- Run a schedule that keeps the contract, collecting the labels. -/
def State.runs [Fintype Tid] :
    State Tid V → List (Tid × Choice V) → Option (List (Tid × Label V) × State Tid V)
  | s, [] => some ([], s)
  | s, (t, c) :: rest =>
    if c.Allowed cfg s t then
      match s.step cfg t c with
      | none => none
      | some (l, s') =>
        match State.runs s' rest with
        | none => none
        | some (τ, s'') => some ((t, l) :: τ, s'')
    else none

/-- A schedule that executes is a run. -/
theorem State.runs_run [Fintype Tid] {s s' : State Tid V} {sched : List (Tid × Choice V)}
    {τ : List (Tid × Label V)} (h : s.runs cfg sched = some (τ, s')) : Run (Step cfg) s τ s' := by
  induction sched generalizing s τ with
  | nil =>
    obtain ⟨rfl, rfl⟩ := Prod.mk.inj (Option.some.inj h)
    exact .refl
  | cons head rest ih =>
    obtain ⟨t, c⟩ := head
    simp only [State.runs] at h
    split at h
    · rename_i ha
      cases hs : s.step cfg t c with
      | none => simp [hs] at h
      | some r =>
        obtain ⟨l, m⟩ := r
        simp only [hs] at h
        cases hr : m.runs cfg rest with
        | none => simp [hr] at h
        | some r' =>
          obtain ⟨τ', m'⟩ := r'
          simp only [hr, Option.some.injEq, Prod.mk.injEq] at h
          obtain ⟨rfl, rfl⟩ := h
          refine (Run.single (l := (t, l)) ⟨c, hs, fun op hop => ?_⟩).append (ih hr)
          subst hop
          exact ha
    · cases h

end Step

end Rapidfire.ChannelMachine
