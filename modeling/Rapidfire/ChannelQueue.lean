import Rapidfire.ChannelMachine
import Rapidfire.QueueHistory

/-!
# The queue inside the channel

A channel step is a step of the queue, a return and a call of its operations,
or nothing to it. Runs of the channel are therefore runs of the queue, and all
that holds of the queue holds inside the channel.
-/

namespace Rapidfire.ChannelQueue

open Positions QueueMemory QueueMachine ChannelState ChannelMachine Runs

variable {Tid V : Type} {cfg : Config Tid} {s s' : ChannelMachine.State Tid V} {t u : Tid}
  {l : ChannelMachine.Label V} {τ : List (Tid × ChannelMachine.Label V)}

/-- Program point of an agent inside the queue. -/
def queuePc : AgentPc Tid V → Pc V
  | .queue _ pc => pc
  | .fault => .fault
  | _ => .idle

/-- The queue and the program points inside it. -/
def queueState (s : ChannelMachine.State Tid V) : QueueMachine.State Tid V :=
  ⟨s.shared.queue, fun t => queuePc (s.pc t)⟩

/-- What a run of the channel does on the queue. -/
def queueLog (τ : List (Tid × ChannelMachine.Label V)) : List (Tid × QueueMachine.Label V) :=
  τ.flatMap fun l => l.2.queue.map fun q => (l.1, q)

/-- The agent is in `recv_many`. -/
def RecvK.batching : RecvK → Bool
  | .call => false
  | .first many | .second _ _ _ many => many.isSome

/-- The agent is in `recv_many`, while it continues. -/
def Kont.batching : Kont V → Bool
  | .recvFirst many | .recvReady _ many => many.isSome
  | .received k _ => RecvK.batching k
  | .batched _ _ => true
  | _ => false

/-- The agent is in `recv_many`, inside the queue. -/
def QueueK.batching : QueueK V → Bool
  | .pop k | .isEmpty k => RecvK.batching k
  | .parkReceiver _ many | .claimsBelow _ _ _ many => many.isSome
  | .batch _ => true
  | _ => false

/-- The agent is in `recv_many`. -/
def batching : AgentPc Tid V → Bool
  | .receiving _ many | .registerReceiver many | .wakeSelf _ many => many.isSome
  | .queue k _ => QueueK.batching k
  | .recvState k => RecvK.batching k
  | .unregister _ _ k | .unregisterLocked _ _ _ k | .notify _ _ k | .waking _ k => Kont.batching k
  | .append _ _ => true
  | _ => false

/-- The operation is `recv_many`. -/
def Op.batching : ChannelMachine.Op V → Bool
  | .recvMany _ => true
  | _ => false

/-- The side an operation sends or receives on. -/
def Op.role : ChannelMachine.Op V → Option Side
  | .trySend _ | .send _ => some .senders
  | .tryRecv | .recv | .recvMany _ => some .receivers
  | _ => none

/-- Only the exclusive receiver receives, and only it is in `recv_many`. -/
def RoleOk (cfg : Config Tid) (t : Tid) (side : Option Side) (batching : Bool) : Prop :=
  (side = some .receivers → ∀ c ∈ cfg.exclusive, t = c) ∧
    (batching = true → cfg.exclusive = some t)

/-- Inside the queue, local code leads to the entry of an operation; and it
never leads to the swap of `close`. -/
def Placed (cfg : Config Tid) : AgentPc Tid V → Prop
  | .queue k pc => pc = (k.op cfg).entry cfg.capacity
  | .fault | .closeSwap _ => False
  | _ => True

/-- A program point that local code on behalf of a side leads to: it keeps to
that side or needs none, and inside the queue it is the entry of an operation. -/
structure Arrives (cfg : Config Tid) (side : Option Side) (many : Bool) (pc : AgentPc Tid V) :
    Prop where
  role : pc.side = none ∧ batching pc = false ∨ pc.side = side ∧ (batching pc = true → many = true)
  placed : Placed cfg pc

section Arrivals

variable {side : Option Side} {many : Bool}

theorem arrives_idle : Arrives (V := V) cfg side many .idle := ⟨.inl ⟨rfl, rfl⟩, trivial⟩

theorem arrives_enter {k : QueueK V} (hs : k.side = side)
    (hm : QueueK.batching k = true → many = true) : Arrives cfg side many (enter cfg k) :=
  ⟨.inr ⟨hs, hm⟩, rfl⟩

theorem arrives_manyLoop (m : Many V) :
    Arrives cfg (some .receivers) true (manyLoop cfg m).1 := by
  unfold manyLoop
  split
  · exact arrives_enter rfl fun h => h
  · exact arrives_idle

theorem arrives_manyGot (got : ℕ) (m : Many V) :
    Arrives cfg (some .receivers) true (manyGot cfg got m).1 := by
  unfold manyGot
  split
  · split
    · exact arrives_enter rfl fun h => h
    · exact arrives_idle
  · exact arrives_manyLoop m

theorem arrives_sendOk (k : SendK) : Arrives (V := V) cfg (some .senders) many (sendOk k).1 := by
  cases k with
  | second id => exact ⟨.inr ⟨rfl, nofun⟩, trivial⟩
  | _ => exact arrives_idle

theorem arrives_sendClosed (v : V) (k : SendK) :
    Arrives cfg (some .senders) many (sendClosed v k).1 := by
  cases k with
  | second id => exact ⟨.inr ⟨rfl, nofun⟩, trivial⟩
  | _ => exact arrives_idle

theorem arrives_sendFull (v : V) (k : SendK) :
    Arrives cfg (some .senders) many (sendFull v k).1 := by
  cases k with
  | call => exact arrives_idle
  | _ => exact ⟨.inr ⟨rfl, nofun⟩, trivial⟩

theorem arrives_recvReady (v : Option V) (m : Option ℕ) :
    Arrives cfg (some .receivers) m.isSome (recvReady v m).1 := by
  cases m with
  | none => exact arrives_idle
  | some limit =>
    cases v with
    | some v => exact ⟨.inr ⟨rfl, id⟩, trivial⟩
    | none => exact arrives_idle

theorem arrives_recvOk (v : V) (k : RecvK) :
    Arrives cfg (some .receivers) (RecvK.batching k) (recvOk v k).1 := by
  cases k with
  | call => exact arrives_idle
  | first m => exact arrives_recvReady (some v) m
  | second id tail wait m => exact ⟨.inr ⟨rfl, fun h => h⟩, trivial⟩

theorem arrives_recvClosed (k : RecvK) :
    Arrives (V := V) cfg (some .receivers) (RecvK.batching k) (recvClosed k).1 := by
  cases k with
  | call => exact arrives_idle
  | first m => exact arrives_recvReady none m
  | second id tail wait m => exact ⟨.inr ⟨rfl, fun h => h⟩, trivial⟩

theorem arrives_recvAgain (id tail wait : ℕ) (m : Option ℕ) :
    Arrives (V := V) cfg (some .receivers) m.isSome (recvAgain cfg id tail wait m).1 := by
  unfold recvAgain
  split
  · exact arrives_enter rfl fun h => h
  · exact ⟨.inr ⟨rfl, fun h => h⟩, trivial⟩

theorem arrives_recvBusy (k : RecvK) :
    Arrives (V := V) cfg (some .receivers) (RecvK.batching k) (recvBusy cfg k).1 := by
  cases k with
  | call => exact arrives_enter rfl fun h => h
  | first m => exact ⟨.inr ⟨rfl, id⟩, trivial⟩
  | second id tail wait m => exact arrives_recvAgain id tail wait m

theorem arrives_recvEmpty (k : RecvK) :
    Arrives (V := V) cfg (some .receivers) (RecvK.batching k) (recvEmpty cfg k).1 := by
  cases k with
  | call => exact arrives_idle
  | first m => exact ⟨.inr ⟨rfl, id⟩, trivial⟩
  | second id tail wait m => exact arrives_enter rfl fun h => h

theorem arrives_resume (k : Kont V) :
    Arrives cfg k.side (Kont.batching k) (resume cfg k).1 := by
  cases k with
  | sendFirst v => exact ⟨.inr ⟨rfl, nofun⟩, trivial⟩
  | recvFirst m => exact arrives_enter rfl fun h => h
  | sent k => exact arrives_sendOk k
  | received k v => exact arrives_recvOk v k
  | batched got m => exact arrives_manyGot got m
  | sendReady r => exact arrives_idle
  | recvReady v m => exact arrives_recvReady v m
  | closeSenders who => exact ⟨.inl ⟨rfl, rfl⟩, trivial⟩
  | closeDone who => cases who <;> exact arrives_idle
  | dropped side => exact arrives_idle

theorem arrives_wakeAll (wakers : List (Waker Tid)) (k : Kont V) :
    Arrives cfg k.side (Kont.batching k) (wakeAll cfg wakers k).1 := by
  cases wakers with
  | nil => exact arrives_resume k
  | cons w wakers => exact ⟨.inr ⟨rfl, id⟩, trivial⟩

theorem arrives_popped (k : RecvK) (v : V) (wake : Bool) :
    Arrives cfg (some .receivers) (RecvK.batching k) (popped k v wake).1 := by
  cases wake with
  | true => exact ⟨.inr ⟨rfl, id⟩, trivial⟩
  | false => exact arrives_recvOk v k

end Arrivals

/-- The program point of an exclusive receive belongs to a batch. -/
def inBatch : QueueSingle.SinglePc V → Bool
  | .batchHead _ | .batchBlock _ _ | .batchState _ _ _ | .reserve _ _ _ | .slotState _ _
  | .slotValue _ _ => true
  | .leave batch _ => batch
  | _ => false

/-- The program point inside the queue belongs to the operation. -/
inductive Fits : QueueK V → Pc V → Prop where
  | push (k : SendK) (v : V) (pc : QueuePush.PushPc V) : Fits (.push k v) (.push pc)
  | parkSender (id : ℕ) (v : V) : Fits (.parkSender id v) (.read .senderParking)
  | pop (k : RecvK) (pc : QueuePop.PopPc V) : Fits (.pop k) (.pop pc)
  | single (k : RecvK) (pc : QueueSingle.SinglePc V) :
      inBatch pc = false → Fits (.pop k) (.single pc)
  | parkReceiver (id : ℕ) (many : Option ℕ) :
      Fits (.parkReceiver id many) (.read .receiverParking)
  | emptyHead (k : RecvK) : Fits (.isEmpty k) (.read .emptyHead)
  | emptyTail (k : RecvK) (head : ℕ) : Fits (.isEmpty k) (.read (.emptyTail head))
  | claimsBelow (id tail wait : ℕ) (many : Option ℕ) :
      Fits (.claimsBelow id tail wait many) (.read (.claimsBelow tail))
  | batch (many : Many V) (pc : QueueSingle.SinglePc V) :
      inBatch pc = true → Fits (.batch many) (.single pc)
  | lenHead : Fits .len (.read .lenHead)
  | lenTail (head : ℕ) : Fits .len (.read (.lenTail head))

/-- The result comes from the operation. -/
inductive FitsRet : QueueK V → QueueMachine.Ret V → Prop where
  | pushed (k : SendK) (v : V) (tail : ℕ) (wake : Bool) :
      FitsRet (.push k v) (.push (.pushed tail wake))
  | full (k : SendK) (v w : V) : FitsRet (.push k v) (.push (.full w))
  | senderParked (id : ℕ) (v : V) (head : ℕ) : FitsRet (.parkSender id v) (.read (.parked head))
  | popped (k : RecvK) (head : ℕ) (v : V) (wake : Bool) :
      FitsRet (.pop k) (.pop (.popped head v wake))
  | nothing (k : RecvK) : FitsRet (.pop k) (.pop .nothing)
  | poppedSingle (k : RecvK) (head : ℕ) (v : V) (wake : Bool) :
      FitsRet (.pop k) (.single (.popped head v wake))
  | nothingSingle (k : RecvK) : FitsRet (.pop k) (.single .nothing)
  | receiverParked (id : ℕ) (many : Option ℕ) (tail : ℕ) :
      FitsRet (.parkReceiver id many) (.read (.parked tail))
  | isEmpty (k : RecvK) (empty : Bool) : FitsRet (.isEmpty k) (.read (.answer empty))
  | claimsBelow (id tail wait : ℕ) (many : Option ℕ) (below : Bool) :
      FitsRet (.claimsBelow id tail wait many) (.read (.answer below))
  | batch (many : Many V) (head : ℕ) (values : List V) (wake : ℕ) :
      FitsRet (.batch many) (.single (.batch head values wake))
  | unwound (many : Many V) : FitsRet (.batch many) (.single .unwound)
  | len (n : ℕ) : FitsRet .len (.read (.length n))

section Fitting

theorem fits_entry (cfg : Config Tid) (k : QueueK V) :
    Fits k ((k.op cfg).entry cfg.capacity) := by
  cases k with
  | push k v => exact .push k v _
  | parkSender id v => exact .parkSender id v
  | pop k =>
    change Fits (.pop k) ((popOp cfg).entry cfg.capacity)
    unfold popOp
    split
    · exact .pop k _
    · exact .single k _ rfl
  | parkReceiver id many => exact .parkReceiver id many
  | isEmpty k => exact .emptyHead k
  | claimsBelow id tail wait many => exact .claimsBelow id tail wait many
  | batch many => exact .batch many _ rfl
  | len => exact .lenHead

/-- What `recycle_single` and the head updates before it return. -/
theorem leave_fits (pc : QueueSingle.LeavePc V) (z : BlockSize) (capacity : Option ℕ)
    (batch : Bool) (flag : ℕ) (q : Queue V) :
    (∀ pc', (pc.exec z capacity batch flag q).2.1 = .goto pc' → inBatch pc' = batch) ∧
      ∀ r, (pc.exec z capacity batch flag q).2.1 = .ret r →
        ∃ run wake, r = QueueSingle.Run.result batch run wake := by
  cases pc with
  | advance r | sample r =>
    simp only [QueueSingle.LeavePc.exec, QueueSingle.advanced]
    constructor <;> intro x hx <;> (repeat' split at hx) <;> cases hx <;> first
      | rfl
      | exact ⟨_, _, rfl⟩
  | loadNext r | storeBlock r next | resetStart r wake | recycleSpare r wake
  | recyclePool r wake =>
    simp only [QueueSingle.LeavePc.exec]
    constructor <;> intro x hx <;> (repeat' split at hx) <;> cases hx <;> first
      | rfl
      | exact ⟨_, _, rfl⟩

/-- `pop_single` stays `pop_single`, and a batch stays a batch. -/
theorem single_fits (pc : QueueSingle.SinglePc V) (z : BlockSize) (capacity : Option ℕ)
    (flag : ℕ) (fail : Bool) (q : Queue V) :
    (∀ pc', (pc.exec z capacity flag fail q).2.1 = .goto pc' → inBatch pc' = inBatch pc) ∧
      ∀ r, (pc.exec z capacity flag fail q).2.1 = .ret r →
        if inBatch pc then (∃ head values wake, r = .batch head values wake) ∨ r = .unwound
        else (∃ head v wake, r = .popped head v wake) ∨ r = .nothing := by
  cases pc with
  | leave batch pc =>
    obtain ⟨hgoto, hret⟩ := leave_fits pc z capacity batch flag q
    refine ⟨hgoto, fun r hr => ?_⟩
    obtain ⟨run, wake, rfl⟩ := hret r hr
    cases batch with
    | true => exact .inl ⟨_, _, _, rfl⟩
    | false =>
      rw [QueueSingle.Run.result]
      cases run.values with
      | nil => exact .inr rfl
      | cons v values => exact .inl ⟨_, _, _, rfl⟩
  | loadBlock head | loadState head block | readValue head block | batchHead limit
  | batchBlock limit head | batchState limit head block | reserve max head block
  | slotState max r | slotValue max r =>
    simp only [QueueSingle.SinglePc.exec, QueueSingle.batchLoop]
    constructor <;> intro x hx <;> (repeat' split at hx) <;> cases hx <;> first
      | rfl
      | exact .inl ⟨_, _, _, rfl⟩
      | exact .inr rfl
  | loadHead =>
    constructor <;> intro x hx <;> cases hx
    rfl

/-- What an access of one kind of operation leads to, seen among all kinds. -/
theorem map_fits {P R : Type} {f : P → Pc V} {g : R → QueueMachine.Ret V} {n : Next P R}
    {k : QueueK V} (hgoto : ∀ p, n = .goto p → Fits k (f p))
    (hret : ∀ r, n = .ret r → FitsRet k (g r)) :
    (∀ pc', Next.map f g n = .goto pc' → Fits k pc') ∧
      ∀ r, Next.map f g n = .ret r → FitsRet k r := by
  cases n with
  | goto p =>
    refine ⟨fun pc' h => ?_, nofun⟩
    obtain rfl := Next.goto.inj h
    exact hgoto p rfl
  | ret r =>
    refine ⟨nofun, fun r' h => ?_⟩
    obtain rfl := Next.ret.inj h
    exact hret r rfl
  | fault => exact ⟨nofun, nofun⟩

/-- An access stays inside its operation or ends it with a result of its kind. -/
theorem exec_fits {k : QueueK V} {pc : Pc V} (h : Fits k pc) {flag : ℕ} {fail : Bool}
    {q : Queue V} {o : Outcome V (Pc V) (QueueMachine.Ret V)}
    (ho : pc.exec cfg flag fail q = some o) :
    (∀ pc', o.2.1 = .goto pc' → Fits k pc') ∧ ∀ r, o.2.1 = .ret r → FitsRet k r := by
  cases h with
  | push k v pc =>
    obtain rfl := Option.some.inj ho
    refine map_fits (fun p _ => .push k v p) fun r _ => ?_
    cases r with
    | pushed tail wake => exact .pushed k v tail wake
    | full w => exact .full k v w
  | pop k pc =>
    obtain rfl := Option.some.inj ho
    refine map_fits (fun p _ => .pop k p) fun r _ => ?_
    cases r with
    | popped head v wake => exact .popped k head v wake
    | nothing => exact .nothing k
  | single k pc hb =>
    obtain rfl := Option.some.inj ho
    obtain ⟨hgoto, hret⟩ := single_fits pc cfg.size cfg.capacity flag fail q
    refine map_fits (fun p hp => .single k p ((hgoto p hp).trans hb)) fun r hr => ?_
    have hr := hret r hr
    rw [if_neg (by simp [hb])] at hr
    rcases hr with ⟨head, v, wake, rfl⟩ | rfl
    · exact .poppedSingle k head v wake
    · exact .nothingSingle k
  | batch many pc hb =>
    obtain rfl := Option.some.inj ho
    obtain ⟨hgoto, hret⟩ := single_fits pc cfg.size cfg.capacity flag fail q
    refine map_fits (fun p hp => .batch many p ((hgoto p hp).trans hb)) fun r hr => ?_
    have hr := hret r hr
    rw [if_pos hb] at hr
    rcases hr with ⟨head, values, wake, rfl⟩ | rfl
    · exact .batch many head values wake
    · exact .unwound many
  | parkSender id v =>
    obtain rfl := Option.some.inj ho
    exact ⟨nofun, fun r hr => Next.ret.inj hr ▸ .senderParked id v _⟩
  | parkReceiver id many =>
    obtain rfl := Option.some.inj ho
    exact ⟨nofun, fun r hr => Next.ret.inj hr ▸ .receiverParked id many _⟩
  | emptyHead k =>
    obtain rfl := Option.some.inj ho
    exact ⟨fun pc' hr => Next.goto.inj hr ▸ .emptyTail k _, nofun⟩
  | emptyTail k head =>
    obtain rfl := Option.some.inj ho
    exact ⟨nofun, fun r hr => Next.ret.inj hr ▸ .isEmpty k _⟩
  | claimsBelow id tail wait many =>
    obtain rfl := Option.some.inj ho
    exact ⟨nofun, fun r hr => Next.ret.inj hr ▸ .claimsBelow id tail wait many _⟩
  | lenHead =>
    obtain rfl := Option.some.inj ho
    exact ⟨fun pc' hr => Next.goto.inj hr ▸ .lenTail _, nofun⟩
  | lenTail head =>
    obtain rfl := Option.some.inj ho
    exact ⟨nofun, fun r hr => Next.ret.inj hr ▸ .len _⟩

/-- The result of a queue operation leads on. -/
theorem arrives_finish {k : QueueK V} {r : QueueMachine.Ret V} (h : FitsRet k r) :
    Arrives cfg k.side (QueueK.batching k) (k.finish cfg r).1 := by
  cases h with
  | pushed k v tail wake =>
    cases wake with
    | true => exact ⟨.inr ⟨rfl, nofun⟩, trivial⟩
    | false => exact arrives_sendOk k
  | full k v w => exact arrives_sendFull w k
  | senderParked id v head => exact ⟨.inr ⟨rfl, nofun⟩, trivial⟩
  | popped k head v wake | poppedSingle k head v wake => exact arrives_popped k v wake
  | nothing k | nothingSingle k => exact ⟨.inr ⟨rfl, id⟩, trivial⟩
  | receiverParked id many tail => exact arrives_enter rfl fun h => h
  | isEmpty k empty =>
    cases empty with
    | true => exact arrives_recvClosed k
    | false => exact arrives_recvBusy k
  | claimsBelow id tail wait many below =>
    cases below with
    | true => exact arrives_recvAgain id tail wait many
    | false => exact ⟨.inr ⟨rfl, fun h => h⟩, trivial⟩
  | batch many head values wake =>
    rw [finish_batch]
    split
    · exact ⟨.inr ⟨rfl, id⟩, trivial⟩
    · exact arrives_manyGot _ _
  | unwound many | len n => exact arrives_idle

end Fitting

section Agents

/-- Inside the queue an agent is in the operation it called. -/
def Inside : AgentPc Tid V → Prop
  | .queue k pc => Fits k pc
  | .fault => False
  | _ => True

/-- What every agent keeps: its role, and its place in the queue. -/
structure AgentOk (cfg : Config Tid) (t : Tid) (pc : AgentPc Tid V) : Prop where
  role : RoleOk cfg t pc.side (batching pc)
  inside : Inside pc

/-- An allowed operation is in the role of the agent. -/
theorem role_of_allowed [DecidableEq Tid] {op : ChannelMachine.Op V} (h : op.Allowed cfg s t) :
    RoleOk cfg t (Op.role op) (Op.batching op) := by
  obtain ⟨-, h⟩ := h
  cases op with
  | tryRecv | recv => exact ⟨fun _ => h, nofun⟩
  | recvMany limit =>
    have hc : cfg.exclusive = some t := h
    exact ⟨fun _ c hx => Option.some.inj (hc.symm.trans hx), fun _ => hc⟩
  | _ => exact ⟨nofun, nofun⟩

/-- An idle agent has any role. -/
theorem init_agentOk (cfg : Config Tid) (t : Tid) : AgentOk (V := V) cfg t .idle :=
  ⟨⟨nofun, nofun⟩, trivial⟩

/-- Local code keeps the role of an agent. -/
theorem RoleOk.arrives {side : Option Side} {many : Bool} {pc : AgentPc Tid V}
    (h : RoleOk cfg t side many) (ha : Arrives cfg side many pc) :
    RoleOk cfg t pc.side (batching pc) := by
  rcases ha.role with ⟨hs, hb⟩ | ⟨hs, hb⟩
  · rw [hs, hb]
    exact ⟨nofun, nofun⟩
  · rw [hs]
    exact ⟨h.1, fun hm => h.2 (hb hm)⟩

theorem Arrives.agentOk {side : Option Side} {many : Bool} {pc : AgentPc Tid V}
    (h : Arrives cfg side many pc) (hr : RoleOk cfg t side many) : AgentOk cfg t pc := by
  refine ⟨hr.arrives h, ?_⟩
  have hp := h.placed
  cases pc with
  | queue k pc =>
    obtain rfl : pc = _ := hp
    exact fits_entry cfg k
  | fault => exact hp.elim
  | _ => trivial

variable [DecidableEq Tid] {c c' : Shared Tid V} {n : Goes Tid V}

/-- An agent starts an operation on the side it needs, goes on with its future
on the side it is on, or closes the channel. -/
theorem start_arrives {pc : AgentPc Tid V} {op : ChannelMachine.Op V}
    (h : Starts cfg c t pc op c' n) :
    (Arrives cfg (Op.role op) (Op.batching op) n.1 ∨ Arrives cfg pc.side (batching pc) n.1 ∨
      ∃ who, n.1 = .closeSwap who) ∧ c'.queue = c.queue ∧ queuePc pc = .idle := by
  refine ⟨?_, by cases h <;> rfl, by cases h <;> rfl⟩
  cases h with
  | trySend v | send v => exact .inl ⟨.inr ⟨rfl, nofun⟩, trivial⟩
  | pollSend v | repollSend v id | dropSend v id =>
    exact .inr (.inl ⟨.inr ⟨rfl, nofun⟩, trivial⟩)
  | tryRecv => exact .inl (arrives_enter rfl fun h => h)
  | recv | recvMany limit => exact .inl ⟨.inr ⟨rfl, id⟩, trivial⟩
  | close | dropLast side h => exact .inr (.inr ⟨_, rfl⟩)
  | clone side | dropHandle side h | dropFreshSend v | dropFreshRecv many =>
    exact .inl arrives_idle
  | len => exact .inl (arrives_enter rfl fun h => h)
  | pollRecv many =>
    cases many with
    | none => exact .inr (.inl (arrives_enter rfl fun h => h))
    | some limit =>
      simp only [firstPoll]
      split
      · exact .inl arrives_idle
      · exact .inr (.inl (arrives_enter rfl fun h => h))
  | repollRecv id many => exact .inr (.inl ⟨.inr ⟨rfl, fun h => h⟩, trivial⟩)
  | dropRecv id many => exact .inr (.inl ⟨.inr ⟨rfl, nofun⟩, trivial⟩)

/-- A step outside the queue leaves the queue alone and keeps to its side. -/
theorem exec_arrives {pc : AgentPc Tid V} {fail : Bool}
    (h : pc.exec cfg c t fail = some (c', n)) :
    Arrives cfg pc.side (batching pc) n.1 ∧ c'.queue = c.queue ∧ queuePc pc = .idle := by
  cases pc with
  | trySend k v =>
    cases h
    refine ⟨?_, rfl, rfl⟩
    split
    · exact arrives_sendClosed v k
    · exact arrives_enter rfl fun h => h
  | recvState k =>
    cases h
    refine ⟨?_, rfl, rfl⟩
    split
    · exact arrives_enter rfl fun h => h
    · exact arrives_recvEmpty k
  | unregister side id k =>
    cases h
    refine ⟨?_, rfl, rfl⟩
    split
    · exact arrives_resume k
    · exact ⟨.inr ⟨rfl, fun h => h⟩, trivial⟩
  | unregisterLocked side id forward k =>
    simp only [AgentPc.exec] at h
    split at h
    · cases h
      exact ⟨arrives_resume k, rfl, rfl⟩
    · cases h
      refine ⟨?_, rfl, rfl⟩
      split
      · exact ⟨.inr ⟨rfl, fun h => h⟩, trivial⟩
      · exact arrives_resume k
  | registerSender v | registerReceiver many =>
    cases h
    exact ⟨arrives_enter rfl fun h => h, rfl, rfl⟩
  | notify side limit k =>
    cases limit with
    | none | some limit =>
      cases h
      exact ⟨arrives_wakeAll _ k, rfl, rfl⟩
  | waking wakers k =>
    cases wakers with
    | nil =>
      cases h
      exact ⟨arrives_resume k, rfl, rfl⟩
    | cons w wakers =>
      cases h
      refine ⟨arrives_wakeAll wakers k, ?_, rfl⟩
      unfold Shared.wake
      split <;> rfl
  | wakeSelf id many =>
    cases h
    refine ⟨⟨.inr ⟨rfl, fun h => h⟩, trivial⟩, ?_, rfl⟩
    unfold Shared.wake
    split <;> rfl
  | closeSwap who =>
    cases h
    refine ⟨?_, rfl, rfl⟩
    split
    · exact arrives_idle
    · exact ⟨.inl ⟨rfl, rfl⟩, trivial⟩
  | append v limit =>
    cases h
    refine ⟨?_, rfl, rfl⟩
    split
    · exact arrives_idle
    · exact arrives_manyLoop _
  | idle | fault | sending v id | receiving id many | queue k pc => cases h

omit [DecidableEq Tid] in
/-- A step inside the queue leads on in the operation or past it. -/
theorem next_agentOk {k : QueueK V} {pc : Pc V} (hok : AgentOk (V := V) cfg t (.queue k pc))
    {flag : ℕ} {fail : Bool} {q : Queue V} {o : Outcome V (Pc V) (QueueMachine.Ret V)}
    (ho : pc.exec cfg flag fail q = some o) (hs : o.2.1 ≠ .fault) :
    AgentOk cfg t (k.next cfg o.2.1).1 ∧
      ∀ r, o.2.1 = .ret r → Arrives cfg k.side (QueueK.batching k) (k.next cfg o.2.1).1 := by
  obtain ⟨hgoto, hret⟩ := exec_fits hok.inside ho
  cases hn : o.2.1 with
  | goto pc' => exact ⟨⟨hok.role, hgoto pc' hn⟩, nofun⟩
  | ret r =>
    have harr : Arrives cfg _ _ (k.finish cfg r).1 := arrives_finish (hret r hn)
    exact ⟨harr.agentOk hok.role, fun _ _ => harr⟩
  | fault => exact absurd hn hs

end Agents

section Simulation

variable [DecidableEq Tid]

omit [DecidableEq Tid] in
/-- The operations of the queue an agent calls are allowed to it. -/
theorem allowed_of_role {k : QueueK V} (h : RoleOk cfg t k.side (QueueK.batching k)) :
    (k.op cfg).Allowed cfg t := by
  cases k with
  | pop k =>
    change (popOp cfg).Allowed cfg t
    have hc := h.1 rfl
    unfold popOp
    split
    · assumption
    · rename_i c hx
      change cfg.exclusive = some t
      rw [hx, hc c hx]
  | batch many => exact h.2 rfl
  | _ => trivial

/-- The queue after an agent's program point was set. -/
theorem queueState_update (c : Shared Tid V) (pcs : Tid → AgentPc Tid V) (pc : AgentPc Tid V) :
    queueState ⟨c, Function.update pcs t pc⟩ =
      ⟨c.queue, Function.update (fun u => queuePc (pcs u)) t (queuePc pc)⟩ := by
  simp only [queueState, QueueMachine.State.mk.injEq, true_and]
  funext u
  by_cases hu : u = t
  · subst hu
    simp
  · simp [hu]

/-- An agent outside the queue calls an operation, or stays outside. -/
theorem arrive_run {q : Queue V} {p : Tid → Pc V} {pc : AgentPc Tid V} {side : Option Side}
    {many : Bool} (h : Arrives cfg side many pc) (hr : RoleOk cfg t side many) :
    Run (QueueMachine.Step cfg) ⟨q, Function.update p t .idle⟩
      ((entered cfg pc).map fun l => (t, l)) ⟨q, Function.update p t (queuePc pc)⟩ := by
  have hp := h.placed
  cases pc with
  | queue k pc =>
    obtain rfl : pc = _ := hp
    have hk : RoleOk cfg t k.side (QueueK.batching k) := hr.arrives h
    refine .single ⟨.call (k.op cfg), ?_⟩
    simp [QueueMachine.State.step, QueueMachine.State.setPc, allowed_of_role hk, queuePc]
  | fault => exact hp.elim
  | _ => exact .refl

/-- A step outside the queue calls at most one operation of the queue. -/
theorem outside_run {c : Shared Tid V} {n : Goes Tid V} {side : Option Side} {many : Bool}
    (h : Arrives cfg side many n.1) (hr : RoleOk cfg t side many)
    (hq : c.queue = s.shared.queue ∧ queuePc (s.pc t) = .idle) :
    Run (QueueMachine.Step cfg) (queueState s) ((entered cfg n.1).map fun l => (t, l))
      (queueState ⟨c, Function.update s.pc t n.1⟩) := by
  obtain ⟨hq, hidle⟩ := hq
  have hrun := arrive_run (q := s.shared.queue) (p := fun u => queuePc (s.pc u)) h hr
  rw [← hidle, Function.update_eq_self (a := t)] at hrun
  rw [queueState_update, hq]
  exact hrun

/-- An operation that is allowed starts in a role of the agent. -/
theorem start_sim {c : Shared Tid V} {n : Goes Tid V} {op : ChannelMachine.Op V}
    (h : Starts cfg s.shared t (s.pc t) op c n) (ha : op.Allowed cfg s t)
    (hok : AgentOk cfg t (s.pc t)) :
    Run (QueueMachine.Step cfg) (queueState s) ((entered cfg n.1).map fun l => (t, l))
      (queueState ⟨c, Function.update s.pc t n.1⟩) ∧ AgentOk cfg t n.1 := by
  obtain ⟨harr, hq⟩ := start_arrives h
  rcases harr with harr | harr | ⟨who, hn⟩
  · exact ⟨outside_run harr (role_of_allowed ha) hq, harr.agentOk (role_of_allowed ha)⟩
  · exact ⟨outside_run harr hok.role hq, harr.agentOk hok.role⟩
  · rw [hn, queueState_update, hq.1]
    refine ⟨?_, ⟨⟨nofun, nofun⟩, trivial⟩⟩
    rw [show queuePc (.closeSwap who) = queuePc (s.pc t) from hq.2.symm, Function.update_eq_self]
    exact .refl

/-- A step of the channel is a run of the queue, and every agent keeps its role. -/
theorem step_sim {g : QueueCoherence.Ghost Tid V} (hg : QueueLocal.Inv cfg (queueState s) g)
    (hok : ∀ u, AgentOk cfg u (s.pc u)) (h : ChannelMachine.Step cfg s (t, l) s') :
    Run (QueueMachine.Step cfg) (queueState s) (l.queue.map fun q => (t, q)) (queueState s') ∧
      ∀ u, AgentOk cfg u (s'.pc u) := by
  have hothers : ∀ {c : Shared Tid V} {pc : AgentPc Tid V}, AgentOk cfg t pc →
      ∀ u, AgentOk cfg u ((⟨c, Function.update s.pc t pc⟩ : ChannelMachine.State Tid V).pc u) := by
    intro c pc hpc u
    by_cases hu : u = t
    · subst hu
      simpa using hpc
    · simpa [hu] using hok u
  rcases ChannelMachine.step_cases cfg h with ⟨op, c, n, hs, ha, rfl, rfl⟩ |
    ⟨k, pc, fail, o, hpc, ho, rfl, rfl⟩ | ⟨fail, c, n, hs, rfl, rfl⟩
  · obtain ⟨hrun, hnext⟩ := start_sim hs ha (hok t)
    exact ⟨hrun, hothers hnext⟩
  · have hqpc : (queueState s).pc t = pc := by simp [queueState, hpc, queuePc]
    obtain ⟨g', hg'⟩ := QueueInvariant.exec_steps hg (t := t) (hqpc ▸ ho)
    have hokt := hok t
    rw [hpc] at hokt
    obtain ⟨hnext, hret⟩ := next_agentOk hokt ho hg'.sound
    refine ⟨?_, hothers hnext⟩
    have hstep : QueueMachine.Step cfg (queueState s) (t, .access o.2.2 (nextRet o.2.1))
        ⟨o.1, Function.update (queueState s).pc t (nextPc o.2.1)⟩ := by
      refine ⟨.run (sampledCount s.shared pc) fail, ?_⟩
      simp only [QueueMachine.State.step, hqpc]
      rw [show (queueState s).queue = s.shared.queue from rfl, ho]
    rw [queueState_update]
    have hlast : Run (QueueMachine.Step cfg)
        ⟨o.1, Function.update (fun u => queuePc (s.pc u)) t (nextPc o.2.1)⟩
        ((called cfg (k.next cfg o.2.1).1 o.2.1).map fun l => (t, l))
        ⟨o.1, Function.update (fun u => queuePc (s.pc u)) t
          (queuePc (k.next cfg o.2.1).1)⟩ := by
      cases hn : o.2.1 with
      | goto pc' => exact .refl
      | ret r =>
        rw [hn] at hret
        exact arrive_run (hret r rfl) hokt.role
      | fault => exact absurd hn hg'.sound
    exact (Run.single hstep).append hlast
  · obtain ⟨harr, hq⟩ := exec_arrives hs
    exact ⟨outside_run harr (hok t).role hq, hothers (harr.agentOk (hok t).role)⟩

/-- An access of a queue operation, seen in the queue alone. -/
theorem queue_access {g : QueueCoherence.Ghost Tid V}
    (hg : QueueLocal.Inv cfg (queueState s) g) {k : QueueK V} {pc : Pc V}
    (hpc : s.pc t = .queue k pc) {fail : Bool} {o : Outcome V (Pc V) (QueueMachine.Ret V)}
    (ho : pc.exec cfg (sampledCount s.shared pc) fail s.shared.queue = some o) :
    ∃ g', QueueSteps.Steps cfg (queueState s) g t o g' ∧
      QueueHistory.Accounts cfg.size pc o.2.2 (nextRet o.2.1) (nextPc o.2.1) := by
  have hqpc : (queueState s).pc t = pc := by simp [queueState, hpc, queuePc]
  obtain ⟨g', hg'⟩ := QueueInvariant.exec_steps hg (t := t) (hqpc ▸ ho)
  exact ⟨g', hg', hqpc ▸ QueueHistory.exec_accounts hg (t := t) (hqpc ▸ ho) hg'.sound⟩

/-- Runs of the channel are runs of the queue, and every agent has its role. -/
theorem reach_queue (h : ChannelMachine.Reach cfg τ s) :
    QueueMachine.Reach cfg (queueLog τ) (queueState s) ∧ ∀ u, AgentOk cfg u (s.pc u) := by
  refine h.invariant (P := fun τ s => QueueMachine.Reach cfg (queueLog τ) (queueState s) ∧
    ∀ u, AgentOk cfg u (s.pc u)) ⟨.refl, fun u => init_agentOk cfg u⟩ ?_
  rintro τ s ⟨t, l⟩ s' - ⟨hq, hok⟩ hs
  obtain ⟨g, hg⟩ := QueueInvariant.reach_inv hq
  obtain ⟨hrun, hok'⟩ := step_sim hg hok hs
  refine ⟨?_, hok'⟩
  rw [queueLog, List.flatMap_append, List.flatMap_singleton]
  exact hq.append hrun

/-- The queue of a channel has a history. -/
theorem reach_history (h : ChannelMachine.Reach cfg τ s) :
    ∃ g, QueueHistory.History cfg (queueLog τ) (queueState s) g :=
  QueueHistory.reach_history (reach_queue h).1

end Simulation

end Rapidfire.ChannelQueue
