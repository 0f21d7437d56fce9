import Rapidfire.QueueLinear
import Rapidfire.ChannelQueue

/-!
# The channel as a mailbox

A mailbox holds messages in order and may be closed. A send puts its message at the
end at one moment, after a moment at which it saw the mailbox open; a receive takes
from the front. This module says what the operation of an agent has done to the
mailbox and what it knows of it, by program point, and that the local code of the
channel keeps to that.
-/

namespace Rapidfire.ChannelMailbox

open QueueMemory QueueMachine ChannelState ChannelMachine ChannelQueue
open QueueLinear (Slot Answer answerOf board)
open Objects (Doing Object Event Spec Hides Moves Explains)

section Mailbox

variable {Tid V : Type}

/-- Operations on a channel. A send knows whether the channel was seen open since
its call, a receive of many what it has taken. -/
inductive Request (V : Type) where
  | trySend (seen : Bool) (v : V)
  | send (seen : Bool) (v : V)
  | tryRecv
  | recv
  | recvMany (limit : ℕ) (got : List V)
  | close
  | dropHandle (side : Side)
  | len
  deriving DecidableEq

/-- Messages in order, each with its sender and whether its send has returned, and
the closed flag. -/
structure Mailbox (Tid V : Type) where
  slots : List (Slot Tid V)
  closed : Bool

/-- A receive that has taken a message and has not returned. -/
def Took : Doing (Request V) (ChannelMachine.Ret V) → Prop
  | .effected (.tryRecv (.ok _)) | .effected (.recv (.ok _)) => True
  | .called (.recvMany _ got) _ => got ≠ []
  | _ => False

/-- No message is ready in front, as far as a receive of this agent can tell: there
is none, its send has not returned, or another receive has taken a message and not
returned. -/
def Stalls (m : Mailbox Tid V) (doing : Tid → Doing (Request V) (ChannelMachine.Ret V))
    (t : Tid) : Prop :=
  m.slots = [] ∨ (∃ e ∈ m.slots.head?, e.ready = false) ∨ ∃ u, u ≠ t ∧ Took (doing u)

/-- Answers of operations that change nothing more. -/
def right (capacity : Option ℕ) (m : Mailbox Tid V)
    (doing : Tid → Doing (Request V) (ChannelMachine.Ret V)) (t : Tid) :
    Request V → ChannelMachine.Ret V → Prop
  | .trySend _ v, .trySend (.full w) => w = v ∧ capacity = some m.slots.length
  | .trySend _ v, .trySend (.closed w) | .send _ v, .send (.closed w) => w = v ∧ m.closed = true
  | .tryRecv, .tryRecv .empty => m.closed = false ∧ Stalls m doing t
  | .tryRecv, .tryRecv .closed | .recv, .recv .closed => m.closed = true ∧ m.slots = []
  | .recvMany _ got, .recvMany none => got = [] ∧ m.closed = true ∧ m.slots = []
  | .recvMany limit got, .recvMany (some vs) =>
    vs = got ∧ (got.length = limit ∨ got ≠ [] ∧ Stalls m doing t)
  | .recvMany _ got, .unwound vs lost => vs ++ lost.toList = got
  | .recvMany _ got, .dropped => got = []
  | .send _ _, .dropped | .recv, .dropped | .dropHandle _, .dropped => True
  | .close, .closed false => m.closed = true
  | .len, .length n => m.slots.length ≤ n ∧ ∀ cap ∈ capacity, n ≤ cap
  | _, _ => False

/-- Effects of operations with their answers. -/
inductive Effects (capacity : Option ℕ) (m : Mailbox Tid V) (t : Tid) :
    Request V → ChannelMachine.Ret V → Mailbox Tid V → Prop where
  | trySend (v : V) : (∀ cap ∈ capacity, m.slots.length < cap) →
      Effects capacity m t (.trySend true v) (.trySend .ok) ⟨m.slots ++ [⟨t, v, false⟩], m.closed⟩
  | send (v : V) : (∀ cap ∈ capacity, m.slots.length < cap) →
      Effects capacity m t (.send true v) (.send .ok) ⟨m.slots ++ [⟨t, v, false⟩], m.closed⟩
  | tryRecv (e : Slot Tid V) (rest : List (Slot Tid V)) : m.slots = e :: rest →
      Effects capacity m t .tryRecv (.tryRecv (.ok e.value)) ⟨rest, m.closed⟩
  | recv (e : Slot Tid V) (rest : List (Slot Tid V)) : m.slots = e :: rest →
      Effects capacity m t .recv (.recv (.ok e.value)) ⟨rest, m.closed⟩
  | close : m.closed = false → Effects capacity m t .close (.closed true) ⟨m.slots, true⟩
  | dropHandle (side : Side) : m.closed = false →
      Effects capacity m t (.dropHandle side) .dropped ⟨m.slots, true⟩

/-- A send sees the mailbox open; a receive of many takes some more messages. -/
inductive Advances (m : Mailbox Tid V) : Request V → Mailbox Tid V → Request V → Prop where
  | trySend (v : V) : m.closed = false → Advances m (.trySend false v) m (.trySend true v)
  | send (v : V) : m.closed = false → Advances m (.send false v) m (.send true v)
  | recvMany (limit : ℕ) (got : List V) (front rest : List (Slot Tid V)) :
      m.slots = front ++ rest → front ≠ [] → got.length + front.length ≤ limit →
      Advances m (.recvMany limit got) ⟨rest, m.closed⟩
        (.recvMany limit (got ++ front.map Slot.value))

variable [DecidableEq Tid]

/-- A send that returns makes its message ready. -/
def settle (m : Mailbox Tid V) (t : Tid) : ChannelMachine.Ret V → Mailbox Tid V
  | .trySend .ok | .send .ok =>
    ⟨m.slots.map fun e => if e.owner = t then { e with ready := true } else e, m.closed⟩
  | _ => m

/-- The mailbox. -/
def mailbox (capacity : Option ℕ) :
    Spec Tid (Mailbox Tid V) (Request V) (ChannelMachine.Ret V) where
  right := right capacity
  effect := Effects capacity
  advance := fun m => Advances m
  settle := settle

end Mailbox

variable {Tid V : Type} {cfg : Config Tid} {closed : Bool} {R : Request V}
  {K K' : List (ChannelMachine.Ret V)} {e : Doing (Request V) (ChannelMachine.Ret V)}

section Places

/-- What a send asks for. -/
def SendK.request (k : SendK) (seen : Bool) (v : V) : Request V :=
  match k with
  | .call => .trySend seen v
  | .first | .second _ => .send seen v

/-- Answer of a send with this result. -/
def SendK.answer (k : SendK) (r : SendResult V) : ChannelMachine.Ret V :=
  match k with
  | .call => .trySend r
  | .first | .second _ => .send r

/-- What a future of a receive asks for that has taken nothing. -/
def future : Option ℕ → Request V
  | none => .recv
  | some limit => .recvMany limit []

/-- What a receive asks for that has taken nothing. -/
def RecvK.request : RecvK → Request V
  | .call => .tryRecv
  | .first many | .second _ _ _ many => future many

/-- Answer of a future that finds the channel closed and drained. -/
def futureDrained : Option ℕ → ChannelMachine.Ret V
  | none => .recv .closed
  | some _ => .recvMany none

/-- Answer of a receive that finds the channel closed and drained. -/
def RecvK.drained : RecvK → ChannelMachine.Ret V
  | .call => .tryRecv .closed
  | .first many | .second _ _ _ many => futureDrained many

/-- What asks for a close. -/
def Closer.request : Closer → Request V
  | .call => .close
  | .last side => .dropHandle side

/-- Answer of the close that flips the flag. -/
def Closer.answer : Closer → ChannelMachine.Ret V
  | .call => .closed true
  | .last _ => .dropped

/-- Answer of a close that finds the flag set. -/
def Closer.late : Closer → ChannelMachine.Ret V
  | .call => .closed false
  | .last _ => .dropped

/-- A receive of many has not reached its limit. -/
def Request.Room : Request V → Prop
  | .recvMany limit got => got.length < limit
  | _ => True

/-- What an agent asks for that is in this operation of the queue. -/
def QueueK.Asks (closed : Bool) : QueueK V → Request V → Prop
  | .push k v, R => R = SendK.request k true v
  | .parkSender _ v, R => ∃ seen, R = .send seen v
  | .pop k, R => R = RecvK.request k ∧ R.Room
  | .isEmpty k, R => R = RecvK.request k ∧ R.Room ∧ closed = true
  | .parkReceiver _ many, R | .claimsBelow _ _ _ many, R => R = future many ∧ R.Room
  | .batch many, R => R = .recvMany many.limit many.values ∧ R.Room
  | .len, R => R = .len

/-- Answers the queue may give without an effect, with what is then known of the
mailbox. -/
def QueueK.Reveals (closed : Bool) (K : List (ChannelMachine.Ret V)) :
    QueueK V → Answer V → Prop
  | .push k v, .full w => w = v ∧ (k = .call → .trySend (.full v) ∈ K)
  | .pop k, .nothing => k = .call → closed = false → .tryRecv .empty ∈ K
  | .isEmpty k, .answer b => b = true → RecvK.drained k ∈ K
  | .batch many, .values vs => vs = [] ∧ (many.values ≠ [] → .recvMany (some many.values) ∈ K)
  | .len, .length n => .length n ∈ K
  | .batch _, .unwound | .parkSender _ _, .parked | .parkReceiver _ _, .parked
  | .claimsBelow _ _ _ _, .answer _ => True
  | _, _ => False

/-- What a receive is doing that has taken a message. -/
def Received (v : V) (e : Doing (Request V) (ChannelMachine.Ret V)) : Request V → Prop
  | .tryRecv => e = .effected (.tryRecv (.ok v))
  | .recv => e = .effected (.recv (.ok v))
  | .recvMany limit got =>
    got = [] ∧ 0 < limit ∧ ∃ K, e = .called (.recvMany limit [v]) K
  | _ => False

/-- What an agent is doing whose operation of the queue has taken effect. -/
def QueueK.Took (e : Doing (Request V) (ChannelMachine.Ret V)) : QueueK V → Answer V → Prop
  | .push k _, .pushed => e = .effected (SendK.answer k .ok)
  | .pop k, .values vs => ∃ v, vs = [v] ∧ Received v e (RecvK.request k)
  | .batch many, .values vs => vs ≠ [] ∧ (many.values ++ vs).length ≤ many.limit ∧
      ∃ K, e = .called (.recvMany many.limit (many.values ++ vs)) K
  | _, _ => False

/-- What an agent is doing that has unregistered or notified. -/
def Kont.Holds (e : Doing (Request V) (ChannelMachine.Ret V)) : Kont V → Prop
  | .sendFirst v => ∃ seen K, e = .called (.send seen v) K
  | .recvFirst many => (future many : Request V).Room ∧ ∃ K, e = .called (future many) K
  | .sent k => e = .effected (SendK.answer k .ok)
  | .received k v => Received v e (RecvK.request k)
  | .batched got many => many.values.length ≤ many.limit ∧ 0 < many.limit ∧
      ∃ K, e = .called (.recvMany many.limit many.values) K ∧
        (got = 0 → many.values ≠ [] → .recvMany (some many.values) ∈ K)
  | .sendReady (.full _) => False
  | .sendReady (.closed v) =>
    ∃ seen K, e = .called (.send seen v) K ∧ .send (.closed v) ∈ K
  | .sendReady .ok => e = .effected (.send .ok)
  | .recvReady (some v) many => Received v e (future many)
  | .recvReady none many => ∃ K, e = .called (future many) K ∧ futureDrained many ∈ K
  | .closeSenders who | .closeDone who => e = .effected (Closer.answer who)
  | .dropped _ => ∃ R K, e = .called R K ∧ ((∃ seen v, R = .send seen v) ∨ ∃ many, R = future many)

/-- What an agent is doing on the mailbox, by its program point. An agent at an
operation of the queue is about to call it. -/
def Holds (closed : Bool) (e : Doing (Request V) (ChannelMachine.Ret V)) : AgentPc Tid V → Prop
  | .idle => e = .idle
  | .fault => True
  | .sending v _ => ∃ seen K, e = .called (.send seen v) K
  | .receiving id many => (id ≠ none → (future many : Request V).Room) ∧
      ∃ K, e = .called (future many) K
  | .trySend k v => ∃ seen K, e = .called (SendK.request k seen v) K
  | .queue k _ => ∃ R K, e = .called R K ∧ QueueK.Asks closed k R
  | .recvState k => (RecvK.request k : Request V).Room ∧ ∃ K, e = .called (RecvK.request k) K ∧
      (k = .call → closed = false → .tryRecv .empty ∈ K)
  | .unregister _ _ k | .unregisterLocked _ _ _ k | .notify _ _ k | .waking _ k => Kont.Holds e k
  | .registerSender v => ∃ seen K, e = .called (.send seen v) K
  | .registerReceiver many | .wakeSelf _ many => (future many : Request V).Room ∧
      ∃ K, e = .called (future many) K
  | .closeSwap who => ∃ K, e = .called (Closer.request who) K
  | .append v limit => 0 < limit ∧ ∃ K, e = .called (.recvMany limit [v]) K

/-- An agent goes on, or its operation ends with an answer that it has to give, that
was right, or that is right now. A future that is pending goes on. -/
def Lands (capacity : Option ℕ) (m : Mailbox Tid V)
    (doing : Tid → Doing (Request V) (ChannelMachine.Ret V)) (t : Tid) (n : Goes Tid V) : Prop :=
  match n.2 with
  | none | some .pending => Holds m.closed (doing t) n.1
  | some r => n.1 = .idle ∧ (doing t = .effected r ∨
      ∃ R K, doing t = .called R K ∧ (r ∈ K ∨ right capacity m doing t R r))

end Places

section Local

variable {capacity : Option ℕ} {m : Mailbox Tid V} {t : Tid}
  {doing : Tid → Doing (Request V) (ChannelMachine.Ret V)}

/-- A request that is called, with answers that were right. -/
theorem lands_known {r : ChannelMachine.Ret V} (h : doing t = .called R K) (hr : r ∈ K)
    (hp : r ≠ .pending) : Lands capacity m doing t ((.idle, some r) : Goes Tid V) := by
  have hend : doing t = .effected r ∨
      ∃ R K, doing t = .called R K ∧ (r ∈ K ∨ right capacity m doing t R r) :=
    .inr ⟨R, K, h, .inl hr⟩
  cases r with
  | pending => exact absurd rfl hp
  | _ => exact ⟨rfl, hend⟩

/-- A request that is called, with an answer that is right. -/
theorem lands_right {r : ChannelMachine.Ret V} (h : doing t = .called R K)
    (hr : right capacity m doing t R r) (hp : r ≠ .pending) :
    Lands capacity m doing t ((.idle, some r) : Goes Tid V) := by
  have hend : doing t = .effected r ∨
      ∃ R K, doing t = .called R K ∧ (r ∈ K ∨ right capacity m doing t R r) :=
    .inr ⟨R, K, h, .inr hr⟩
  cases r with
  | pending => exact absurd rfl hp
  | _ => exact ⟨rfl, hend⟩

/-- A send that took effect returns, or forwards its wake first. -/
theorem lands_sendOk {k : SendK} (h : doing t = .effected (SendK.answer k .ok)) :
    Lands capacity m doing t (sendOk k : Goes Tid V) := by
  cases k with
  | call | first => exact ⟨rfl, .inl h⟩
  | second id => exact h

/-- A send that found the channel closed returns, or unregisters first. -/
theorem lands_sendClosed {k : SendK} {v : V} {seen : Bool}
    (h : doing t = .called (SendK.request k seen v) K) (hr : SendK.answer k (.closed v) ∈ K) :
    Lands capacity m doing t (sendClosed v k : Goes Tid V) := by
  cases k with
  | call | first => exact lands_known h hr (fun hp => by cases hp)
  | second id => exact ⟨seen, K, h, hr⟩

/-- A future that received a message returns it, or puts it in the buffer. -/
theorem lands_recvReady {v : V} {many : Option ℕ} (h : Received v (doing t) (future many)) :
    Lands capacity m doing t (recvReady (some v) many : Goes Tid V) := by
  cases many with
  | none => exact ⟨rfl, .inl h⟩
  | some limit => exact h.2

/-- A future that found the channel closed and drained returns. -/
theorem lands_recvDrained {many : Option ℕ} (h : doing t = .called (future many) K)
    (hr : futureDrained many ∈ K) :
    Lands capacity m doing t (recvReady none many : Goes Tid V) := by
  cases many with
  | none | some limit => exact lands_known h hr (fun hp => by cases hp)

/-- A receive that took a message returns it, or forwards its wake first. -/
theorem lands_recvOk {v : V} {k : RecvK} (h : Received v (doing t) (RecvK.request k)) :
    Lands capacity m doing t (recvOk v k : Goes Tid V) := by
  cases k with
  | call => exact ⟨rfl, .inl h⟩
  | first many => exact lands_recvReady h
  | second id tail wait many => exact h

/-- A receive that found the channel closed and drained returns, or unregisters
first. -/
theorem lands_recvClosed {k : RecvK} (h : doing t = .called (RecvK.request k) K)
    (hr : RecvK.drained k ∈ K) : Lands capacity m doing t (recvClosed k : Goes Tid V) := by
  cases k with
  | call => exact lands_known h hr (fun hp => by cases hp)
  | first many => exact lands_recvDrained h hr
  | second id tail wait many => exact ⟨K, h, hr⟩

/-- A poll that found nothing tries once more or wakes itself. -/
theorem lands_recvAgain {many : Option ℕ} (h : doing t = .called (future many) K)
    (hroom : (future many : Request V).Room) (id tail wait : ℕ) :
    Lands capacity m doing t (recvAgain cfg id tail wait many : Goes Tid V) := by
  unfold recvAgain
  split
  · exact ⟨_, K, h, rfl, hroom⟩
  · exact ⟨hroom, K, h⟩

/-- A receive that found a closed channel with messages goes on. -/
theorem lands_recvBusy {k : RecvK} (h : doing t = .called (RecvK.request k) K)
    (hroom : (RecvK.request k : Request V).Room) :
    Lands capacity m doing t (recvBusy cfg k : Goes Tid V) := by
  cases k with
  | call => exact ⟨_, K, h, rfl, hroom⟩
  | first many => exact ⟨hroom, K, h⟩
  | second id tail wait many => exact lands_recvAgain h hroom id tail wait

/-- A receive that found an open channel without a message goes on or returns. -/
theorem lands_recvEmpty {k : RecvK} (h : doing t = .called (RecvK.request k) K)
    (hroom : (RecvK.request k : Request V).Room) (hr : k = .call → .tryRecv .empty ∈ K) :
    Lands capacity m doing t (recvEmpty cfg k : Goes Tid V) := by
  cases k with
  | call => exact lands_known h (hr rfl) (fun hp => by cases hp)
  | first many => exact ⟨hroom, K, h⟩
  | second id tail wait many => exact ⟨_, K, h, rfl, hroom⟩

/-- A receive of many reads the next batch, or returns when it has reached its
limit. -/
theorem lands_manyLoop {many : Many V}
    (h : doing t = .called (.recvMany many.limit many.values) K)
    (hle : many.values.length ≤ many.limit) :
    Lands capacity m doing t (manyLoop cfg many : Goes Tid V) := by
  unfold manyLoop
  by_cases hlt : many.values.length < many.limit
  · rw [if_pos hlt]
    exact ⟨_, K, h, rfl, hlt⟩
  · rw [if_neg hlt]
    have hend : many.values.length = many.limit := by omega
    exact lands_right h ⟨rfl, .inl hend⟩ (fun hp => by cases hp)

/-- A receive of many goes on after a batch, waits for its first message, or returns
when a batch was empty. -/
theorem lands_manyGot {got : ℕ} {many : Many V} (h : Kont.Holds (doing t) (.batched got many)) :
    Lands capacity m doing t (manyGot cfg got many : Goes Tid V) := by
  obtain ⟨hle, hpos, K, hcalled, hend⟩ := h
  unfold manyGot
  by_cases hgot : got = 0
  · rw [if_pos hgot]
    by_cases hnil : many.values = []
    · rw [if_pos hnil]
      rw [hnil] at hcalled
      exact ⟨_, K, hcalled, rfl, hpos⟩
    · rw [if_neg hnil]
      exact lands_known hcalled (hend hgot hnil) (fun hp => by cases hp)
  · rw [if_neg hgot]
    exact lands_manyLoop hcalled hle

/-- An agent goes on after it unregistered or notified. -/
theorem lands_resume {k : Kont V} (h : Kont.Holds (doing t) k) :
    Lands capacity m doing t (resume cfg k) := by
  cases k with
  | sendFirst v => exact h
  | recvFirst many =>
    obtain ⟨hroom, K, hcalled⟩ := h
    exact ⟨_, K, hcalled, rfl, hroom⟩
  | sent k => exact lands_sendOk h
  | received k v => exact lands_recvOk h
  | batched got many => exact lands_manyGot h
  | sendReady r =>
    cases r with
    | ok => exact ⟨rfl, .inl h⟩
    | full v => exact h.elim
    | closed v =>
      obtain ⟨seen, K, hcalled, hr⟩ := h
      exact lands_known hcalled hr (fun hp => by cases hp)
  | recvReady v many =>
    cases v with
    | none =>
      obtain ⟨K, hcalled, hr⟩ := h
      exact lands_recvDrained hcalled hr
    | some v => exact lands_recvReady h
  | closeSenders who => exact h
  | closeDone who =>
    cases who with
    | call | last side => exact ⟨rfl, .inl h⟩
  | dropped side =>
    obtain ⟨R, K, hcalled, hR⟩ := h
    refine lands_right hcalled ?_ (fun hp => by cases hp)
    rcases hR with ⟨seen, v, rfl⟩ | ⟨many, rfl⟩
    · trivial
    · cases many with
      | none => trivial
      | some limit => exact rfl

/-- An agent goes on after it took wakers from a list. -/
theorem lands_wakeAll {k : Kont V} (h : Kont.Holds (doing t) k) (wakers : List (Waker Tid)) :
    Lands capacity m doing t (wakeAll cfg wakers k) := by
  cases wakers with
  | nil => exact lands_resume h
  | cons w wakers => exact h

/-- A receive that took a message notifies a sender, or goes on. -/
theorem lands_popped {k : RecvK} {v : V} (h : Received v (doing t) (RecvK.request k))
    (wake : Bool) : Lands capacity m doing t (popped k v wake : Goes Tid V) := by
  cases wake with
  | true => exact h
  | false => exact lands_recvOk h

/-- An agent whose operation of the queue took effect goes on with its result. -/
theorem lands_took {k : QueueK V} {r : QueueMachine.Ret V} (hfits : FitsRet k r)
    (h : QueueK.Took (doing t) k (answerOf r)) :
    Lands capacity m doing t (k.finish cfg r : Goes Tid V) := by
  cases hfits with
  | pushed k v tail wake =>
    cases wake with
    | true => exact h
    | false => exact lands_sendOk h
  | popped k head v wake | poppedSingle k head v wake =>
    obtain ⟨w, hw, hreceived⟩ := h
    obtain rfl := List.singleton_inj.mp hw
    exact lands_popped hreceived wake
  | batch many head values wake =>
    obtain ⟨hne, hle, K, hcalled⟩ := h
    have hpos : 0 < values.length := List.length_pos_of_ne_nil hne
    have hlength : (many.values ++ values).length = many.values.length + values.length :=
      List.length_append
    have hlimit : 0 < many.limit := by omega
    have hholds : Kont.Holds (doing t)
        (.batched values.length { many with values := many.values ++ values }) :=
      ⟨hle, hlimit, K, hcalled, fun hgot => by omega⟩
    rw [finish_batch]
    split
    · exact hholds
    · exact lands_manyGot hholds
  | _ => exact h.elim

/-- An agent whose operation of the queue had no effect goes on with its result. -/
theorem lands_revealed {k : QueueK V} {r : QueueMachine.Ret V} (hfits : FitsRet k r)
    (h : doing t = .called R K) (hasks : QueueK.Asks m.closed k R)
    (hreveals : QueueK.Reveals m.closed K k (answerOf r)) :
    Lands capacity m doing t (k.finish cfg r : Goes Tid V) := by
  cases hfits with
  | pushed k v tail wake => exact hreveals.elim
  | full k v w =>
    obtain ⟨rfl, hfull⟩ := hreveals
    obtain rfl : R = SendK.request k true w := hasks
    cases k with
    | call => exact lands_known h (hfull rfl) (fun hp => by cases hp)
    | first | second id => exact ⟨true, K, h⟩
  | senderParked id v head =>
    obtain ⟨seen, rfl⟩ := hasks
    exact ⟨seen, K, h⟩
  | popped k head v wake | poppedSingle k head v wake => exact hreveals.elim
  | nothing k | nothingSingle k =>
    obtain ⟨rfl, hroom⟩ := hasks
    exact ⟨hroom, K, h, hreveals⟩
  | receiverParked id many tail =>
    obtain ⟨rfl, hroom⟩ := hasks
    exact ⟨_, K, h, rfl, hroom⟩
  | isEmpty k empty =>
    obtain ⟨rfl, hroom, -⟩ := hasks
    rw [finish_isEmpty]
    cases empty with
    | true => exact lands_recvClosed h (hreveals rfl)
    | false => exact lands_recvBusy h hroom
  | claimsBelow id tail wait many below =>
    obtain ⟨rfl, hroom⟩ := hasks
    rw [finish_claimsBelow]
    cases below with
    | true => exact lands_recvAgain h hroom id tail wait
    | false => exact ⟨fun _ => hroom, K, h⟩
  | batch many head values wake =>
    obtain ⟨rfl, hroom⟩ := hasks
    obtain ⟨rfl, hend⟩ := hreveals
    have hlt : many.values.length < many.limit := hroom
    have hlimit : 0 < many.limit := by omega
    have hholds : Kont.Holds (doing t)
        (.batched 0 { many with values := many.values ++ [] }) := by
      rw [List.append_nil]
      exact ⟨Nat.le_of_lt hlt, hlimit, K, h, fun _ => hend⟩
    rw [finish_batch]
    split
    · exact hholds
    · exact lands_manyGot hholds
  | unwound many =>
    obtain ⟨rfl, -⟩ := hasks
    exact lands_right h (List.append_nil _) (fun hp => by cases hp)
  | len n => exact lands_known h hreveals (fun hp => by cases hp)

end Local

section Steps

variable [DecidableEq Tid] {t : Tid} {a : Object Tid (Mailbox Tid V) (Request V) (ChannelMachine.Ret V)}
  {c c' : Shared Tid V} {pc : AgentPc Tid V} {n : Goes Tid V} {op : ChannelMachine.Op V} {fail : Bool}

/-- An agent that has moved on the mailbox, which keeps its messages. -/
structure Moved (cfg : Config Tid) (t : Tid)
    (a : Object Tid (Mailbox Tid V) (Request V) (ChannelMachine.Ret V)) (closed : Bool)
    (n : Goes Tid V) (a' : Object Tid (Mailbox Tid V) (Request V) (ChannelMachine.Ret V)) :
    Prop where
  value : a'.value = ⟨a.value.slots, closed⟩
  others : ∀ u, u ≠ t → a'.doing u = a.doing u
  lands : Lands cfg.capacity a'.value a'.doing t n

/-- An agent goes on without a move. -/
theorem moved_stay (hc : a.value.closed = closed) (h : Lands cfg.capacity a.value a.doing t n) :
    ∃ a', Hides (mailbox cfg.capacity) t a a' ∧ Moved cfg t a closed n a' :=
  ⟨a, .stay, by rw [← hc], fun _ _ => rfl, h⟩

/-- An agent that has changed what it is doing goes on. -/
theorem moved_set (x : Mailbox Tid V) (d : Doing (Request V) (ChannelMachine.Ret V))
    (hx : x = ⟨a.value.slots, closed⟩) (h : Lands cfg.capacity x (a.set t x d).doing t n) :
    Moved cfg t a closed n (a.set t x d) :=
  ⟨hx, fun _ hu => Object.set_other a x d hu, h⟩

/-- Before it claims, a send looks at the flag. -/
theorem trySend_lands {k : SendK} {v : V} (hc : a.value.closed = c.closed)
    (hm : Holds c.closed (a.doing t) (.trySend k v : AgentPc Tid V)) :
    ∃ a', Hides (mailbox cfg.capacity) t a a' ∧ Moved cfg t a c.closed
      (if c.closed then sendClosed v k else (enter cfg (.push k v), none)) a' := by
  obtain ⟨seen, K, hcalled⟩ := hm
  cases hopen : c.closed with
  | true =>
    have hright : (mailbox cfg.capacity).right a.value a.doing t (SendK.request k seen v)
        (SendK.answer k (.closed v)) := by
      cases k with
      | call | first | second id => exact ⟨rfl, hc.trans hopen⟩
    refine ⟨_, Objects.hides_look hcalled hright, moved_set _ _ ?_ ?_⟩
    · rw [← hopen, ← hc]
    · exact lands_sendClosed (Object.set_self ..) (List.mem_cons_self ..)
  | false =>
    cases seen with
    | true =>
      exact moved_stay (hc.trans hopen) ⟨_, K, hcalled, rfl⟩
    | false =>
      have hadvance : (mailbox cfg.capacity).advance a.value (SendK.request k false v) a.value
          (SendK.request k true v) := by
        cases k with
        | call => exact .trySend v (hc.trans hopen)
        | first | second id => exact .send v (hc.trans hopen)
      refine ⟨_, Objects.hides_advance hcalled hadvance, moved_set _ _ ?_ ?_⟩
      · rw [← hopen, ← hc]
      · exact ⟨_, [], Object.set_self .., rfl⟩

/-- The swap of a close flips the flag, or finds it set. -/
theorem closeSwap_lands {who : Closer} (hc : a.value.closed = c.closed)
    (hm : Holds c.closed (a.doing t) (.closeSwap who : AgentPc Tid V)) :
    ∃ a', Hides (mailbox cfg.capacity) t a a' ∧ Moved cfg t a true
      (if c.closed then (.idle, some (Closer.late who))
      else (.notify .receivers none (.closeSenders who), none)) a' := by
  obtain ⟨K, hcalled⟩ := hm
  cases hopen : c.closed with
  | true =>
    refine moved_stay (hc.trans hopen) ?_
    cases who with
    | call => exact lands_right hcalled (hc.trans hopen) (fun hp => by cases hp)
    | last side => exact lands_right hcalled trivial (fun hp => by cases hp)
  | false =>
    have heffect : (mailbox cfg.capacity).effect a.value t (Closer.request who)
        (Closer.answer who) ⟨a.value.slots, true⟩ := by
      cases who with
      | call => exact .close (hc.trans hopen)
      | last side => exact .dropHandle side (hc.trans hopen)
    refine ⟨_, Objects.hides_effect hcalled heffect, moved_set _ _ rfl ?_⟩
    exact Object.set_self ..

omit [DecidableEq Tid] in
/-- A wake leaves the flag alone. -/
theorem wake_closed [DecidableEq Tid] (c : Shared Tid V) (w : Waker Tid) :
    (c.wake w).closed = c.closed := by
  unfold Shared.wake
  split <;> rfl

/-- A step outside the queue is at most one move on the mailbox that no client
sees. -/
theorem exec_lands (h : pc.exec cfg c t fail = some (c', n)) (hc : a.value.closed = c.closed)
    (hm : Holds c.closed (a.doing t) pc) :
    ∃ a', Hides (mailbox cfg.capacity) t a a' ∧ Moved cfg t a c'.closed n a' := by
  cases pc with
  | trySend k v =>
    cases h
    exact trySend_lands hc hm
  | recvState k =>
    cases h
    obtain ⟨hroom, K, hcalled, hempty⟩ := hm
    refine moved_stay hc ?_
    cases hopen : c.closed with
    | true => exact ⟨_, K, hcalled, rfl, hroom, hc.trans hopen⟩
    | false => exact lands_recvEmpty hcalled hroom fun hk => hempty hk hopen
  | unregister side id k =>
    cases h
    refine moved_stay hc ?_
    split
    · exact lands_resume hm
    · exact hm
  | unregisterLocked side id forward k =>
    simp only [AgentPc.exec] at h
    split at h <;> cases h
    · exact moved_stay hc (lands_resume hm)
    · refine moved_stay hc ?_
      split
      · exact hm
      · exact lands_resume hm
  | registerSender v =>
    cases h
    obtain ⟨seen, K, hcalled⟩ := hm
    exact moved_stay hc ⟨_, K, hcalled, seen, rfl⟩
  | registerReceiver many =>
    cases h
    obtain ⟨hroom, K, hcalled⟩ := hm
    exact moved_stay hc ⟨_, K, hcalled, rfl, hroom⟩
  | notify side limit k =>
    cases limit with
    | none | some limit =>
      cases h
      exact moved_stay hc (lands_wakeAll hm _)
  | waking wakers k =>
    cases wakers with
    | nil =>
      cases h
      exact moved_stay hc (lands_resume hm)
    | cons w wakers =>
      cases h
      exact moved_stay (hc.trans (wake_closed c w).symm) (lands_wakeAll hm wakers)
  | wakeSelf id many =>
    cases h
    obtain ⟨hroom, K, hcalled⟩ := hm
    exact moved_stay (hc.trans (wake_closed c _).symm) ⟨fun _ => hroom, K, hcalled⟩
  | closeSwap who =>
    cases h
    cases who with
    | call | last side => exact closeSwap_lands hc hm
  | append v limit =>
    cases h
    obtain ⟨hpos, K, hcalled⟩ := hm
    refine moved_stay hc ?_
    let many : Many V := ⟨limit, [v]⟩
    have hmany : a.doing t = .called (.recvMany many.limit many.values) K := hcalled
    have hle : many.values.length ≤ many.limit := hpos
    cases fail with
    | true =>
      have hright : right cfg.capacity a.value a.doing t (.recvMany limit [v])
          (.unwound [] (some v)) := List.nil_append [v]
      exact lands_right hcalled hright (fun hp => by cases hp)
    | false => exact lands_manyLoop hmany hle
  | idle | fault | sending v id | receiving id many | queue k pc => cases h

/-- Operations as calls on the mailbox. A poll belongs to the call that made the
future, and its drop too. -/
def calls : ChannelMachine.Op V → List (Request V)
  | .trySend v => [.trySend false v]
  | .send v => [.send false v]
  | .tryRecv => [.tryRecv]
  | .recv => [.recv]
  | .recvMany limit => [.recvMany limit []]
  | .close => [.close]
  | .dropHandle side => [.dropHandle side]
  | .len => [.len]
  | .clone _ | .poll | .dropFuture => []

/-- An agent calls an operation. -/
theorem moved_call (hidle : a.doing t = .idle) (hc : a.value.closed = closed)
    (hcalls : calls op = [R])
    (h : Lands cfg.capacity a.value (a.set t a.value (.called R [])).doing t n) :
    ∃ a', Explains (mailbox cfg.capacity) a ((calls op).map fun R => (t, .call R)) a' ∧
      Moved cfg t a closed n a' := by
  refine ⟨a.set t a.value (.called R []), ?_, moved_set _ _ (by rw [← hc]) h⟩
  rw [hcalls]
  exact (Objects.moves_call hidle).explains

/-- An agent that polls or drops its future, or clones a handle, calls nothing. -/
theorem moved_poll (hc : a.value.closed = closed) (hcalls : calls op = [])
    (h : Lands cfg.capacity a.value a.doing t n) :
    ∃ a', Explains (mailbox cfg.capacity) a ((calls op).map fun R => (t, .call R)) a' ∧
      Moved cfg t a closed n a' := by
  refine ⟨a, ?_, by rw [← hc], fun _ _ => rfl, h⟩
  rw [hcalls]
  exact Objects.explains_nil a

/-- An operation that starts is called on the mailbox. -/
theorem starts_lands (h : Starts cfg c t pc op c' n) (hc : a.value.closed = c.closed)
    (hm : Holds c.closed (a.doing t) pc) :
    ∃ a', Explains (mailbox cfg.capacity) a ((calls op).map fun R => (t, .call R)) a' ∧
      Moved cfg t a c'.closed n a' := by
  rw [← starts_closed cfg h] at hc
  cases h with
  | trySend v => exact moved_call hm hc rfl ⟨false, [], Object.set_self ..⟩
  | send v => exact moved_call hm hc rfl ⟨false, [], Object.set_self ..⟩
  | tryRecv => exact moved_call hm hc rfl ⟨_, [], Object.set_self .., rfl, trivial⟩
  | recv => exact moved_call hm hc rfl ⟨fun hid => absurd rfl hid, [], Object.set_self ..⟩
  | recvMany limit => exact moved_call hm hc rfl ⟨fun hid => absurd rfl hid, [], Object.set_self ..⟩
  | close => exact moved_call hm hc rfl ⟨[], Object.set_self ..⟩
  | clone side => exact moved_poll hc rfl hm
  | dropLast side hlast => exact moved_call hm hc rfl ⟨[], Object.set_self ..⟩
  | dropHandle side hlast =>
    exact moved_call hm hc rfl (lands_right (Object.set_self ..) trivial fun hp => by cases hp)
  | len => exact moved_call hm hc rfl ⟨_, [], Object.set_self .., rfl⟩
  | pollSend v =>
    obtain ⟨seen, K, hcalled⟩ := hm
    exact moved_poll hc rfl ⟨seen, K, hcalled⟩
  | repollSend v id => exact moved_poll hc rfl hm
  | pollRecv many =>
    obtain ⟨-, K, hcalled⟩ := hm
    refine moved_poll hc rfl ?_
    cases many with
    | none => exact ⟨_, K, hcalled, rfl, trivial⟩
    | some limit =>
      rw [firstPoll]
      by_cases hz : limit = 0
      · rw [if_pos hz]
        exact lands_right hcalled ⟨rfl, .inl hz.symm⟩ fun hp => by cases hp
      · rw [if_neg hz]
        exact ⟨_, K, hcalled, rfl, Nat.pos_of_ne_zero hz⟩
  | repollRecv id many =>
    obtain ⟨hroom, K, hcalled⟩ := hm
    have hid : some id ≠ none := Option.some_ne_none id
    exact moved_poll hc rfl ⟨hroom hid, K, hcalled⟩
  | dropSend v id =>
    obtain ⟨seen, K, hcalled⟩ := hm
    exact moved_poll hc rfl ⟨_, K, hcalled, .inl ⟨seen, v, rfl⟩⟩
  | dropRecv id many =>
    obtain ⟨-, K, hcalled⟩ := hm
    exact moved_poll hc rfl ⟨_, K, hcalled, .inr ⟨many, rfl⟩⟩
  | dropFreshSend v =>
    obtain ⟨seen, K, hcalled⟩ := hm
    exact moved_poll hc rfl (lands_right hcalled trivial fun hp => by cases hp)
  | dropFreshRecv many =>
    obtain ⟨-, K, hcalled⟩ := hm
    refine moved_poll hc rfl (lands_right hcalled ?_ fun hp => by cases hp)
    cases many with
    | none => trivial
    | some limit => exact rfl

end Steps

end Rapidfire.ChannelMailbox
