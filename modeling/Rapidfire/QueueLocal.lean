import Rapidfire.QueueCoherence

/-!
# What a thread knows at each program point

Every program point has an assertion about the shared memory that holds
whatever the other threads do. The assertions speak of the auxiliary record
rather than of raw memory wherever memory may change behind the thread's back.
-/

namespace Rapidfire.QueueLocal

open Positions QueueMemory QueuePush QueuePop QueueSingle QueueMachine QueueCoherence

variable {Tid V : Type}

/-- Position claimed by a push and not published. -/
def pushWrites (z : BlockSize) : PushPc V → Option ℕ
  | .fetchAddContend _ tail => if IsValue z tail then some tail else none
  | .casLevel _ tail _ | .casContend _ tail _ | .sample _ tail => some tail
  | .findBlock c | .findStart c _ | .slowBlock c | .slowStart c _ | .slowPrev c _
  | .takeSpare c _ | .takePool c _ | .resetMark c _ _ _ | .resetStart c _ _ | .allocate c _
  | .storePrev c _ _ | .storeNext c _ _ | .storeStart c _ _ | .linkNext c _ _
  | .storeTail c _ _ | .writeValue c _ | .publish c _ => some c.tail
  | _ => none

/-- Progress of the installation of the next block. -/
def pushStage : PushPc V → Stage
  | .linkNext _ _ _ => .linking
  | .storeTail _ _ _ | .writeValue _ _ | .publish _ _ => .after
  | _ => .before

/-- Block an installer took and has not yet published. -/
def pushHolds : PushPc V → Option BlockId
  | .resetMark _ _ next _ | .resetStart _ _ next | .storePrev _ _ next
  | .storeNext _ _ next | .storeStart _ _ next => some next
  | _ => none

/-- Position taken by a pop whose reader has not finished. -/
def popReads : PopPc V → Option ℕ
  | .sample head _ => some head
  | .readValue k | .markRead k _ | .loadNext k _ | .storeBlock k _ _ | .swapIndex k _ =>
    some k.head
  | _ => none

/-- Block the head has left, held by the consumer that finishes it. -/
def popHolds : PopPc V → Option BlockId
  | .swapIndex k _ | .readersDone k _ _ | .retire k _ | .resetMark k _ _ | .resetStart k _
  | .recycleSpare k _ | .recyclePool k _ => some k.block
  | _ => none

/-- Block the exclusive consumer has left and not yet recycled. -/
def singleHolds (z : BlockSize) : SinglePc V → Option BlockId
  | .leave _ (.advance r) | .leave _ (.sample r) => if r.last z then some r.block else none
  | .leave _ (.resetStart r _) | .leave _ (.recycleSpare r _) | .leave _ (.recyclePool r _) =>
    some r.block
  | _ => none

/-- The exclusive consumer is between its two head updates. -/
def singleCrossing (z : BlockSize) : SinglePc V → Bool
  | .leave _ (.advance r) => r.last z
  | _ => false

/-- Position a thread has claimed and not published. -/
def writes (z : BlockSize) : Pc V → Option ℕ
  | .push pc => pushWrites z pc
  | _ => none

/-- Installation progress of a thread. -/
def stage : Pc V → Stage
  | .push pc => pushStage pc
  | _ => .before

/-- Position a thread has taken and not finished with. -/
def reads : Pc V → Option ℕ
  | .pop pc => popReads pc
  | _ => none

/-- Block in the hands of a thread. -/
def holds (z : BlockSize) : Pc V → Option BlockId
  | .push pc => pushHolds pc
  | .pop pc => popHolds pc
  | .single pc => singleHolds z pc
  | _ => none

/-- The thread is the exclusive consumer between its two head updates. -/
def crossing (z : BlockSize) : Pc V → Bool
  | .single pc => singleCrossing z pc
  | _ => false

/-- Views of all threads. -/
def views (z : BlockSize) (pc : Tid → Pc V) : Views Tid where
  writes t := writes z (pc t)
  stage t := stage (pc t)
  reads t := reads (pc t)
  holds t := holds z (pc t)
  crossing t := crossing z (pc t)

section Assertions

variable (cfg : Config Tid) (q : Queue V) (g : Ghost Tid V)

/-- The block serves the lap of the position. -/
def Serves (pos : ℕ) (block : BlockId) : Prop :=
  lapOf cfg.size pos < g.laps ∧ g.chain (lapOf cfg.size pos) = block

/-- Every value position of the block's former lap is finished. -/
def Drained (block : BlockId) : Prop :=
  ∃ L, q.start block = some (L * lap cfg.size) ∧
    ∀ p, IsValue cfg.size p → lapOf cfg.size p = L → g.finished p

/-- A block ready to be installed: pooled and unmarked. -/
def Blank (block : BlockId) : Prop :=
  q.start block = none ∧ ∀ i < blockCap cfg.size, q.mark block i = false

/-- A claimed position and its value. -/
def Owns (c : Claim V) : Prop := g.val c.tail = some c.value

/-- The producer of a last slot has found its block. -/
def Installs (c : Claim V) (block : BlockId) : Prop :=
  Owns g c ∧ Serves cfg g c.tail block ∧ IsLast cfg.size c.tail

/-- The producer of a last slot has published the next block. -/
def Installed (c : Claim V) (block next : BlockId) : Prop :=
  Installs cfg g c block ∧ lapOf cfg.size c.tail + 1 < g.laps ∧
    g.chain (lapOf cfg.size c.tail + 1) = next

/-- The block of a claimed position is found and its successor installed. -/
def Writable (c : Claim V) (block : BlockId) : Prop :=
  Owns g c ∧ Serves cfg g c.tail block ∧
    (IsLast cfg.size c.tail → lapOf cfg.size c.tail + 1 < g.laps)

/-- A bounded producer decides about a value position it loaded as the tail. -/
def Deciding (cap tail : ℕ) : Prop :=
  cfg.capacity = some cap ∧ IsValue cfg.size tail ∧ tail ≤ q.tail.index

/-- Room seen by a bounded producer: it can only have grown. -/
def Room (cap tail : ℕ) : Prop :=
  Deciding cfg q cap tail ∧ itemsBetween cfg.size q.head.index tail < cap

/-- Assertions of a push. -/
def PushLocal : PushPc V → Prop
  | .loadContended _ | .fetchAddLoad _ | .fetchAdd _ _ | .casLoad _ | .casTry _ _ _ =>
    cfg.capacity = none
  | .fetchAddContend v tail =>
    cfg.capacity = none ∧ (IsValue cfg.size tail → g.val tail = some v)
  | .casLevel v tail _ | .casContend v tail _ | .sample v tail => g.val tail = some v
  | .boundedLoad _ cap => cfg.capacity = some cap
  | .boundedSkip _ cap tail => cfg.capacity = some cap ∧ ¬IsValue cfg.size tail
  | .boundedCached _ cap tail | .boundedHead _ cap tail => Deciding cfg q cap tail
  | .boundedCache _ cap tail head => Room cfg q cap tail ∧ head ≤ q.head.index
  | .boundedTry _ cap tail => Room cfg q cap tail
  | .findBlock c | .slowBlock c => Owns g c
  | .findStart c block | .slowStart c block => Owns g c ∧ block < q.allocated
  | .slowPrev c block =>
    Owns g c ∧ ∃ L, lapOf cfg.size c.tail < L ∧ L < g.laps ∧ g.chain L = block
  | .takeSpare c block | .takePool c block | .allocate c block => Installs cfg g c block
  | .resetMark c block next i =>
    Installs cfg g c block ∧ Drained cfg q g next ∧ ∀ j < i, q.mark next j = false
  | .resetStart c block next =>
    Installs cfg g c block ∧ Drained cfg q g next ∧
      ∀ j < blockCap cfg.size, q.mark next j = false
  | .storePrev c block next => Installs cfg g c block ∧ Blank cfg q next
  | .storeNext c block next =>
    Installs cfg g c block ∧ Blank cfg q next ∧ q.prev next = some block
  | .storeStart c block next =>
    Installs cfg g c block ∧ Blank cfg q next ∧ q.prev next = some block ∧ q.next next = none
  | .linkNext c block next | .storeTail c block next => Installed cfg g c block next
  | .writeValue c block => Writable cfg g c block
  | .publish c block =>
    Writable cfg g c block ∧ q.value block (offset cfg.size c.tail) = some c.value

/-- An index and a block loaded by a pop: if the index is still the head, the
block serves its lap. -/
def Paired (head : ℕ) (block : BlockId) : Prop :=
  IsValue cfg.size head ∧ block < q.allocated ∧ head ≤ q.head.index ∧
    (q.head.index = head → Serves cfg g head block)

/-- A taken position; the head waits on the sentinel for a last slot. -/
def Reads (head : ℕ) (block : BlockId) : Prop :=
  Serves cfg g head block ∧
    (IsLast cfg.size head → q.head.index = head + 1 ∧ g.headLap = lapOf cfg.size head)

/-- A block the head has left, still carrying its old start. -/
def Leaves (k : Taken) (v : V) : Prop :=
  g.val k.head = some v ∧ IsLast cfg.size k.head ∧ g.finished k.head ∧
    lapOf cfg.size k.head < g.headLap ∧
    q.start k.block = some (lapOf cfg.size k.head * lap cfg.size)

/-- Assertions of a pop. -/
def PopLocal : PopPc V → Prop
  | .loadHead _ => True
  | .loadBlock head _ => head ≤ q.head.index
  | .loadState head block _ | .reloadHead head block _ => Paired cfg q g head block
  | .claim head block _ =>
    Paired cfg q g head block ∧ (q.head.index = head → g.published head)
  | .sample head block => Reads cfg q g head block
  | .readValue k => Reads cfg q g k.head k.block
  | .markRead k v =>
    Reads cfg q g k.head k.block ∧ ¬IsLast cfg.size k.head ∧ g.val k.head = some v
  | .loadNext k v =>
    Reads cfg q g k.head k.block ∧ IsLast cfg.size k.head ∧ g.val k.head = some v
  | .storeBlock k v next =>
    Reads cfg q g k.head k.block ∧ IsLast cfg.size k.head ∧ g.val k.head = some v ∧
      Serves cfg g (k.head + 2) next
  | .swapIndex k v =>
    g.val k.head = some v ∧ IsLast cfg.size k.head ∧ q.head.index = k.head + 1 ∧
      g.headLap = lapOf cfg.size k.head + 1 ∧
      q.start k.block = some (lapOf cfg.size k.head * lap cfg.size)
  | .readersDone k v i => Leaves cfg q g k v ∧ i + 1 < blockCap cfg.size ∧
      ∀ j < i, q.mark k.block j = true
  | .retire k v => Leaves cfg q g k v
  | .resetMark k v i =>
    g.val k.head = some v ∧ Drained cfg q g k.block ∧ ∀ j < i, q.mark k.block j = false
  | .resetStart k v =>
    g.val k.head = some v ∧ Drained cfg q g k.block ∧
      ∀ j < blockCap cfg.size, q.mark k.block j = false
  | .recycleSpare k v | .recyclePool k v => g.val k.head = some v ∧ Blank cfg q k.block

/-- The exclusive consumer stands on the head with its block. -/
def AtHead (head : ℕ) (block : BlockId) : Prop :=
  q.head.index = head ∧ q.head.block = block ∧ IsValue cfg.size head ∧
    g.headLap = lapOf cfg.size head

/-- The values read so far are those of the positions from the head on. -/
def Values (r : Run V) : Prop :=
  ∀ i v, r.values[i]? = some v → g.published (r.head + i) ∧ g.val (r.head + i) = some v

/-- A batch under way: it stays inside its block. -/
def Batching (max : ℕ) (r : Run V) : Prop :=
  AtHead cfg q g r.head r.block ∧ Values g r ∧ g.published r.head ∧
    r.values.length ≤ max ∧ offset cfg.size r.head + max ≤ blockCap cfg.size

/-- All values of this receive have been read, and there is at least one. -/
def Collected (r : Run V) : Prop :=
  Values g r ∧ r.values ≠ [] ∧ offset cfg.size r.head + r.values.length ≤ blockCap cfg.size

/-- Assertions after the last read of an exclusive receive. -/
def LeaveLocal : LeavePc V → Prop
  | .loadNext r => AtHead cfg q g r.head r.block ∧ Collected cfg g r ∧ r.last cfg.size = true
  | .storeBlock r next =>
    AtHead cfg q g r.head r.block ∧ Collected cfg g r ∧ r.last cfg.size = true ∧
      lapOf cfg.size r.head + 1 < g.laps ∧ g.chain (lapOf cfg.size r.head + 1) = next
  | .advance r =>
    Collected cfg g r ∧ q.head.index = r.head ∧
      if r.last cfg.size = true then
        g.headLap = lapOf cfg.size r.head + 1 ∧
          q.start r.block = some (lapOf cfg.size r.head * lap cfg.size)
      else AtHead cfg q g r.head r.block
  | .sample r =>
    Collected cfg g r ∧ (r.last cfg.size = true → Drained cfg q g r.block)
  | .resetStart r _ => Collected cfg g r ∧ Drained cfg q g r.block
  | .recycleSpare r _ | .recyclePool r _ => Collected cfg g r ∧ Blank cfg q r.block

/-- The receive a leaving consumer is in. -/
def leaveRun : LeavePc V → Run V
  | .loadNext r | .storeBlock r _ | .advance r | .sample r | .resetStart r _
  | .recycleSpare r _ | .recyclePool r _ => r

/-- Assertions of an exclusive receive. -/
def SingleLocal : SinglePc V → Prop
  | .loadHead | .batchHead _ => True
  | .loadBlock head => q.head.index = head
  | .loadState head block => AtHead cfg q g head block
  | .batchBlock limit head => 0 < limit ∧ q.head.index = head
  | .batchState limit head block => 0 < limit ∧ AtHead cfg q g head block
  | .readValue head block => AtHead cfg q g head block ∧ g.published head
  | .reserve max head block =>
    AtHead cfg q g head block ∧ g.published head ∧ 0 < max ∧
      offset cfg.size head + max ≤ blockCap cfg.size
  | .slotState max r => Batching cfg q g max r ∧ r.values.length < max
  | .slotValue max r => Batching cfg q g max r ∧ r.values.length < max ∧
      g.published (r.head + r.values.length)
  | .leave batch pc =>
    (batch = false → (leaveRun pc).values.length = 1) ∧ LeaveLocal cfg q g pc

/-- Assertions of the operations that only look at the indices. -/
def ReadLocal : ReadPc → Prop
  | .emptyTail head | .lenTail head => head ≤ q.head.index
  | _ => True

/-- Assertion of a thread at its program point. -/
def Local (t : Tid) : Pc V → Prop
  | .idle => True
  | .fault => False
  | .push pc => PushLocal cfg q g pc
  | .pop pc => cfg.exclusive = none ∧ PopLocal cfg q g pc
  | .single pc => cfg.exclusive = some t ∧ SingleLocal cfg q g pc
  | .read pc => ReadLocal q pc

end Assertions

/-- The invariant of the queue: memory is coherent with what the threads own
and every thread's assertion holds. -/
structure Inv (cfg : Config Tid) (s : State Tid V) (g : Ghost Tid V) : Prop where
  coherent : Coherent cfg s.queue (views cfg.size s.pc) g
  assertion : ∀ t, Local cfg s.queue g t (s.pc t)

end Rapidfire.QueueLocal
