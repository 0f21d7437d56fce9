import Rapidfire.ChannelTurns
import Rapidfire.QueueFifo

/-!
# The channel as a list with a flag

A list of messages with a closed flag says what a channel is for. Every run of the
channel whose calls do not overlap is a run of this list, over the same calls and
results: whatever blocks, sentinels and recycled slots the queue goes through, a
send is refused exactly when the list is full or closed, a receive takes its first
messages, and the loop of a receive on a closed channel never turns.
-/

namespace Rapidfire.ChannelSerial

open Positions QueueMemory QueuePush QueuePop QueueSingle QueueMachine QueueHistory QueueRest
  QueueAlone QueueFifo ChannelState ChannelMachine ChannelQueue ChannelWaiters ChannelTurns Runs

variable {Tid V : Type} {cfg : Config Tid} {capacity : Option ℕ} {xs ys ys' : List V} {b c : Bool}
  {op : ChannelMachine.Op V} {k : Kont V} {n : Goes Tid V}

/-- Results of a call on a list of messages, with the list and its closed flag
before and after it. -/
inductive Answers (capacity : Option ℕ) : ChannelMachine.Op V → ChannelMachine.Ret V →
    List V → Bool → List V → Bool → Prop where
  | sent (v : V) (xs : List V) : (∀ cap ∈ capacity, xs.length < cap) →
      Answers capacity (.trySend v) (.trySend .ok) xs false (xs ++ [v]) false
  | full (v : V) (xs : List V) : capacity = some xs.length →
      Answers capacity (.trySend v) (.trySend (.full v)) xs false xs false
  | refused (v : V) (xs : List V) :
      Answers capacity (.trySend v) (.trySend (.closed v)) xs true xs true
  | received (v : V) (xs : List V) (b : Bool) :
      Answers capacity .tryRecv (.tryRecv (.ok v)) (v :: xs) b xs b
  | empty : Answers capacity .tryRecv (.tryRecv .empty) [] false [] false
  | drained : Answers capacity .tryRecv (.tryRecv .closed) [] true [] true
  | receivedMany (n : ℕ) (xs : List V) (b : Bool) :
      Answers capacity (.recvMany n) (.recvMany (some (xs.take n))) xs b (xs.drop n) b
  | unwound (n : ℕ) (values xs : List V) (b : Bool) :
      Answers capacity (.recvMany n) (.unwound values none) (values ++ xs) b xs b
  | closes (xs : List V) : Answers capacity .close (.closed true) xs false xs true
  | closed (xs : List V) : Answers capacity .close (.closed false) xs true xs true
  | len (xs : List V) (b : Bool) : Answers capacity .len (.length xs.length) xs b xs b

/-- What a client sees of a step. -/
inductive Event (V : Type) where
  | call (op : ChannelMachine.Op V)
  | ret (r : ChannelMachine.Ret V)
  deriving DecidableEq

/-- Calls and results a label shows; the poll of a receive belongs to its call. -/
def shows (l : Tid × ChannelMachine.Label V) : List (Tid × Event V) :=
  (match l.2.call with
    | none | some .poll => []
    | some op => [(l.1, .call op)]) ++
  match l.2.ret with
  | none => []
  | some r => [(l.1, .ret r)]

/-- A list of messages with a closed flag, and the call under way on it. -/
structure Mailbox (Tid V : Type) where
  items : List V
  closed : Bool
  pending : Option (Tid × ChannelMachine.Op V)

/-- A call is followed by its result, which changes the list. -/
inductive Mailbox.Step (capacity : Option ℕ) :
    Mailbox Tid V → Tid × Event V → Mailbox Tid V → Prop where
  | call (t : Tid) (op : ChannelMachine.Op V) (xs : List V) (b : Bool) :
      Mailbox.Step capacity ⟨xs, b, none⟩ (t, .call op) ⟨xs, b, some (t, op)⟩
  | ret (t : Tid) (op : ChannelMachine.Op V) (r : ChannelMachine.Ret V) (xs ys : List V)
      (b c : Bool) : Answers capacity op r xs b ys c →
      Mailbox.Step capacity ⟨xs, b, some (t, op)⟩ (t, .ret r) ⟨ys, c, none⟩

/-- What a call still has to do after it notified: the list and the flag at the
call, and those now. -/
inductive Owes (capacity : Option ℕ) :
    ChannelMachine.Op V → List V → Bool → Kont V → List V → Bool → Prop where
  | sent (v : V) (xs : List V) : (∀ cap ∈ capacity, xs.length < cap) →
      Owes capacity (.trySend v) xs false (.sent .call) (xs ++ [v]) false
  | received (v : V) (xs : List V) (b : Bool) :
      Owes capacity .tryRecv (v :: xs) b (.received .call v) xs b
  | batched (n got : ℕ) (values xs : List V) (b : Bool) : values ≠ [] → values.length ≤ n →
      (got = 0 → xs = []) →
      Owes capacity (.recvMany n) (values ++ xs) b (.batched got ⟨n, values⟩) xs b
  | closeSenders (xs : List V) : Owes capacity .close xs false (.closeSenders .call) xs true
  | closeDone (xs : List V) : Owes capacity .close xs false (.closeDone .call) xs true

/-- Where a call that nothing overlaps can be: the list and the flag at the call,
and those now. -/
inductive Plan (capacity : Option ℕ) : ChannelMachine.Op V → List V → Bool →
    AgentPc Tid V → List V → Bool → Prop where
  | sends (v : V) (xs : List V) (b : Bool) :
      Plan capacity (.trySend v) xs b (.trySend .call v) xs b
  | pushes (v : V) (xs : List V) (pc : Pc V) :
      Plan capacity (.trySend v) xs false (.queue (.push .call v) pc) xs false
  | pops (xs : List V) (b : Bool) (pc : Pc V) :
      Plan capacity .tryRecv xs b (.queue (.pop .call) pc) xs b
  | looks (b : Bool) : Plan capacity .tryRecv [] b (.recvState .call) [] b
  | verifies (pc : Pc V) : Plan capacity .tryRecv [] true (.queue (.isEmpty .call) pc) [] true
  | waits (n : ℕ) (xs : List V) (b : Bool) :
      Plan capacity (.recvMany n) xs b (.receiving none (some n)) xs b
  | batches (n : ℕ) (values xs : List V) (b : Bool) (pc : Pc V) : values.length < n →
      (values = [] → xs ≠ []) →
      Plan capacity (.recvMany n) (values ++ xs) b (.queue (.batch ⟨n, values⟩) pc) xs b
  | swaps (xs : List V) (b : Bool) : Plan capacity .close xs b (.closeSwap .call) xs b
  | counts (xs : List V) (b : Bool) (pc : Pc V) : Plan capacity .len xs b (.queue .len pc) xs b
  | notifies (op : ChannelMachine.Op V) (xs ys : List V) (b c : Bool) (side : Side)
      (limit : Option ℕ) (k : Kont V) : Owes capacity op xs b k ys c →
      Plan capacity op xs b (.notify side limit k) ys c
  | wakes (op : ChannelMachine.Op V) (xs ys : List V) (b c : Bool) (wakers : List (Waker Tid))
      (k : Kont V) : Owes capacity op xs b k ys c → Plan capacity op xs b (.waking wakers k) ys c

/-- A call that goes on, or returns with the answer of the list. -/
def Leads (capacity : Option ℕ) (op : ChannelMachine.Op V) (xs : List V) (b : Bool)
    (n : Goes Tid V) (ys : List V) (c : Bool) : Prop :=
  (∃ r, n = (.idle, some r) ∧ Answers capacity op r xs b ys c) ∨
    n.2 = none ∧ Plan capacity op xs b n.1 ys c

/-- Where the call is on the queue: in an operation that was called when the list
was `ys`, or outside with the list `ys`. -/
def At (cfg : Config Tid) (t : Tid) (pc : AgentPc Tid V) (τ : List (Tid × QueueMachine.Label V))
    (s : QueueMachine.State Tid V) (ys : List V) : Prop :=
  match pc with
  | .queue q _ => ∃ U, During cfg U τ s t (q.op cfg) ∧ U.map Prod.snd = ys
  | _ => contents τ = ys

/-- The list a channel stands for, between calls and during one. -/
inductive Stands (cfg : Config Tid) (τ : List (Tid × ChannelMachine.Label V))
    (s : ChannelMachine.State Tid V) : Mailbox Tid V → Prop where
  | rest : (∀ u, s.pc u = .idle) → Stands cfg τ s ⟨contents (queueLog τ), s.shared.closed, none⟩
  | during (t : Tid) (op : ChannelMachine.Op V) (xs ys : List V) (b : Bool) :
      (∀ u, u ≠ t → s.pc u = .idle) → At cfg t (s.pc t) (queueLog τ) (queueState s) ys →
      Plan cfg.capacity op xs b (s.pc t) ys s.shared.closed → Stands cfg τ s ⟨xs, b, some (t, op)⟩

/-- The calls of a serial client: a receive of many is polled when there is
something to receive. -/
def Plain (cfg : Config Tid) (s : ChannelMachine.State Tid V) :
    Option (ChannelMachine.Op V) → Prop
  | some (.send _) | some .recv | some (.clone _) | some (.dropHandle _) | some .dropFuture => False
  | some .poll => items cfg.size s.shared.queue ≠ 0
  | _ => True

/-- A step of a serial client that no other call overlaps. -/
def SerialStep [DecidableEq Tid] (cfg : Config Tid) (s : ChannelMachine.State Tid V)
    (l : Tid × ChannelMachine.Label V) (s' : ChannelMachine.State Tid V) : Prop :=
  ChannelMachine.Step cfg s l s' ∧ (∀ u, u ≠ l.1 → s.pc u = .idle) ∧ Plain cfg s l.2.call

/-- Runs in which calls do not overlap. -/
abbrev SerialRun [DecidableEq Tid] (cfg : Config Tid) :
    List (Tid × ChannelMachine.Label V) → ChannelMachine.State Tid V → Prop :=
  Run (SerialStep cfg) (ChannelMachine.State.init Tid V)

section Local

/-- A call that has notified returns, or reads another batch. -/
theorem leads_resume (h : Owes cfg.capacity op xs b k ys c) :
    Leads cfg.capacity op xs b (resume cfg k) ys c := by
  cases h with
  | sent v xs hroom => exact .inl ⟨_, rfl, .sent v xs hroom⟩
  | received v xs b => exact .inl ⟨_, rfl, .received v _ b⟩
  | batched n got values xs b hne hle hgot =>
    have hdone : values.length = n ∨ ys = [] → Answers cfg.capacity (.recvMany n)
        (.recvMany (some values)) (values ++ ys) b ys b := by
      intro hend
      have hans : Answers cfg.capacity (.recvMany n) _ (values ++ ys) b _ b :=
        .receivedMany n (values ++ ys) b
      rcases hend with rfl | rfl
      · rwa [List.take_left, List.drop_left] at hans
      · rw [List.append_nil] at hans ⊢
        rwa [List.take_of_length_le hle, List.drop_of_length_le hle] at hans
    simp only [resume, manyGot]
    by_cases hz : got = 0
    · rw [if_pos hz, if_neg hne]
      exact .inl ⟨_, rfl, hdone (.inr (hgot hz))⟩
    · rw [if_neg hz, manyLoop]
      by_cases hlt : values.length < n
      · rw [if_pos hlt]
        exact .inr ⟨rfl, .batches n values ys b _ hlt fun hnil => absurd hnil hne⟩
      · rw [if_neg hlt]
        exact .inl ⟨_, rfl, hdone (.inl (by omega))⟩
  | closeSenders xs => exact .inr ⟨rfl, .notifies _ _ _ _ _ _ _ _ (.closeDone xs)⟩
  | closeDone xs => exact .inl ⟨_, rfl, .closes xs⟩

/-- A call that notifies goes on. -/
theorem leads_wakeAll (h : Owes cfg.capacity op xs b k ys c) (wakers : List (Waker Tid)) :
    Leads cfg.capacity op xs b (wakeAll cfg wakers k) ys c := by
  cases wakers with
  | nil => exact leads_resume h
  | cons w wakers => exact .inr ⟨rfl, .wakes _ _ _ _ _ _ _ h⟩

/-- A step outside the queue goes on with the call or returns. -/
theorem leads_exec [DecidableEq Tid] {sh sh' : Shared Tid V} {t : Tid} {fail : Bool}
    {pc : AgentPc Tid V} (h : Plan cfg.capacity op xs b pc ys sh.closed)
    (he : pc.exec cfg sh t fail = some (sh', n)) :
    Leads cfg.capacity op xs b n ys sh'.closed := by
  generalize hc : sh.closed = c at h
  cases h with
  | sends v xs b =>
    cases he
    rw [hc]
    cases b with
    | true => exact .inl ⟨_, rfl, .refused v xs⟩
    | false => exact .inr ⟨rfl, .pushes v xs _⟩
  | looks b =>
    cases he
    rw [hc]
    cases b with
    | true => exact .inr ⟨rfl, .verifies _⟩
    | false => exact .inl ⟨_, rfl, .empty⟩
  | swaps xs b =>
    cases he
    rw [hc]
    cases b with
    | true => exact .inl ⟨_, rfl, .closed xs⟩
    | false => exact .inr ⟨rfl, .notifies _ _ _ _ _ _ _ _ (.closeSenders xs)⟩
  | notifies op xs ys b c side limit k hk =>
    cases limit with
    | none | some limit =>
      cases he
      change Leads _ _ _ _ _ _ sh.closed
      rw [hc]
      exact leads_wakeAll hk _
  | wakes op xs ys b c wakers k hk =>
    cases wakers with
    | nil =>
      cases he
      rw [hc]
      exact leads_resume hk
    | cons w wakers =>
      cases he
      rw [(wake_queue sh w).2, hc]
      exact leads_wakeAll hk wakers
  | _ => cases he

/-- After an operation of the queue that answered like the list, the call goes on
or returns. -/
theorem leads_finish {q : QueueK V} {pc : Pc V} {r : QueueMachine.Ret V}
    (h : Plan cfg.capacity op xs b (.queue q pc : AgentPc Tid V) ys c)
    (hr : QueueFifo.Answers cfg.capacity (q.op cfg) r ys ys') :
    Leads cfg.capacity op xs b (q.finish cfg r) ys' c := by
  cases h with
  | pushes v xs pc =>
    cases hr with
    | pushed v tail wake xs hroom =>
      cases wake with
      | true => exact .inr ⟨rfl, .notifies _ _ _ _ _ _ _ _ (.sent v _ hroom)⟩
      | false => exact .inl ⟨_, rfl, .sent v _ hroom⟩
    | full v xs hfull => exact .inl ⟨_, rfl, .full v _ hfull⟩
  | pops xs b pc =>
    have htaken : ∀ (head : ℕ) (v : V) (wake : Bool),
        Leads cfg.capacity .tryRecv (v :: ys') b (popped .call v wake : Goes Tid V) ys' b := by
      intro head v wake
      cases wake with
      | true => exact .inr ⟨rfl, .notifies _ _ _ _ _ _ _ _ (.received v ys' b)⟩
      | false => exact .inl ⟨_, rfl, .received v ys' b⟩
    change QueueFifo.Answers cfg.capacity (popOp cfg) r _ ys' at hr
    unfold popOp at hr
    split at hr
    · cases hr with
      | popped head v wake xs => exact htaken head v wake
      | nothing => exact .inr ⟨rfl, .looks b⟩
    · cases hr with
      | poppedSingle head v wake xs => exact htaken head v wake
      | nothingSingle => exact .inr ⟨rfl, .looks b⟩
  | verifies pc =>
    cases hr with
    | isEmpty xs => exact .inl ⟨_, rfl, .drained⟩
  | batches n values xs b pc hlt hne =>
    cases hr with
    | unwound n' xs => exact .inl ⟨_, rfl, .unwound n values _ b⟩
    | batch n' head wake got xs hle hnil =>
      have howes : Owes cfg.capacity (.recvMany n) (values ++ (got ++ ys')) b
          (.batched got.length ⟨n, values ++ got⟩) ys' b := by
        rw [← List.append_assoc]
        refine .batched n got.length (values ++ got) ys' b ?_ ?_ fun hz => ?_
        · intro he
          obtain ⟨hv, hg⟩ := List.append_eq_nil_iff.mp he
          rcases hnil hg with hz | hz
          · rw [hv] at hz hlt
            simp only [List.length_nil] at hz hlt
            omega
          · rw [hg, hz] at hne
            exact hne hv rfl
        · rw [List.length_append]
          change got.length ≤ n - values.length at hle
          omega
        · rcases hnil (List.eq_nil_of_length_eq_zero hz) with hn | hn
          · change n - values.length = 0 at hn
            omega
          · exact hn
      rw [finish_batch]
      split
      · exact .inr ⟨rfl, .notifies _ _ _ _ _ _ _ _ howes⟩
      · exact leads_resume howes
  | counts xs b pc =>
    cases hr with
    | len xs => exact .inl ⟨_, rfl, .len _ b⟩

/-- No call finds the queue other than empty after it found nothing in it. -/
theorem never_busy {q : QueueK V} {pc : Pc V} {r : QueueMachine.Ret V}
    (h : Plan cfg.capacity op xs b (.queue q pc : AgentPc Tid V) ys c)
    (hr : QueueFifo.Answers cfg.capacity (q.op cfg) r ys ys') : r ≠ .read (.answer false) := by
  cases h with
  | pops xs b pc =>
    change QueueFifo.Answers cfg.capacity (popOp cfg) r _ ys' at hr
    unfold popOp at hr
    split at hr <;> cases hr <;> exact fun h => by cases h
  | _ => cases hr <;> exact fun h => by cases h

end Local

section Steps

variable [DecidableEq Tid] {s s' : ChannelMachine.State Tid V} {t : Tid}
  {l : ChannelMachine.Label V} {τ : List (Tid × ChannelMachine.Label V)}
  {τ' : List (Tid × QueueMachine.Label V)} {pcs : Tid → AgentPc Tid V}

/-- An agent that was outside the queue calls an operation of it or stays outside. -/
theorem at_arrives {sh : Shared Tid V} {pc : AgentPc Tid V} (hothers : ∀ u, u ≠ t → pcs u = .idle)
    (hp : ∀ q p, pc = .queue q p → p = (q.op cfg).entry cfg.capacity) : At cfg t pc (τ' ++ (entered cfg pc).map fun q => (t, q))
      (queueState ⟨sh, Function.update pcs t pc⟩) (contents τ') := by
  cases pc with
  | queue q pc =>
    obtain rfl := hp q pc rfl
    refine ⟨unread τ', ?_, rfl⟩
    have hrest : Rest (⟨sh.queue, Function.update (fun u => queuePc (pcs u)) t .idle⟩ :
        QueueMachine.State Tid V) := by
      intro u
      by_cases hu : u = t
      · simp [hu]
      · simp [hu, hothers u hu, queuePc]
    have hcall : During cfg (unread τ') (τ' ++ [(t, .call (q.op cfg))])
        ⟨sh.queue, Function.update (Function.update (fun u => queuePc (pcs u)) t .idle) t
          ((q.op cfg).entry cfg.capacity)⟩ t (q.op cfg) := during_call hrest
    rw [Function.update_idem] at hcall
    rw [queueState_update]
    exact hcall
  | _ =>
    change contents (τ' ++ []) = contents τ'
    rw [List.append_nil]

/-- A step outside the queue, or a call, keeps the list. -/
theorem at_outside {sh : Shared Tid V} (call : Option (ChannelMachine.Op V)) (f : Option Closer)
    (hothers : ∀ u, u ≠ t → s.pc u = .idle) (hys : contents (queueLog τ) = ys)
    (hp : ∀ q p, n.1 = .queue q p → p = (q.op cfg).entry cfg.capacity) :
    At cfg t n.1 (queueLog (τ ++ [(t, ⟨entered cfg n.1, call, n.2, f⟩)]))
      (queueState ⟨sh, Function.update s.pc t n.1⟩) ys := by
  have hlog : queueLog (τ ++ [(t, (⟨entered cfg n.1, call, n.2, f⟩ : ChannelMachine.Label V))]) =
      queueLog τ ++ (entered cfg n.1).map fun q => (t, q) := by
    rw [queueLog, List.flatMap_append, List.flatMap_singleton]
    rfl
  rw [hlog, ← hys]
  exact at_arrives hothers hp

omit [DecidableEq Tid] in
/-- Outside the queue, the list is the present one. -/
theorem At.outside {pc : AgentPc Tid V} {m : QueueMachine.State Tid V}
    (h : At cfg t pc τ' m ys) (hp : ∀ q p, pc ≠ .queue q p) : contents τ' = ys := by
  cases pc with
  | queue q p => exact absurd rfl (hp q p)
  | _ => exact h

/-- A step of a call is a step of the mailbox, or shows nothing. -/
theorem stands_leads {sh : Shared Tid V} (hothers : ∀ u, u ≠ t → s.pc u = .idle)
    (hat : At cfg t n.1 (queueLog (τ ++ [(t, l)])) (queueState ⟨sh, Function.update s.pc t n.1⟩) ys)
    (h : Leads cfg.capacity op xs b n ys sh.closed) (hcall : l.call = none ∨ l.call = some .poll)
    (hret : l.ret = n.2) : ∃ a', Run (Mailbox.Step cfg.capacity) ⟨xs, b, some (t, op)⟩
      (shows (t, l)) a' ∧ Stands cfg (τ ++ [(t, l)]) ⟨sh, Function.update s.pc t n.1⟩ a' := by
  have hshows : shows (t, l) = (n.2.toList.map fun r => (t, .ret r)) := by
    rw [shows, ← hret]
    rcases hcall with hc | hc <;> rw [hc] <;> cases l.ret <;> rfl
  have hpcs : ∀ u, u ≠ t → Function.update s.pc t n.1 u = .idle := fun u hu =>
    (Function.update_of_ne hu _ _).trans (hothers u hu)
  rcases h with ⟨r, rfl, hans⟩ | ⟨hnone, hplan⟩
  · refine ⟨⟨ys, sh.closed, none⟩, ?_, ?_⟩
    · rw [hshows]
      exact .single (.ret t op r xs ys b sh.closed hans)
    · have hys : contents (queueLog (τ ++ [(t, l)])) = ys := hat
      rw [← hys]
      refine .rest fun u => ?_
      by_cases hu : u = t
      · subst hu
        exact Function.update_self _ _ _
      · exact hpcs u hu
  · refine ⟨⟨xs, b, some (t, op)⟩, ?_, .during t op xs ys b hpcs ?_ ?_⟩
    · rw [hshows, hnone]
      exact .refl
    · simp only [Function.update_self]
      exact hat
    · simp only [Function.update_self]
      exact hplan

omit [DecidableEq Tid] in
/-- Inside the queue, an agent that arrives is at the entry of its operation. -/
theorem entry_of_arrives {side : Option Side} {many : Bool} {pc : AgentPc Tid V}
    (h : Arrives cfg side many pc) (q : QueueK V) (p : Pc V) (hp : pc = .queue q p) :
    p = (q.op cfg).entry cfg.capacity := by
  have hplaced := h.placed
  rw [hp] at hplaced
  exact hplaced

omit [DecidableEq Tid] in
/-- A call of an idle agent starts its plan. -/
theorem plan_starts [DecidableEq Tid] {sh sh' : Shared Tid V} (xs : List V)
    (h : Starts cfg sh t .idle op sh' n) (hplain : Plain cfg s (some op)) :
    n.2 = none ∧ Plan cfg.capacity op xs sh.closed n.1 xs sh'.closed ∧
      (∀ f, shows (t, ⟨entered cfg n.1, some op, none, f⟩) = [(t, .call op)]) ∧
      ∀ q p, n.1 = .queue q p → p = (q.op cfg).entry cfg.capacity := by
  cases h with
  | trySend v => exact ⟨rfl, .sends v xs _, fun _ => rfl, fun q p hp => by cases hp⟩
  | tryRecv => exact ⟨rfl, .pops xs _ _, fun _ => rfl, fun q p hp => by cases hp; rfl⟩
  | recvMany limit => exact ⟨rfl, .waits limit xs _, fun _ => rfl, fun q p hp => by cases hp⟩
  | close => exact ⟨rfl, .swaps xs _, fun _ => rfl, fun q p hp => by cases hp⟩
  | len => exact ⟨rfl, .counts xs _ _, fun _ => rfl, fun q p hp => by cases hp; rfl⟩
  | _ => exact hplain.elim

/-- A call of an idle agent. -/
theorem stands_call {sh : Shared Tid V} (hidle : ∀ u, s.pc u = .idle)
    (h : Starts cfg s.shared t (s.pc t) op sh n) (hplain : Plain cfg s (some op)) :
    ∃ a', Run (Mailbox.Step cfg.capacity) ⟨contents (queueLog τ), s.shared.closed, none⟩
      (shows (t, ⟨entered cfg n.1, some op, n.2, none⟩)) a' ∧
      Stands cfg (τ ++ [(t, ⟨entered cfg n.1, some op, n.2, none⟩)])
        ⟨sh, Function.update s.pc t n.1⟩ a' := by
  rw [hidle t] at h
  obtain ⟨hnone, hplan, hshows, hentry⟩ := plan_starts (contents (queueLog τ)) h hplain
  have hat : At cfg t n.1
      (queueLog (τ ++ [(t, ⟨entered cfg n.1, some op, n.2, none⟩)]))
      (queueState ⟨sh, Function.update s.pc t n.1⟩) (contents (queueLog τ)) :=
    at_outside (some op) none (fun u _ => hidle u) rfl hentry
  have hothers : ∀ u, u ≠ t → Function.update s.pc t n.1 u = .idle := fun u hu =>
    (Function.update_of_ne hu _ _).trans (hidle u)
  rw [hnone] at hat ⊢
  rw [hshows]
  refine ⟨_, .single (.call t op _ _),
    .during t op _ (contents (queueLog τ)) _ hothers ?_ ?_⟩
  · simp only [Function.update_self]
    exact hat
  · simp only [Function.update_self]
    exact hplan

/-- The poll of a receive of many reads its first batch. -/
theorem stands_poll {sh : Shared Tid V} {o : ChannelMachine.Op V}
    (hreach : ChannelMachine.Reach cfg τ s)
    (hothers : ∀ u, u ≠ t → s.pc u = .idle) (hp : Plan cfg.capacity op xs b (s.pc t) ys s.shared.closed)
    (hat : At cfg t (s.pc t) (queueLog τ) (queueState s) ys)
    (h : Starts cfg s.shared t (s.pc t) o sh n) (hplain : Plain cfg s (some o)) :
    ∃ a', Run (Mailbox.Step cfg.capacity) ⟨xs, b, some (t, op)⟩
      (shows (t, ⟨entered cfg n.1, some o, n.2, none⟩)) a' ∧
      Stands cfg (τ ++ [(t, ⟨entered cfg n.1, some o, n.2, none⟩)])
        ⟨sh, Function.update s.pc t n.1⟩ a' := by
  have hclosed := starts_closed cfg h
  generalize hpc : s.pc t = pc at h hp hat
  generalize hc : s.shared.closed = c at hp
  cases hp with
  | waits m xs b =>
    cases h with
    | pollRecv many =>
      obtain ⟨g, hg⟩ := reach_history hreach
      have hys : contents (queueLog τ) = xs := hat
      have hne : xs ≠ [] := by
        rintro rfl
        have hlength := contents_length hg
        rw [hys] at hlength
        exact hplain hlength.symm
      have hleads : Leads cfg.capacity (.recvMany m) xs b (firstPoll cfg (some m)) xs
          (s.shared.beginPoll t).closed := by
        rw [hclosed, hc, firstPoll]
        by_cases hm : m = 0
        · subst hm
          rw [if_pos rfl]
          exact .inl ⟨_, rfl, .receivedMany 0 xs _⟩
        · rw [if_neg hm]
          exact .inr ⟨rfl, .batches m [] xs _ _ (Nat.pos_of_ne_zero hm) fun _ => hne⟩
      refine stands_leads hothers (at_outside _ _ hothers hys fun q p hq => ?_) hleads (.inr rfl) rfl
      rw [firstPoll] at hq
      split at hq <;> cases hq
      rfl
    | dropFreshRecv many => exact hplain.elim
  | _ => cases h

omit [DecidableEq Tid] in
/-- The plan of a call does not depend on how far its operation of the queue is. -/
theorem Plan.goto {q : QueueK V} {pc : Pc V}
    (h : Plan capacity op xs b (.queue q pc : AgentPc Tid V) ys c) (pc' : Pc V) :
    Plan capacity op xs b (.queue q pc' : AgentPc Tid V) ys c := by
  cases h with
  | pushes v xs pc => exact .pushes v xs pc'
  | pops xs b pc => exact .pops xs b pc'
  | verifies pc => exact .verifies pc'
  | batches n values xs b pc hlt hne => exact .batches n values _ b pc' hlt hne
  | counts xs b pc => exact .counts xs b pc'

/-- An operation of the queue never says that the queue is not empty. -/
def Quiet (l : List (QueueMachine.Label V)) : Prop :=
  ∀ x ∈ l, x.result ≠ some (.read (.answer false))

omit [DecidableEq Tid] in
theorem quiet_entered (pc : AgentPc Tid V) : Quiet (entered cfg pc) := by
  intro x hx
  cases pc with
  | queue q p =>
    obtain rfl := List.mem_singleton.mp hx
    exact fun hr => by cases hr
  | _ => cases hx

/-- An access of a call that nothing overlaps. -/
theorem stands_access {q : QueueK V} {pc : Pc V} {fail : Bool}
    {o : Outcome V (Pc V) (QueueMachine.Ret V)} (hreach : ChannelMachine.Reach cfg τ s)
    (hothers : ∀ u, u ≠ t → s.pc u = .idle) (hpc : s.pc t = .queue q pc)
    (hp : Plan cfg.capacity op xs b (s.pc t) ys s.shared.closed)
    (hat : At cfg t (s.pc t) (queueLog τ) (queueState s) ys)
    (ho : pc.exec cfg (sampledCount s.shared pc) fail s.shared.queue = some o) :
    Quiet (.access o.2.2 (nextRet o.2.1) :: called cfg (q.next cfg o.2.1).1 o.2.1) ∧
    ∃ a', Run (Mailbox.Step cfg.capacity) ⟨xs, b, some (t, op)⟩
      (shows (t, ⟨.access o.2.2 (nextRet o.2.1) :: called cfg (q.next cfg o.2.1).1 o.2.1, none,
        (q.next cfg o.2.1).2, none⟩)) a' ∧
      Stands cfg (τ ++ [(t, ⟨.access o.2.2 (nextRet o.2.1) ::
        called cfg (q.next cfg o.2.1).1 o.2.1, none, (q.next cfg o.2.1).2, none⟩)])
        ⟨{ s.shared with queue := o.1 }, Function.update s.pc t (q.next cfg o.2.1).1⟩ a' := by
  obtain ⟨hqueue, hok⟩ := reach_queue hreach
  obtain ⟨g, hg⟩ := reach_history hreach
  rw [hpc] at hat hp
  obtain ⟨U, hd, rfl⟩ := hat
  have hqpc : (queueState s).pc t = pc := by simp [queueState, hpc, queuePc]
  have ho' : ((queueState s).pc t).exec cfg (sampledCount s.shared pc) fail
      (queueState s).queue = some o := by
    rw [hqpc]
    exact ho
  have hstep : QueueMachine.Step cfg (queueState s) (t, .access o.2.2 (nextRet o.2.1))
      ⟨o.1, Function.update (queueState s).pc t (nextPc o.2.1)⟩ := by
    refine ⟨.run (sampledCount s.shared pc) fail, ?_⟩
    simp only [QueueMachine.State.step, ho']
  obtain ⟨g', hg'⟩ := QueueInvariant.exec_steps hg.inv ho'
  have hlog : ∀ (ls : List (QueueMachine.Label V)) (r : Option (ChannelMachine.Ret V)),
      queueLog (τ ++ [(t, (⟨ls, none, r, none⟩ : ChannelMachine.Label V))]) =
        queueLog τ ++ ls.map fun x => (t, x) := by
    intro ls r
    rw [queueLog, List.flatMap_append, List.flatMap_singleton]
    rfl
  cases hn : o.2.1 with
  | fault => exact absurd hn hg'.sound
  | goto pc' =>
    rw [hn] at hstep
    have hd' := hd.next hg ho' hn hstep
    refine ⟨fun x hx => ?_, ?_⟩
    · obtain rfl := List.mem_singleton.mp hx
      exact fun hr => by cases hr
    · have hat' : At cfg t (.queue q pc') (queueLog (τ ++ [(t, ⟨[.access o.2.2 none], none, none,
          none⟩)])) (queueState ⟨{ s.shared with queue := o.1 },
            Function.update s.pc t (.queue q pc')⟩) (U.map Prod.snd) := by
        refine ⟨U, ?_, rfl⟩
        rw [hlog, queueState_update]
        exact hd'
      have hleads : Leads cfg.capacity op xs b (.queue q pc', none) (U.map Prod.snd)
          ({ s.shared with queue := o.1 } : Shared Tid V).closed := .inr ⟨rfl, hp.goto pc'⟩
      exact stands_leads (n := (.queue q pc', none)) hothers hat' hleads (.inl rfl) rfl
  | ret r =>
    rw [hn] at hstep
    have hans := hd.answers hqueue hg ho' hn hstep
    have hfits : Fits q pc := by
      have hin := (hok t).inside
      rwa [hpc] at hin
    have harr : Arrives cfg q.side (QueueK.batching q) (q.finish cfg r).1 :=
      arrives_finish ((exec_fits hfits ho).2 r hn)
    have hat' : At cfg t (q.finish cfg r).1 (queueLog (τ ++ [(t, ⟨.access o.2.2 (some r) ::
        entered cfg (q.finish cfg r).1, none, (q.finish cfg r).2, none⟩)]))
        (queueState ⟨{ s.shared with queue := o.1 }, Function.update s.pc t (q.finish cfg r).1⟩)
        (contents (queueLog τ ++ [(t, .access o.2.2 (some r))])) := by
      rw [hlog, List.map_cons, ← List.singleton_append, ← List.append_assoc]
      exact at_arrives hothers (entry_of_arrives harr)
    refine ⟨fun x hx => ?_, stands_leads (n := q.finish cfg r) hothers hat'
      (leads_finish hp hans) (.inl rfl) rfl⟩
    rcases List.mem_cons.mp hx with rfl | hx
    · intro hr
      exact never_busy hp hans (Option.some.inj hr)
    · exact quiet_entered _ x hx

end Steps

section Refinement

variable [DecidableEq Tid] {s s' : ChannelMachine.State Tid V} {t : Tid}
  {l : ChannelMachine.Label V} {τ : List (Tid × ChannelMachine.Label V)}

theorem reach_of_serial (h : SerialRun cfg τ s) : ChannelMachine.Reach cfg τ s :=
  h.mono fun _ _ _ hs => hs.1

/-- One step of the channel is one step of the mailbox, or shows nothing. -/
theorem stands_step {a : Mailbox Tid V} (hr : ChannelMachine.Reach cfg τ s)
    (ha : Stands cfg τ s a) (hs : SerialStep cfg s (t, l) s') : Quiet l.queue ∧
      ∃ a', Run (Mailbox.Step cfg.capacity) a (shows (t, l)) a' ∧
        Stands cfg (τ ++ [(t, l)]) s' a' := by
  obtain ⟨hstep, hothers, hplain⟩ := hs
  cases ha with
  | rest hidle =>
    rcases ChannelMachine.step_cases cfg hstep with ⟨op, c, n, h, -, rfl, rfl⟩ |
      ⟨q, pc, fail, o, hpc, -⟩ | ⟨fail, c, n, h, -⟩
    · exact ⟨quiet_entered _, stands_call hidle h hplain⟩
    · rw [hidle t] at hpc
      cases hpc
    · rw [hidle t] at h
      cases h
  | during u op xs ys b hidle hat hp =>
    obtain rfl : t = u := by
      by_contra hne
      rw [hothers u (Ne.symm hne)] at hp
      cases hp
    rcases ChannelMachine.step_cases cfg hstep with ⟨op', c, n, h, -, rfl, rfl⟩ |
      ⟨q, pc, fail, o, hpc, ho, rfl, rfl⟩ | ⟨fail, c, n, h, rfl, rfl⟩
    · exact ⟨quiet_entered _, stands_poll hr hothers hp hat h hplain⟩
    · exact stands_access hr hothers hpc hp hat ho
    · obtain ⟨harr, -, -⟩ := exec_arrives h
      have hys : contents (queueLog τ) = ys := hat.outside fun q p hq => by
        rw [hq] at h
        cases h
      exact ⟨quiet_entered _, stands_leads hothers
        (at_outside _ _ hothers hys (entry_of_arrives harr)) (leads_exec hp h) (.inl rfl) rfl⟩

/-- A run of the channel whose calls do not overlap is a run of the mailbox, over
the same calls and results, for the shared and the exclusive receiver. Between
calls the mailbox holds the messages that were claimed and not taken, and the flag
of the channel. No receive goes round its loop on a closed channel. -/
theorem serial_refines_mailbox (h : SerialRun cfg τ s) :
    (∃ a, Run (Mailbox.Step cfg.capacity) ⟨[], false, none⟩ (τ.flatMap shows) a ∧
      ((∀ u, s.pc u = .idle) → a = ⟨contents (queueLog τ), s.shared.closed, none⟩)) ∧
    ∀ x ∈ τ, ∀ q ∈ x.2.queue, q.result ≠ some (.read (.answer false)) := by
  obtain ⟨a, ha, hstands, hquiet⟩ := h.matched
    (R := fun τ s a => Stands cfg τ s a ∧ ∀ x ∈ τ, Quiet x.2.queue)
    ⟨.rest fun _ => rfl, fun x hx => by cases hx⟩ fun τ s l s' a hr hst hs => by
      obtain ⟨hq, a', ha', hstands⟩ := stands_step (reach_of_serial hr) hst.1 hs
      refine ⟨a', ha', hstands, fun x hx => ?_⟩
      rcases List.mem_append.mp hx with hx | hx
      · exact hst.2 x hx
      · obtain rfl := List.mem_singleton.mp hx
        exact hq
  refine ⟨⟨a, ha, fun hidle => ?_⟩, hquiet⟩
  cases hstands with
  | rest _ => rfl
  | during t op xs ys b _ _ hp =>
    rw [hidle t] at hp
    cases hp

/-- The agent is between calls. -/
def atRest : AgentPc Tid V → Bool
  | .idle => true
  | _ => false

omit [DecidableEq Tid] in
theorem atRest_iff {pc : AgentPc Tid V} : atRest pc = true ↔ pc = .idle := by
  cases pc <;> simp [atRest]

/-- Calls other than the poll of a receive. -/
def unpolled : Option (ChannelMachine.Op V) → Bool
  | none | some (.trySend _) | some .tryRecv | some .close | some .len => true
  | _ => false

/-- What one agent does while the others are idle does not overlap. -/
theorem serial_of_alone {m : ChannelMachine.State Tid V}
    (h : Run (ChannelMachine.Step cfg) m τ s) (hm : ∀ u, u ≠ t → m.pc u = .idle)
    (ht : ∀ l ∈ τ, l.1 = t ∧ unpolled l.2.call = true) :
    Run (SerialStep cfg) m τ s ∧ ∀ u, u ≠ t → s.pc u = .idle := by
  revert ht
  refine h.invariant (P := fun τ s => (∀ l ∈ τ, l.1 = t ∧ unpolled l.2.call = true) →
    Run (SerialStep cfg) m τ s ∧ ∀ u, u ≠ t → s.pc u = .idle) (fun _ => ⟨.refl, hm⟩) ?_
  rintro τ s ⟨u, l⟩ s' - ih hs ht
  obtain ⟨hrun, hidle⟩ := ih fun l hl => ht l (List.mem_append_left _ hl)
  obtain ⟨rfl, hcall⟩ := ht (u, l) (List.mem_append_right _ (List.mem_singleton_self _))
  refine ⟨hrun.tail ⟨hs, hidle, ?_⟩, fun w hw => (step_others cfg hs hw).trans (hidle w hw)⟩
  revert hcall
  cases l.call with
  | none => exact fun _ => trivial
  | some op => cases op <;> simp [unpolled, Plain]

end Refinement

/-- Agent 0 sends 7 on a channel of one message, is refused 8 twice, first because the
channel is full and then because it is closed, and receives 7 and the end. -/
def sendCloseReceive : List (Fin 2 × ChannelMachine.Choice ℕ) :=
  (0, .call (.trySend 7)) :: List.replicate 9 (0, .run false) ++
  (0, .call (.trySend 8)) :: List.replicate 4 (0, .run false) ++
  (0, .call .close) :: List.replicate 3 (0, .run false) ++
  (0, .call (.trySend 8)) :: List.replicate 1 (0, .run false) ++
  (0, .call .tryRecv) :: List.replicate 7 (0, .run false) ++
  (0, .call .tryRecv) :: List.replicate 7 (0, .run false)

/-- What agent 0 sees there. -/
def sendCloseReceiveEvents : List (Fin 2 × Event ℕ) :=
  [.call (.trySend 7), .ret (.trySend .ok), .call (.trySend 8), .ret (.trySend (.full 8)),
    .call .close, .ret (.closed true), .call (.trySend 8), .ret (.trySend (.closed 8)),
    .call .tryRecv, .ret (.tryRecv (.ok 7)), .call .tryRecv, .ret (.tryRecv .closed)].map
      fun e => (0, e)

/-- The mailbox answers the same, and ends empty and closed. -/
theorem serial_refines_mailbox_of_sendCloseReceive :
    ∃ (τ : List (Fin 2 × ChannelMachine.Label ℕ)) (s : ChannelMachine.State (Fin 2) ℕ),
      SerialRun QueueCapacity.single τ s ∧ τ.flatMap shows = sendCloseReceiveEvents ∧
      Run (Mailbox.Step (some 1)) ⟨[], false, none⟩ sendCloseReceiveEvents ⟨[], true, none⟩ := by
  have h : ((ChannelMachine.State.init (Fin 2) ℕ).runs QueueCapacity.single sendCloseReceive).map
      (fun x => ((x.1.flatMap shows, contents (queueLog x.1)), x.2.shared.closed,
        x.1.all fun l => decide (l.1 = 0 ∧ unpolled l.2.call = true), atRest (x.2.pc 0))) = some ((sendCloseReceiveEvents, []), true, true, true) := by
    decide +kernel
  obtain ⟨⟨τ, s⟩, hrun, h⟩ := Option.map_eq_some_iff.mp h
  simp only [Prod.mk.injEq, List.all_eq_true, decide_eq_true_eq, atRest_iff] at h
  obtain ⟨⟨hshows, hempty⟩, hclosed, hzero, hidle⟩ := h
  obtain ⟨hserial, hothers⟩ := serial_of_alone
    (ChannelMachine.State.runs_run QueueCapacity.single hrun) (fun _ _ => rfl) hzero
  obtain ⟨⟨a, ha, hlist⟩, -⟩ := serial_refines_mailbox hserial
  have hrest : ∀ u, s.pc u = .idle := fun u => by
    by_cases hu : u = 0
    · exact hu ▸ hidle
    · exact hothers u hu
  rw [hlist hrest, hempty, hclosed, hshows] at ha
  exact ⟨τ, s, hserial, hshows, ha⟩

end Rapidfire.ChannelSerial
