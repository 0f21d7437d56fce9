import Rapidfire.ChannelQueue

/-!
# Ledger of the channel

What the queue hands to an agent and what the agent hands to its caller, in
every run: a value that left the queue is carried until it is returned, and a
push that was accepted is owed an `Ok`.
-/

namespace Rapidfire.ChannelLedger

open QueueMachine ChannelState ChannelMachine ChannelQueue Runs QueueHistory

variable {Tid V : Type} {cfg : QueueMemory.Config Tid} {s s' : ChannelMachine.State Tid V}
  {t u : Tid} {l : ChannelMachine.Label V} {τ : List (Tid × ChannelMachine.Label V)}

/-- Values that leave an agent with a result: received ones, and one that is
lost when the buffer of `recv_many` fails to grow. -/
def handed : ChannelMachine.Ret V → List V
  | .tryRecv (.ok v) | .recv (.ok v) => [v]
  | .recvMany (some values) => values
  | .unwound values lost => values ++ lost.toList
  | _ => []

/-- Sends that succeed with a result. -/
def succeeded : ChannelMachine.Ret V → ℕ
  | .trySend .ok | .send .ok => 1
  | _ => 0

/-- Values an agent carries while it continues. -/
def Kont.carried : Kont V → List V
  | .received _ v => [v]
  | .batched _ many => many.values
  | .recvReady v _ => v.toList
  | _ => []

/-- Values an agent carries inside the queue. -/
def QueueK.carried : QueueK V → List V
  | .batch many => many.values
  | _ => []

/-- Values an agent has received from the queue and not returned. -/
def carried : AgentPc Tid V → List V
  | .queue k _ => QueueK.carried k
  | .unregister _ _ k | .unregisterLocked _ _ _ k | .notify _ _ k | .waking _ k => Kont.carried k
  | .append v _ => [v]
  | _ => []

/-- Sends that have succeeded, while the agent continues. -/
def Kont.owed : Kont V → ℕ
  | .sent _ | .sendReady .ok => 1
  | _ => 0

/-- Sends of an agent whose push was accepted and that have not returned. -/
def owed : AgentPc Tid V → ℕ
  | .unregister _ _ k | .unregisterLocked _ _ _ k | .notify _ _ k | .waking _ k => Kont.owed k
  | _ => 0

/-- Where an agent goes accounts for the values and the accepted pushes. -/
structure Balanced (values : List V) (pushes : ℕ) (n : Goes Tid V) : Prop where
  values : values = n.2.toList.flatMap handed ++ carried n.1
  pushes : pushes = owed n.1 + (n.2.toList.map succeeded).sum

section Local

theorem balanced_manyLoop (many : Many V) : Balanced many.values 0 (manyLoop cfg many) := by
  unfold manyLoop
  split
  · exact ⟨rfl, rfl⟩
  · exact ⟨by simp [handed, carried], rfl⟩

theorem balanced_manyGot (got : ℕ) (many : Many V) :
    Balanced many.values 0 (manyGot cfg got many) := by
  unfold manyGot
  split
  · split
    · rename_i hv
      exact ⟨hv, rfl⟩
    · exact ⟨by simp [handed, carried], rfl⟩
  · exact balanced_manyLoop many

theorem balanced_sendOk (k : SendK) : Balanced [] 1 (sendOk k : Goes Tid V) := by
  cases k <;> exact ⟨rfl, rfl⟩

theorem balanced_sendClosed (v : V) (k : SendK) :
    Balanced [] 0 (sendClosed v k : Goes Tid V) := by
  cases k <;> exact ⟨rfl, rfl⟩

theorem balanced_sendFull (v : V) (k : SendK) : Balanced [] 0 (sendFull v k : Goes Tid V) := by
  cases k <;> exact ⟨rfl, rfl⟩

theorem balanced_recvReady (v : Option V) (many : Option ℕ) :
    Balanced v.toList 0 (recvReady v many : Goes Tid V) := by
  cases many <;> cases v <;> exact ⟨rfl, rfl⟩

theorem balanced_recvOk (v : V) (k : RecvK) : Balanced [v] 0 (recvOk v k : Goes Tid V) := by
  cases k with
  | first many => exact balanced_recvReady (some v) many
  | _ => exact ⟨rfl, rfl⟩

theorem balanced_recvClosed (k : RecvK) : Balanced [] 0 (recvClosed k : Goes Tid V) := by
  cases k with
  | first many => exact balanced_recvReady none many
  | _ => exact ⟨rfl, rfl⟩

theorem balanced_recvAgain (id tail wait : ℕ) (many : Option ℕ) :
    Balanced (V := V) [] 0 (recvAgain cfg id tail wait many) := by
  unfold recvAgain
  split <;> exact ⟨rfl, rfl⟩

theorem balanced_recvBusy (k : RecvK) : Balanced (V := V) [] 0 (recvBusy cfg k) := by
  cases k with
  | second id tail wait many => exact balanced_recvAgain id tail wait many
  | _ => exact ⟨rfl, rfl⟩

theorem balanced_recvEmpty (k : RecvK) : Balanced (V := V) [] 0 (recvEmpty cfg k) := by
  cases k <;> exact ⟨rfl, rfl⟩

theorem balanced_resume (k : Kont V) :
    Balanced (Kont.carried k) (Kont.owed k) (resume cfg k) := by
  cases k with
  | sent k => exact balanced_sendOk k
  | received k v => exact balanced_recvOk v k
  | batched got many => exact balanced_manyGot got many
  | sendReady r => cases r <;> exact ⟨rfl, rfl⟩
  | recvReady v many => exact balanced_recvReady v many
  | closeDone who => cases who <;> exact ⟨rfl, rfl⟩
  | _ => exact ⟨rfl, rfl⟩

theorem balanced_wakeAll (wakers : List (Waker Tid)) (k : Kont V) :
    Balanced (Kont.carried k) (Kont.owed k) (wakeAll cfg wakers k) := by
  cases wakers with
  | nil => exact balanced_resume k
  | cons w wakers => exact ⟨rfl, rfl⟩

theorem balanced_popped (k : RecvK) (v : V) (wake : Bool) :
    Balanced [v] 0 (popped k v wake : Goes Tid V) := by
  cases wake with
  | true => exact ⟨rfl, rfl⟩
  | false => exact balanced_recvOk v k

/-- The result of a queue operation is accounted for. -/
theorem balanced_finish {k : QueueK V} {r : QueueMachine.Ret V} (h : FitsRet k r) :
    Balanced (QueueK.carried k ++ r.received.map Prod.snd) (acceptedRet r).length
      (k.finish cfg r) := by
  cases h with
  | pushed k v tail wake =>
    cases wake with
    | true => exact ⟨rfl, rfl⟩
    | false => exact balanced_sendOk k
  | full k v w => exact balanced_sendFull w k
  | popped k head v wake | poppedSingle k head v wake => exact balanced_popped k v wake
  | isEmpty k empty =>
    cases empty with
    | true => exact balanced_recvClosed k
    | false => exact balanced_recvBusy k
  | claimsBelow id tail wait many below =>
    cases below with
    | true => exact balanced_recvAgain id tail wait many
    | false => exact ⟨rfl, rfl⟩
  | batch many head values wake =>
    have hv : ((Ret.single (.batch head values wake)).received).map Prod.snd = values := by
      change (List.zip _ values).map Prod.snd = values
      rw [List.map_snd_zip (by simp)]
    rw [finish_batch, hv]
    split
    · exact ⟨rfl, rfl⟩
    · exact balanced_manyGot values.length ⟨many.limit, many.values ++ values⟩
  | unwound many => exact ⟨by simp [QueueK.carried, QueueK.finish, handed, carried,
      QueueMachine.Ret.received], rfl⟩
  | _ => exact ⟨rfl, rfl⟩

/-- An access of a queue operation is accounted for. -/
theorem balanced_next {k : QueueK V} {n : QueueMemory.Next (Pc V) (QueueMachine.Ret V)}
    (hret : ∀ r, n = .ret r → FitsRet k r) (hf : n ≠ .fault) :
    Balanced (QueueK.carried k ++ ((nextRet n).toList.flatMap Ret.received).map Prod.snd)
      ((nextRet n).toList.flatMap acceptedRet).length (k.next cfg n) := by
  cases n with
  | goto pc => exact ⟨List.append_nil _, rfl⟩
  | ret r =>
    obtain ⟨hv, hp⟩ : Balanced _ _ (k.finish cfg r) := balanced_finish (hret r rfl)
    refine ⟨?_, ?_⟩
    · simpa [nextRet, QueueK.next] using hv
    · simpa [nextRet, QueueK.next] using hp
  | fault => exact absurd rfl hf

variable [DecidableEq Tid] {c c' : Shared Tid V} {n : Goes Tid V}

/-- A step outside the queue hands over what the agent carries. -/
theorem balanced_exec {pc : AgentPc Tid V} {fail : Bool}
    (h : pc.exec cfg c t fail = some (c', n)) : Balanced (carried pc) (owed pc) n := by
  cases pc with
  | trySend k v =>
    cases h
    split
    · exact balanced_sendClosed v k
    · exact ⟨rfl, rfl⟩
  | recvState k =>
    cases h
    split
    · exact ⟨rfl, rfl⟩
    · exact balanced_recvEmpty k
  | unregister side id k =>
    cases h
    split
    · exact balanced_resume k
    · exact ⟨rfl, rfl⟩
  | unregisterLocked side id forward k =>
    simp only [AgentPc.exec] at h
    split at h
    · cases h
      exact balanced_resume k
    · cases h
      split
      · exact ⟨rfl, rfl⟩
      · exact balanced_resume k
  | notify side limit k =>
    cases limit with
    | none | some limit =>
      cases h
      exact balanced_wakeAll _ k
  | waking wakers k =>
    cases wakers with
    | nil =>
      cases h
      exact balanced_resume k
    | cons w wakers =>
      cases h
      exact balanced_wakeAll wakers k
  | closeSwap who =>
    cases h
    split
    · cases who <;> exact ⟨rfl, rfl⟩
    · exact ⟨rfl, rfl⟩
  | append v limit =>
    cases h
    split
    · exact ⟨rfl, rfl⟩
    · exact balanced_manyLoop ⟨limit, [v]⟩
  | registerSender v | registerReceiver many | wakeSelf id many =>
    cases h
    exact ⟨rfl, rfl⟩
  | idle | fault | sending v id | receiving id many | queue k pc => cases h

/-- Nothing is carried into an operation. -/
theorem balanced_start {pc : AgentPc Tid V} {op : ChannelMachine.Op V}
    (h : Starts cfg c t pc op c' n) : Balanced (carried pc) (owed pc) n := by
  cases h with
  | pollRecv many =>
    cases many with
    | none => exact ⟨rfl, rfl⟩
    | some limit =>
      simp only [firstPoll]
      split <;> exact ⟨rfl, rfl⟩
  | _ => exact ⟨rfl, rfl⟩

end Local

section Logs

variable [DecidableEq Tid]

/-- Values an agent has handed over to its caller, in order. -/
def delivered (u : Tid) (τ : List (Tid × ChannelMachine.Label V)) : List V :=
  (ofThread u τ).flatMap fun l => l.ret.toList.flatMap handed

/-- Sends of an agent that returned `Ok`. -/
def sentOk (u : Tid) (τ : List (Tid × ChannelMachine.Label V)) : ℕ :=
  ((ofThread u τ).map fun l => (l.ret.toList.map succeeded).sum).sum

/-- Values received from the queue in a step. -/
def got (l : ChannelMachine.Label V) : List V :=
  l.queue.flatMap fun q => (q.result.toList.flatMap Ret.received).map Prod.snd

/-- Pushes accepted in a step. -/
def accepts (l : ChannelMachine.Label V) : ℕ :=
  (l.queue.flatMap fun q => q.result.toList.flatMap acceptedRet).length

/-- What a thread does in a log that lists several entries for each step. -/
theorem ofThread_flatMap {α β : Type} (f : α → List β) (xs : List (Tid × α)) :
    ofThread u (xs.flatMap fun x => (f x.2).map fun b => (x.1, b)) =
      (ofThread u xs).flatMap f := by
  induction xs with
  | nil => rfl
  | cons x xs ih =>
    rw [List.flatMap_cons, ofThread_append, ih]
    by_cases hx : x.1 = u
    · rw [← hx, ofThread_self]
      simp [ofThread]
    · rw [ofThread_other hx]
      simp [ofThread, hx]

omit [DecidableEq Tid] in
/-- Entering the queue returns nothing. -/
theorem entered_result (pc : AgentPc Tid V) : ∀ q ∈ entered cfg pc, q.result = none := by
  intro q hq
  cases pc with
  | queue k pc =>
    obtain rfl := List.mem_singleton.mp hq
    rfl
  | _ => cases hq

omit [DecidableEq Tid] in
theorem called_result (cfg : QueueMemory.Config Tid) (pc : AgentPc Tid V)
    (n : QueueMemory.Next (Pc V) (QueueMachine.Ret V)) :
    ∀ q ∈ called cfg pc n, q.result = none := by
  cases n with
  | ret r => exact entered_result pc
  | _ => exact nofun

omit [DecidableEq Tid] in
/-- Labels without results contribute nothing. -/
theorem flatMap_result {β : Type} {qs : List (QueueMachine.Label V)}
    (h : ∀ q ∈ qs, q.result = none) (f : QueueMachine.Ret V → List β) :
    (qs.flatMap fun q => q.result.toList.flatMap f) = [] := by
  refine List.flatMap_eq_nil_iff.mpr fun q hq => ?_
  rw [h q hq]
  rfl

/-- Every step hands over what it does not carry on. -/
theorem step_balanced {g : QueueCoherence.Ghost Tid V}
    (hg : QueueLocal.Inv cfg (queueState s) g) (hok : ∀ u, AgentOk cfg u (s.pc u))
    (h : ChannelMachine.Step cfg s (t, l) s') :
    carried (s.pc t) ++ got l = l.ret.toList.flatMap handed ++ carried (s'.pc t) ∧
      owed (s.pc t) + accepts l = owed (s'.pc t) + (l.ret.toList.map succeeded).sum := by
  have hgot : ∀ qs : List (QueueMachine.Label V), (∀ q ∈ qs, q.result = none) →
      (qs.flatMap fun q => (q.result.toList.flatMap Ret.received).map Prod.snd) = [] := by
    intro qs hqs
    refine List.flatMap_eq_nil_iff.mpr fun q hq => ?_
    rw [hqs q hq]
    rfl
  rcases ChannelMachine.step_cases cfg h with ⟨op, c, n, hs, -, rfl, rfl⟩ |
    ⟨k, pc, fail, o, hpc, ho, rfl, rfl⟩ | ⟨fail, c, n, hs, rfl, rfl⟩
  · obtain ⟨hv, hp⟩ := balanced_start hs
    refine ⟨?_, ?_⟩
    · rw [got, hgot _ (entered_result n.1), List.append_nil, hv]
      simp
    · rw [accepts, flatMap_result (entered_result n.1), hp]
      simp
  · have hqpc : (queueState s).pc t = pc := by simp [queueState, hpc, queuePc]
    obtain ⟨g', hg'⟩ := QueueInvariant.exec_steps hg (t := t) (hqpc ▸ ho)
    have hokt := hok t
    rw [hpc] at hokt
    obtain ⟨-, hret⟩ := exec_fits hokt.inside ho
    have hcalled := called_result cfg (k.next cfg o.2.1).1 o.2.1
    obtain ⟨hv, hp⟩ := balanced_next hret hg'.sound
    refine ⟨?_, ?_⟩
    · rw [got, List.flatMap_cons, hgot _ hcalled, List.append_nil, hpc]
      simp only [Function.update_self]
      exact hv
    · rw [accepts, List.flatMap_cons, flatMap_result hcalled, List.append_nil, hpc]
      simp only [Function.update_self]
      rw [show owed (.queue k pc : AgentPc Tid V) = 0 from rfl, Nat.zero_add]
      exact hp
  · obtain ⟨hv, hp⟩ := balanced_exec hs
    refine ⟨?_, ?_⟩
    · rw [got, hgot _ (entered_result n.1), List.append_nil, hv]
      simp
    · rw [accepts, flatMap_result (entered_result n.1), hp]
      simp

theorem ofThread_queueLog :
    ofThread u (queueLog τ) = (ofThread u τ).flatMap ChannelMachine.Label.queue :=
  ofThread_flatMap ChannelMachine.Label.queue τ

/-- Values an agent received from the queue, step by step. -/
theorem returned_values :
    (ofThread u (returned (queueLog τ))).map Prod.snd = (ofThread u τ).flatMap got := by
  rw [returned, ofThread_flatMap fun q : QueueMachine.Label V =>
    q.result.toList.flatMap Ret.received, ofThread_queueLog,
    List.flatMap_assoc, List.map_flatMap]
  refine List.flatMap_congr fun l _ => ?_
  rw [got, List.map_flatMap]

/-- Pushes of an agent that were accepted, step by step. -/
theorem accepted_length :
    (ofThread u (accepted (queueLog τ))).length = ((ofThread u τ).map accepts).sum := by
  rw [accepted, ofThread_flatMap fun q : QueueMachine.Label V =>
    q.result.toList.flatMap acceptedRet, ofThread_queueLog,
    List.flatMap_assoc, List.length_flatMap]
  rfl

/-- In every run, the values an agent received from the queue are those it
handed to its caller, in order, with those it carries; and the pushes of an
agent that were accepted are its sends that returned `Ok`, with those that are
about to. -/
theorem ledger (h : ChannelMachine.Reach cfg τ s) (u : Tid) :
    (ofThread u (returned (queueLog τ))).map Prod.snd = delivered u τ ++ carried (s.pc u) ∧
      (ofThread u (accepted (queueLog τ))).length = owed (s.pc u) + sentOk u τ := by
  rw [returned_values, accepted_length]
  refine h.invariant (P := fun τ s => (ofThread u τ).flatMap got = delivered u τ ++ carried (s.pc u) ∧
    ((ofThread u τ).map accepts).sum = owed (s.pc u) + sentOk u τ) ⟨rfl, rfl⟩ ?_
  rintro τ s ⟨t, l⟩ s' hr ⟨hv, hp⟩ hs
  obtain ⟨hq, hok⟩ := reach_queue hr
  obtain ⟨g, hg⟩ := QueueInvariant.reach_inv hq
  obtain ⟨hv', hp'⟩ := step_balanced hg hok hs
  by_cases hu : t = u
  · subst hu
    have hl : ofThread t (τ ++ [(t, l)]) = ofThread t τ ++ [l] := by
      rw [ofThread_append]
      exact congrArg _ (ofThread_self t [l])
    rw [delivered, sentOk, hl]
    simp only [List.flatMap_append, List.flatMap_singleton, List.map_append, List.map_cons,
      List.map_nil, List.sum_append, List.sum_singleton]
    rw [hv, hp, List.append_assoc, hv', List.append_assoc]
    refine ⟨rfl, ?_⟩
    rw [← sentOk]
    omega
  · have hl : ofThread u (τ ++ [(t, l)]) = ofThread u τ := by
      rw [ofThread_append, show ofThread u [(t, l)] = [] from ofThread_other hu [l], List.append_nil]
    rw [delivered, sentOk, hl, step_others cfg hs (Ne.symm hu)]
    exact ⟨hv, hp⟩

end Logs

end Rapidfire.ChannelLedger
