import Rapidfire.ChannelSleeper
import Rapidfire.ChannelLedger
import Rapidfire.QueueRest
import Rapidfire.QueueCapacity

/-!
# Conservation of messages

A message that is handed to a send stays with it until it is put into the queue,
given back or destroyed. A position of the queue is taken by one receive, which
returns its value. What nobody took is destroyed with the queue.
-/

namespace Rapidfire.ChannelMessages

open Positions QueueMemory QueuePush QueueMachine QueueHistory ChannelState ChannelMachine
  ChannelQueue ChannelWaiters ChannelTurns ChannelWakes Runs

variable {Tid V : Type} {cfg : Config Tid} {t u : Tid} {z : BlockSize}

/-- How a send ended: the message was accepted, given back, or destroyed with its
future. -/
inductive Fate (V : Type) where
  | accepted
  | returned (v : V)
  | destroyed
  deriving DecidableEq

/-- What a result says about the message of a send. -/
def fateOf : ChannelMachine.Ret V → Option (Fate V)
  | .trySend .ok | .send .ok => some .accepted
  | .trySend (.full v) | .trySend (.closed v) | .send (.full v) | .send (.closed v) =>
    some (.returned v)
  | _ => none

/-- Message handed over by a call. -/
def messageOf : ChannelMachine.Op V → Option V
  | .trySend v | .send v => some v
  | _ => none

/-- The sends of an agent: those that ended, in order, and the message of the one
it is in. -/
structure Account (V : Type) where
  ended : List (V × Fate V)
  current : Option V
  deriving DecidableEq

/-- The current send ends. -/
def Account.close (a : Account V) (f : Fate V) : Account V :=
  match a.current with
  | some v => ⟨a.ended ++ [(v, f)], none⟩
  | none => a

/-- Read a label of the agent. A message is destroyed when its future is dropped. -/
def Account.read (a : Account V) (l : ChannelMachine.Label V) : Account V :=
  match l.call with
  | some (.trySend v) | some (.send v) => ⟨a.ended, some v⟩
  | some .dropFuture => a.close .destroyed
  | _ =>
    match l.ret.bind fateOf with
    | some f => a.close f
    | none => a

/-- Messages an account lists as accepted. -/
def Account.accepted (a : Account V) : List V :=
  a.ended.filterMap fun x => match x.2 with
    | .accepted => some x.1
    | _ => none

/-- Where the message of a send is: nowhere, with the agent, or in the queue. -/
inductive Stage (V : Type) where
  | clear
  | holds (v : V)
  | posted

/-- Stage of an agent that unregisters or notifies. -/
def Kont.stage : Kont V → Stage V
  | .sendFirst v | .sendReady (.full v) | .sendReady (.closed v) => .holds v
  | .sent _ | .sendReady .ok => .posted
  | _ => .clear

/-- Stage of the send an agent is in. -/
def stage (z : BlockSize) : AgentPc Tid V → Stage V
  | .sending v _ | .trySend _ v | .registerSender v | .queue (.parkSender _ v) _ => .holds v
  | .queue (.push _ _) (.push pc) =>
    match pushOffer z pc with
    | v :: _ => .holds v
    | [] => .posted
  | .unregister _ _ k | .unregisterLocked _ _ _ k | .notify _ _ k | .waking _ k => Kont.stage k
  | _ => .clear

/-- What a step does to the message of its agent, by what it shows: the call, the
values it claims a position for, and the result. -/
inductive Moves : Stage V → Option (ChannelMachine.Op V) → List V →
    Option (ChannelMachine.Ret V) → Stage V → Prop where
  | clear (call : Option (ChannelMachine.Op V)) (r : Option (ChannelMachine.Ret V)) :
      call.bind messageOf = none → Moves .clear call [] r .clear
  | takesOver (op : ChannelMachine.Op V) (v : V) : messageOf op = some v →
      Moves .clear (some op) [] none (.holds v)
  | keeps (v : V) (call : Option (ChannelMachine.Op V)) : call = none ∨ call = some .poll →
      Moves (.holds v) call [] none (.holds v)
  | pending (v : V) : Moves (.holds v) none [] (some .pending) (.holds v)
  | givesBack (v : V) (r : ChannelMachine.Ret V) : fateOf r = some (.returned v) →
      Moves (.holds v) none [] (some r) .clear
  | drops (v : V) (r : Option (ChannelMachine.Ret V)) :
      Moves (.holds v) (some .dropFuture) [] r .clear
  | posts (v : V) : Moves (.holds v) none [v] none .posted
  | posted : Moves .posted none [] none .posted
  | ends (r : ChannelMachine.Ret V) : fateOf r = some .accepted →
      Moves .posted none [] (some r) .clear

section Local

/-- A push offers its value until it claims a position for it or gives it back. -/
theorem push_offers (q : Queue V) (flag : ℕ) (fail : Bool) {pc : PushPc V} {v : V}
    (h : pushOffer z pc = [v]) :
    (∃ pc', (pc.exec z flag fail q).2.1 = .goto pc' ∧
      (pushOffer z pc' = [v] ∧ claims (pc.exec z flag fail q).2.2 = [] ∨
        pushOffer z pc' = [] ∧ ∃ p, claims (pc.exec z flag fail q).2.2 = [(p, v)])) ∨
      (pc.exec z flag fail q).2.1 = .ret (.full v) ∧ claims (pc.exec z flag fail q).2.2 = [] := by
  cases pc with
  | loadContended w | boundedCached w cap tail | boundedHead w cap tail =>
    obtain rfl := List.singleton_inj.mp h
    simp only [PushPc.exec]
    split <;> simp [pushOffer, claims]
  | fetchAdd w expected =>
    obtain rfl := List.singleton_inj.mp h
    simp only [PushPc.exec]
    by_cases hv : offset z q.tail.index = blockCap z <;>
      simp only [hv, if_true, if_false] <;> split <;> simp [pushOffer, claims, IsValue, hv]
  | fetchAddContend w tail =>
    simp only [pushOffer] at h
    split at h
    · cases h
    · rename_i hv
      obtain rfl := List.singleton_inj.mp h
      have hs : offset z tail = blockCap z := by simpa [IsValue] using hv
      simp [PushPc.exec, hs, pushOffer, claims]
  | casTry w tail failed =>
    obtain rfl := List.singleton_inj.mp h
    simp only [PushPc.exec]
    (repeat' split) <;> simp [pushOffer, claims]
  | boundedLoad w cap | boundedSkip w cap tail | boundedTry w cap tail =>
    obtain rfl := List.singleton_inj.mp h
    simp only [PushPc.exec, boundedLoop]
    (repeat' split) <;> simp [pushOffer, claims]
  | fetchAddLoad w | casLoad w | boundedCache w cap tail head =>
    obtain rfl := List.singleton_inj.mp h
    simp [PushPc.exec, pushOffer, claims]
  | _ => cases h

/-- A push that has claimed goes on to return `Ok`. -/
theorem push_posted (q : Queue V) (flag : ℕ) (fail : Bool) {pc : PushPc V}
    (h : pushOffer z pc = []) :
    claims (pc.exec z flag fail q).2.2 = [] ∧
      (∀ pc', (pc.exec z flag fail q).2.1 = .goto pc' → pushOffer z pc' = []) ∧
      ∀ v, (pc.exec z flag fail q).2.1 ≠ .ret (.full v) := by
  cases pc with
  | fetchAddContend w tail =>
    simp only [pushOffer] at h
    split at h
    · rename_i hv
      have hs : offset z tail ≠ blockCap z := hv
      simp [PushPc.exec, hs, pushOffer, claims]
    · cases h
  | casLevel w tail failed | findStart c block | slowStart c block | slowPrev c block
  | takeSpare c block | resetMark c block next i =>
    simp only [PushPc.exec, found]
    (repeat' split) <;> simp [pushOffer, claims]
  | takePool c block =>
    simp only [PushPc.exec, takeBlockSlow]
    split <;> simp [pushOffer, claims]
  | casContend w tail level | sample w tail | findBlock c | slowBlock c | resetStart c block next
  | allocate c block | storePrev c block next | storeNext c block next | storeStart c block next
  | linkNext c block next | storeTail c block next | writeValue c block | publish c block =>
    simp [PushPc.exec, pushOffer, claims]
  | _ => cases h

/-- A step may leave the message where it is. -/
theorem moves_stays (m : Stage V) : Moves m none [] none m := by
  cases m with
  | clear => exact .clear none none rfl
  | holds v => exact .keeps v none (.inl rfl)
  | posted => exact .posted

theorem resumes_moves {k : Kont V} {n : Goes Tid V} (h : Resumes cfg k n) :
    Moves (Kont.stage k) none [] n.2 (stage z n.1) := by
  induction h with
  | sendFirst v => exact .keeps v none (.inl rfl)
  | sentCall | sentFirst => exact .ends _ rfl
  | sentSecond id => exact .posted
  | receivedFirst many v n _ ih => exact ih
  | sendReady r =>
    cases r with
    | ok => exact .ends _ rfl
    | full v | closed v => exact .givesBack v _ rfl
  | _ => exact .clear none _ rfl

theorem wakeAll_moves (wakers : List (Waker Tid)) (k : Kont V) :
    Moves (Kont.stage k) none [] (wakeAll cfg wakers k).2 (stage z (wakeAll cfg wakers k).1) := by
  rcases wakeAll_cases cfg wakers k with ⟨-, hr⟩ | ⟨-, hw⟩
  · exact resumes_moves hr
  · rw [hw]
    exact moves_stays _

end Local

section Steps

variable [DecidableEq Tid] {s s' : ChannelMachine.State Tid V} {l : ChannelMachine.Label V}
  {τ : List (Tid × ChannelMachine.Label V)}

/-- Values a step claims a position for. -/
def posts (l : ChannelMachine.Label V) : List V :=
  l.queue.flatMap fun q => (claims q.effect).map Prod.snd

omit [DecidableEq Tid] in
/-- Entering the queue claims nothing. -/
theorem posts_entered (pc : AgentPc Tid V) :
    ((entered cfg pc).flatMap fun q => (claims q.effect).map Prod.snd) = [] := by
  cases pc <;> rfl

omit [DecidableEq Tid] in
theorem posts_called (pc : AgentPc Tid V) (n : Next (Pc V) (QueueMachine.Ret V)) :
    ((called cfg pc n).flatMap fun q => (claims q.effect).map Prod.snd) = [] := by
  cases n with
  | ret r => exact posts_entered pc
  | _ => rfl

/-- Starting an operation hands a message over, drops a future, or leaves the
message where it is. -/
theorem moves_start {c c' : Shared Tid V} {pc : AgentPc Tid V} {op : ChannelMachine.Op V}
    {n : Goes Tid V} (h : Starts cfg c t pc op c' n) :
    Moves (stage cfg.size pc) (some op) [] n.2 (stage cfg.size n.1) := by
  cases h with
  | trySend v | send v => exact .takesOver _ v rfl
  | pollSend v | repollSend v id => exact .keeps v _ (.inr rfl)
  | dropSend v id | dropFreshSend v => exact .drops v _
  | pollRecv many =>
    cases many with
    | none => exact .clear _ _ rfl
    | some limit =>
      simp only [firstPoll]
      split <;> exact .clear _ _ rfl
  | _ => exact .clear _ _ rfl

/-- A step outside the queue leaves the message with the agent or gives it back. -/
theorem moves_acts {c c' : Shared Tid V} {pc : AgentPc Tid V} {n : Goes Tid V}
    (h : Acts cfg c t pc c' n) : Moves (stage cfg.size pc) none [] n.2 (stage cfg.size n.1) := by
  cases h with
  | sendOpen k v _ =>
    have hstage : stage cfg.size (enter cfg (.push k v) : AgentPc Tid V) = .holds v := by
      unfold enter QueueK.op Op.entry PushPc.entry
      cases cfg.capacity <;> rfl
    simp only [hstage]
    exact .keeps v none (.inl rfl)
  | sendClosedCall v _ | sendClosedFirst v _ => exact .givesBack v _ rfl
  | sendClosedSecond id v _ => exact .keeps v none (.inl rfl)
  | readsZero side id k n _ hr | wokeNone k n hr | wokeLast w k n hr => exact resumes_moves hr
  | readsWaiters side id k _ | woke w wakers k _ =>
    exact moves_stays (Kont.stage k)
  | appends v limit n hr => exact resumes_moves hr
  | _ => exact .clear none _ rfl

omit [DecidableEq Tid] in
/-- A section of a waiter list leaves the message with the agent. -/
theorem moves_locked {c c' : Shared Tid V} {side : Side} {pc : AgentPc Tid V} {n : Goes Tid V}
    (h : Locked cfg c t side pc c' n) :
    Moves (stage cfg.size pc) none [] n.2 (stage cfg.size n.1) := by
  cases h with
  | registerSender v => exact .keeps v none (.inl rfl)
  | registerReceiver many => exact .clear none none rfl
  | remove side id forward k _ => exact resumes_moves (resumes_resume k)
  | absent side id forward k _ =>
    cases forward with
    | true => exact moves_stays (Kont.stage k)
    | false => exact resumes_moves (resumes_resume k)
  | notifyMany side limit k => exact wakeAll_moves _ k
  | notifyAll side k => exact wakeAll_moves _ k

omit [DecidableEq Tid] in
/-- A push offers at most its value. -/
theorem pushOffer_cases (pc : PushPc V) : pushOffer z pc = [] ∨ ∃ v, pushOffer z pc = [v] := by
  cases pc with
  | fetchAddContend v tail =>
    by_cases hv : IsValue z tail
    · exact .inl (by simp [pushOffer, hv])
    · exact .inr ⟨v, by simp [pushOffer, hv]⟩
  | loadContended v | fetchAddLoad v | fetchAdd v _ | casLoad v | casTry v _ _
  | boundedLoad v _ | boundedSkip v _ _ | boundedCached v _ _ | boundedHead v _ _
  | boundedCache v _ _ _ | boundedTry v _ _ => exact .inr ⟨v, rfl⟩
  | _ => exact .inl rfl

omit [DecidableEq Tid] in
theorem stage_offers {k : SendK} {v w : V} {pc : PushPc V} (h : pushOffer z pc = [w]) :
    stage z (.queue (.push k v) (.push pc) : AgentPc Tid V) = .holds w := by
  simp only [stage, h]

omit [DecidableEq Tid] in
theorem stage_posted {k : SendK} {v : V} {pc : PushPc V} (h : pushOffer z pc = []) :
    stage z (.queue (.push k v) (.push pc) : AgentPc Tid V) = .posted := by
  simp only [stage, h]

omit [DecidableEq Tid] in
/-- An access of a push puts the message into the queue, gives it back, or leaves
it where it is. -/
theorem moves_push (cfg : Config Tid) {k : SendK} {v : V} {pc : PushPc V} {q : Queue V} {flag : ℕ}
    {fail : Bool} {n : Goes Tid V}
    (hgoto : ∀ pc', (pc.exec z flag fail q).2.1 = .goto pc' →
      n = (.queue (.push k v) (.push pc'), none))
    (hret : ∀ r, (pc.exec z flag fail q).2.1 = .ret r → Finishes cfg (.push k v) (.push r) n)
    (hfault : (pc.exec z flag fail q).2.1 ≠ .fault) :
    Moves (stage z (.queue (.push k v) (.push pc) : AgentPc Tid V)) none
      ((claims (pc.exec z flag fail q).2.2).map Prod.snd) n.2 (stage z n.1) := by
  rcases pushOffer_cases (z := z) pc with hoffer | ⟨w, hoffer⟩
  · obtain ⟨hclaims, hnext, hfull⟩ := push_posted q flag fail hoffer
    rw [hclaims, stage_posted hoffer]
    cases hn : (pc.exec z flag fail q).2.1 with
    | goto pc' =>
      rw [hgoto pc' hn, stage_posted (hnext pc' hn)]
      exact .posted
    | ret r =>
      have hends := hret r hn
      have hnot : ∀ x, r ≠ .full x := fun x hx => hfull x (hx ▸ hn)
      cases hends with
      | sent k v tail n hr => exact resumes_moves hr
      | sentWake k v tail => exact .posted
      | fullCall v x | fullFirst v x | fullSecond id v x => exact absurd rfl (hnot x)
    | fault => exact absurd hn hfault
  · rw [stage_offers hoffer]
    rcases push_offers q flag fail hoffer with
      ⟨pc', hn, ⟨hkeeps, hclaims⟩ | ⟨hposted, p, hclaims⟩⟩ | ⟨hn, hclaims⟩
    · rw [hgoto pc' hn, hclaims, stage_offers hkeeps]
      exact .keeps w none (.inl rfl)
    · rw [hgoto pc' hn, hclaims, stage_posted hposted]
      exact .posts w
    · have hends := hret _ hn
      rw [hclaims]
      cases hends with
      | fullCall => exact .givesBack w _ rfl
      | fullFirst => exact .keeps w none (.inl rfl)
      | fullSecond id => exact .pending w

omit [DecidableEq Tid] in
/-- Without a call an agent takes no message over. -/
theorem Moves.clear_of_clear {values : List V} {r : Option (ChannelMachine.Ret V)} {m : Stage V}
    (h : Moves .clear none values r m) : m = .clear := by
  cases h
  rfl

omit [DecidableEq Tid] in
/-- A receive, and a reading of the counters, ends without a message to send. -/
theorem clear_finishes {k : QueueK V} {r : QueueMachine.Ret V} {n : Goes Tid V}
    (h : Finishes cfg k r n) (hp : ∀ j v, k ≠ .push j v) (hs : ∀ id v, k ≠ .parkSender id v) :
    stage z n.1 = .clear := by
  cases h with
  | sent k v | sentWake k v | fullCall v | fullFirst v | fullSecond _ v => exact absurd rfl (hp _ v)
  | senderParked id v head => exact absurd rfl (hs id v)
  | received k r v n hpop hr => exact (resumes_moves hr).clear_of_clear
  | drainedFirst many n hr => exact (resumes_moves hr).clear_of_clear
  | batch many head values n hr => exact (resumes_moves hr).clear_of_clear
  | busySecond id tail wait many n ha | claimsBelow id tail wait many n ha => cases ha <;> rfl
  | _ => rfl

omit [DecidableEq Tid] in
/-- An agent in the queue pushes, registers a send, or has no message. -/
theorem stage_queue {k : QueueK V} {pc : Pc V} (hf : Fits k pc) :
    (∃ j v pc', k = .push j v ∧ pc = .push pc') ∨
      (∃ id v r, k = .parkSender id v ∧ pc = .read r) ∨
      (∀ pc', stage z (.queue k pc' : AgentPc Tid V) = .clear) ∧ ∀ pc', pc ≠ .push pc' := by
  cases hf with
  | push j v pc' => exact .inl ⟨j, v, pc', rfl, rfl⟩
  | parkSender id v => exact .inr (.inl ⟨id, v, _, rfl, rfl⟩)
  | _ => exact .inr (.inr ⟨fun _ => rfl, nofun⟩)

omit [DecidableEq Tid] in
/-- An access of a queue operation puts the message into the queue, gives it back,
or leaves it where it is. -/
theorem moves_access {k : QueueK V} {pc : Pc V} {q : Queue V} {flag : ℕ} {fail : Bool}
    {o : Outcome V (Pc V) (QueueMachine.Ret V)} (hf : Fits k pc)
    (ho : pc.exec cfg flag fail q = some o)
    (ha : Accounts cfg.size pc o.2.2 (nextRet o.2.1) (nextPc o.2.1))
    (hends : (∃ pc', o.2.1 = .goto pc' ∧ k.next cfg o.2.1 = (.queue k pc', none)) ∨
      ∃ r, o.2.1 = .ret r ∧ FitsRet k r ∧ Finishes cfg k r (k.next cfg o.2.1)) :
    Moves (stage cfg.size (.queue k pc : AgentPc Tid V)) none ((claims o.2.2).map Prod.snd)
      (k.next cfg o.2.1).2 (stage cfg.size (k.next cfg o.2.1).1) := by
  have hquiet : (∀ pc', pc ≠ .push pc') → (claims o.2.2).map Prod.snd = [] := by
    intro hp
    have hoffer := ha.offer
    have hnone : QueueHistory.offer cfg.size pc = [] := by
      cases pc with
      | push pc' => exact absurd rfl (hp pc')
      | _ => rfl
    rw [hnone, List.sublist_nil, List.append_eq_nil_iff] at hoffer
    exact hoffer.1
  generalize k.next cfg o.2.1 = n at hends ⊢
  have hcases : _ ∨ _ ∨ (∀ pc', stage cfg.size (.queue k pc' : AgentPc Tid V) = .clear) ∧ _ :=
    stage_queue hf
  rcases hcases with ⟨j, v, pc', rfl, rfl⟩ | ⟨id, v, r, rfl, rfl⟩ | ⟨hclear, hnot⟩
  · rw [Pc.exec, Option.some.injEq] at ho
    subst ho
    refine moves_push cfg ?_ ?_ ?_
    · intro pc'' hn
      rcases hends with ⟨p, hp, hnext⟩ | ⟨r, hr, -⟩
      · simp only [hn, Next.map, Next.goto.injEq] at hp
        rw [hnext, ← hp]
      · simp [hn, Next.map] at hr
    · intro r hn
      rcases hends with ⟨p, hp, -⟩ | ⟨r', hr, -, hfin⟩
      · simp [hn, Next.map] at hp
      · simp only [hn, Next.map, Next.ret.injEq] at hr
        rwa [← hr] at hfin
    · intro hn
      rcases hends with ⟨p, hp, -⟩ | ⟨r', hr, -⟩
      · simp [hn, Next.map] at hp
      · simp [hn, Next.map] at hr
  · rw [hquiet (by simp)]
    rcases hends with ⟨p, -, rfl⟩ | ⟨r', -, -, hfin⟩
    · exact .keeps v none (.inl rfl)
    · cases hfin
      exact .keeps v none (.inl rfl)
  · rw [hquiet hnot, hclear pc]
    rcases hends with ⟨p, -, rfl⟩ | ⟨r', -, -, hfin⟩
    · rw [hclear p]
      exact .clear none none rfl
    · rw [clear_finishes hfin (fun j v hk => ?_) (fun id v hk => ?_)]
      · exact .clear none _ rfl
      · subst hk
        cases hf
        exact hnot _ rfl
      · subst hk
        simpa [stage] using hclear pc

/-- Every step moves the message of its agent as it shows. -/
theorem step_moves (h : ChannelMachine.Reach cfg τ s) (hs : ChannelMachine.Step cfg s (t, l) s') :
    Moves (stage cfg.size (s.pc t)) l.call (posts l) l.ret (stage cfg.size (s'.pc t)) := by
  obtain ⟨hq, hok⟩ := reach_queue h
  rcases turns hq hok hs with ⟨op, c, n, hst, -, rfl, rfl⟩ | ⟨c, n, hact, rfl, rfl⟩ |
    ⟨side, c, n, hl, rfl, rfl⟩ | ⟨k, pc, fail, o, hpc, ho, rfl, rfl, hends⟩
  · simp only [Function.update_self, posts, posts_entered]
    exact moves_start hst
  · simp only [Function.update_self, posts, posts_entered]
    exact moves_acts hact
  · simp only [Function.update_self, posts, posts_entered]
    exact moves_locked hl
  · obtain ⟨g, hg⟩ := QueueInvariant.reach_inv hq
    obtain ⟨g', -, ha⟩ := queue_access hg hpc ho
    have hin := (hok t).inside
    rw [hpc] at hin
    simp only [Function.update_self, posts, List.flatMap_cons, posts_called, List.append_nil, hpc]
    exact moves_access hin ho ha hends

end Steps

section Accounts

variable {a : Account V} {m m' : Stage V} {messages posted : List V}
  {l : ChannelMachine.Label V}

/-- An account agrees with the stage of its agent: it lists every message handed
over, a message given back is the one handed over, and the messages put into the
queue are the accepted ones, with the current one if it is there. -/
structure Agrees (m : Stage V) (messages posted : List V) (a : Account V) : Prop where
  handed : messages = a.ended.map Prod.fst ++ a.current.toList
  back : ∀ x ∈ a.ended, ∀ w, x.2 = .returned w → w = x.1
  current : match m with
    | .clear => a.current = none ∧ posted = a.accepted
    | .holds v => a.current = some v ∧ posted = a.accepted
    | .posted => ∃ v, a.current = some v ∧ posted = a.accepted ++ [v]

/-- Without a call or a result of a send, the account stays. -/
theorem read_quiet (hc : l.call.bind messageOf = none) (hd : l.call ≠ some .dropFuture)
    (hr : l.ret.bind fateOf = none) : a.read l = a := by
  unfold Account.read
  split
  · rename_i v hl
    simp [hl, messageOf] at hc
  · rename_i v hl
    simp [hl, messageOf] at hc
  · rename_i hl
    exact absurd hl hd
  · simp [hr]

/-- Without a current send, no result ends one. -/
theorem read_idle (hc : l.call.bind messageOf = none) (hn : a.current = none) : a.read l = a := by
  have hclose : ∀ f, a.close f = a := fun f => by simp [Account.close, hn]
  unfold Account.read
  split
  · rename_i v hl
    simp [hl, messageOf] at hc
  · rename_i v hl
    simp [hl, messageOf] at hc
  · exact hclose _
  · split
    · exact hclose _
    · rfl

/-- A result of a send ends the current one. -/
theorem read_ends {f : Fate V} (hc : l.call = none) (hr : l.ret.bind fateOf = some f) :
    a.read l = a.close f := by
  simp [Account.read, hc, hr]

theorem close_of_current {v : V} (f : Fate V) (h : a.current = some v) :
    a.close f = ⟨a.ended ++ [(v, f)], none⟩ := by
  simp [Account.close, h]

/-- Ending the current send with a result that fits. -/
theorem Agrees.close {v : V} {f : Fate V} (h : Agrees m messages posted a) (hv : a.current = some v)
    (hf : ∀ w, f = .returned w → w = v)
    (hp : posted = (Account.mk (a.ended ++ [(v, f)]) none).accepted) :
    Agrees .clear messages posted (a.close f) := by
  rw [close_of_current f hv]
  refine ⟨?_, ?_, rfl, hp⟩
  · simpa [hv] using h.handed
  · intro x hx w hw
    rcases List.mem_append.mp hx with hx | hx
    · exact h.back x hx w hw
    · obtain rfl := List.mem_singleton.mp hx
      exact hf w hw

/-- A step keeps the account in agreement. -/
theorem Agrees.step (h : Agrees m messages posted a) (hm : Moves m l.call (posts l) l.ret m') :
    Agrees m' (messages ++ (l.call.bind messageOf).toList) (posted ++ posts l) (a.read l) := by
  obtain ⟨queue, call, ret, flip⟩ := l
  generalize posts ⟨queue, call, ret, flip⟩ = values at hm ⊢
  cases hm with
  | clear call r hc =>
    rw [read_idle hc h.current.1]
    simp only [hc, Option.toList_none, List.append_nil]
    exact h
  | takesOver op v hop =>
    have hread : a.read ⟨queue, some op, none, flip⟩ = ⟨a.ended, some v⟩ := by
      cases op <;> cases hop <;> rfl
    rw [hread]
    refine ⟨?_, h.back, rfl, ?_⟩
    · rw [h.handed, h.current.1]
      simp [hop]
    · simpa [Account.accepted] using h.current.2
  | keeps v call hcall =>
    have hc : call.bind messageOf = none := by rcases hcall with rfl | rfl <;> rfl
    rw [read_quiet hc (by rcases hcall with rfl | rfl <;> simp) rfl]
    simp only [hc, Option.toList_none, List.append_nil]
    exact h
  | pending v =>
    rw [read_quiet rfl (by simp) rfl]
    simpa using h
  | givesBack v r hr =>
    have hread : a.read ⟨queue, none, some r, flip⟩ = a.close (.returned v) := read_ends rfl hr
    rw [hread]
    refine Agrees.close (by simpa using h) h.current.1 (fun w hw => (Fate.returned.inj hw).symm) ?_
    simpa [Account.accepted] using h.current.2
  | drops v r =>
    refine Agrees.close (by simpa [messageOf] using h) h.current.1 nofun ?_
    simpa [Account.accepted] using h.current.2
  | posts v =>
    rw [read_quiet rfl (by simp) rfl]
    refine ⟨by simpa using h.handed, h.back, v, h.current.1, ?_⟩
    rw [h.current.2]
  | posted =>
    rw [read_quiet rfl (by simp) rfl]
    simpa using h
  | ends r hr =>
    obtain ⟨v, hv, hp⟩ := h.current
    have hread : a.read ⟨queue, none, some r, flip⟩ = a.close .accepted := read_ends rfl hr
    rw [hread]
    refine Agrees.close (by simpa using h) hv nofun ?_
    simpa [Account.accepted] using hp

end Accounts

section Runs

variable [DecidableEq Tid] {s s' : ChannelMachine.State Tid V} {l : ChannelMachine.Label V}
  {τ : List (Tid × ChannelMachine.Label V)}

/-- Messages an agent handed to its sends, in order. -/
def messages (u : Tid) (τ : List (Tid × ChannelMachine.Label V)) : List V :=
  (ofThread u τ).flatMap fun l => (l.call.bind messageOf).toList

/-- The sends of an agent. -/
def account (u : Tid) (τ : List (Tid × ChannelMachine.Label V)) : Account V :=
  (ofThread u τ).foldl Account.read ⟨[], none⟩

/-- Values an agent put into the queue, in order: those it claimed a position for. -/
def posted (u : Tid) (τ : List (Tid × ChannelMachine.Label V)) : List V :=
  (ofThread u (claimed (queueLog τ))).map Prod.snd

theorem posted_eq : posted u τ = (ofThread u τ).flatMap posts := by
  rw [posted, claimed, ChannelLedger.ofThread_flatMap fun q : QueueMachine.Label V =>
    claims q.effect, ChannelLedger.ofThread_queueLog, List.flatMap_assoc, List.map_flatMap]
  refine List.flatMap_congr fun l _ => ?_
  rw [posts, List.map_flatMap]

/-- In every run the account of an agent agrees with its stage. -/
theorem account_agrees (h : ChannelMachine.Reach cfg τ s) (u : Tid) :
    Agrees (stage cfg.size (s.pc u)) (messages u τ) (posted u τ) (account u τ) := by
  rw [posted_eq]
  refine h.invariant (P := fun τ s => Agrees (stage cfg.size (s.pc u)) (messages u τ)
    ((ofThread u τ).flatMap posts) (account u τ)) ?_ ?_
  · exact { handed := rfl, back := nofun, current := ⟨rfl, rfl⟩ }
  · rintro τ s ⟨t, l⟩ s' hr ih hs
    rw [messages, account] at ih ⊢
    rw [ofThread_append, List.flatMap_append, List.flatMap_append, List.foldl_append]
    by_cases hu : t = u
    · subst hu
      have hself : ofThread t [(t, l)] = [l] := ofThread_self t [l]
      rw [hself]
      simpa using ih.step (step_moves hr hs)
    · have hother : ofThread u [(t, l)] = [] := ofThread_other hu [l]
      rw [hother, step_others cfg hs (Ne.symm hu)]
      simpa using ih

end Runs

section Cancelled

variable [DecidableEq Tid] {s s' : ChannelMachine.State Tid V} {l : ChannelMachine.Label V}
  {τ : List (Tid × ChannelMachine.Label V)}

/-- An agent that drops a future of a receive. -/
inductive Leaving : AgentPc Tid V → Prop where
  | unregisters (id : ℕ) : Leaving (.unregisterLocked .receivers id true (.dropped .receivers))
  | notifies : Leaving (.notify .receivers (some 1) (.dropped .receivers))
  | wakes (wakers : List (Waker Tid)) : Leaving (.waking wakers (.dropped .receivers))
  | gone : Leaving .idle

/-- A step that receives nothing. -/
def ReceivesNothing (l : ChannelMachine.Label V) : Prop :=
  l.queue = [] ∧ (l.ret = none ∨ l.ret = some .dropped)

/-- The drop of a future goes on, or ends. -/
def GoesLeaving (n : Goes Tid V) : Prop := Leaving n.1 ∧ (n.2 = none ∨ n.2 = some .dropped)

omit [DecidableEq Tid] in
theorem leaving_resumes {n : Goes Tid V} (h : Resumes cfg (.dropped .receivers) n) :
    GoesLeaving n := by
  cases h
  exact ⟨.gone, .inr rfl⟩

omit [DecidableEq Tid] in
theorem leaving_wakeAll (wakers : List (Waker Tid)) :
    GoesLeaving (wakeAll cfg wakers (.dropped .receivers : Kont V)) := by
  rcases wakeAll_cases cfg wakers (.dropped .receivers : Kont V) with ⟨-, hr⟩ | ⟨-, hw⟩
  · exact leaving_resumes hr
  · rw [hw]
    exact ⟨.wakes wakers, .inl rfl⟩

theorem leaving_acts {c c' : Shared Tid V} {pc : AgentPc Tid V} {n : Goes Tid V}
    (h : Acts cfg c t pc c' n) (hl : Leaving pc) : GoesLeaving n := by
  cases hl with
  | wakes wakers =>
    cases h with
    | wokeNone k n hr => exact leaving_resumes hr
    | wokeLast w k n hr => exact leaving_resumes hr
    | woke w wakers k _ => exact ⟨.wakes wakers, .inl rfl⟩
  | _ => cases h

omit [DecidableEq Tid] in
theorem leaving_locked {c c' : Shared Tid V} {side : Side} {pc : AgentPc Tid V} {n : Goes Tid V}
    (h : Locked cfg c t side pc c' n) (hl : Leaving pc) : GoesLeaving n := by
  cases hl with
  | unregisters id =>
    cases h with
    | remove side id forward k _ => exact ⟨.gone, .inr rfl⟩
    | absent side id forward k _ => exact ⟨.notifies, .inl rfl⟩
  | notifies =>
    cases h with
    | notifyMany side limit k => exact leaving_wakeAll _
  | _ => cases h

/-- A step of the drop of a future receives nothing. -/
theorem leaving_step (h : ChannelMachine.Reach cfg τ s) (hs : ChannelMachine.Step cfg s (t, l) s')
    (hl : Leaving (s.pc t)) (hc : l.call = none) : Leaving (s'.pc t) ∧ ReceivesNothing l := by
  obtain ⟨hq, hok⟩ := reach_queue h
  have hends : ∀ n : Goes Tid V, GoesLeaving n →
      Leaving n.1 ∧ entered cfg n.1 = [] ∧ (n.2 = none ∨ n.2 = some .dropped) := by
    rintro ⟨pc, r⟩ ⟨hpc, hr⟩
    refine ⟨hpc, ?_, hr⟩
    cases hpc <;> rfl
  rcases turns hq hok hs with ⟨op, c, n, hst, -, rfl, rfl⟩ | ⟨c, n, hact, rfl, rfl⟩ |
    ⟨side, c, n, hlock, rfl, rfl⟩ | ⟨k, pc, fail, o, hpc, -⟩
  · cases hc
  · simp only [Function.update_self]
    exact hends n (leaving_acts hact hl)
  · simp only [Function.update_self]
    exact hends n (leaving_locked hlock hl)
  · rw [hpc] at hl
    cases hl

/-- Dropping a future of a receive receives nothing, from its first step on. -/
theorem cancelled_step (h : ChannelMachine.Reach cfg τ s)
    (hs : ChannelMachine.Step cfg s (u, l) s') {id many : Option ℕ}
    (hpc : s.pc u = .receiving id many) (hc : l.call = some .dropFuture) :
    Leaving (s'.pc u) ∧ ReceivesNothing l := by
  obtain ⟨hq, hok⟩ := reach_queue h
  rcases turns hq hok hs with ⟨op, c, n, hst, -, rfl, rfl⟩ | ⟨c, n, hact, rfl, rfl⟩ |
    ⟨side, c, n, hlock, rfl, rfl⟩ | ⟨k, pc, fail, o, hqpc, -, rfl, -⟩
  · obtain rfl : op = .dropFuture := Option.some.inj hc
    simp only [Function.update_self]
    rw [hpc] at hst
    cases hst with
    | dropRecv id many => exact ⟨.unregisters id, rfl, .inl rfl⟩
    | dropFreshRecv many => exact ⟨.gone, rfl, .inr rfl⟩
  · cases hc
  · cases hc
  · cases hc

/-- A dropped future of a receive receives nothing, as long as its agent starts
nothing else. -/
theorem cancelled_run (h : ChannelMachine.Reach cfg τ s) {τ' : List (Tid × ChannelMachine.Label V)}
    (hr : Run (ChannelMachine.Step cfg) s τ' s') (hl : Leaving (s.pc u))
    (hq : ∀ l ∈ ofThread u τ', l.call = none) :
    Leaving (s'.pc u) ∧ ∀ l ∈ ofThread u τ', ReceivesNothing l := by
  revert hq
  refine hr.invariant (P := fun τ' s' => (∀ l ∈ ofThread u τ', l.call = none) →
    Leaving (s'.pc u) ∧ ∀ l ∈ ofThread u τ', ReceivesNothing l) (fun _ => ⟨hl, nofun⟩) ?_
  rintro τ' m ⟨t, l⟩ m' hrun ih hs hq
  rw [ofThread_append] at hq ⊢
  obtain ⟨hleave, hnothing⟩ := ih fun l hl => hq l (List.mem_append_left _ hl)
  by_cases hu : t = u
  · subst hu
    have hself : ofThread t [(t, l)] = [l] := ofThread_self t [l]
    rw [hself] at hq ⊢
    have hcall := hq l (List.mem_append_right _ (List.mem_singleton_self l))
    obtain ⟨hleave', hl'⟩ := leaving_step (h.append hrun) hs hleave hcall
    refine ⟨hleave', fun x hx => ?_⟩
    rcases List.mem_append.mp hx with hx | hx
    · exact hnothing x hx
    · rwa [List.mem_singleton.mp hx]
  · have hother : ofThread u [(t, l)] = [] := ofThread_other hu [l]
    rw [hother, List.append_nil, step_others cfg hs (Ne.symm hu)]
    exact ⟨hleave, hnothing⟩

end Cancelled

section Received

variable [DecidableEq Tid] {s s' : ChannelMachine.State Tid V} {l : ChannelMachine.Label V}
  {τ : List (Tid × ChannelMachine.Label V)}

/-- Values a result hands to the caller of a receive, or leaves in its buffer. -/
def keptBy : ChannelMachine.Ret V → List V
  | .tryRecv (.ok v) | .recv (.ok v) => [v]
  | .recvMany (some values) => values
  | .unwound values _ => values
  | _ => []

/-- Value that is destroyed when the buffer of `recv_many` fails to grow. -/
def destroyedBy : ChannelMachine.Ret V → List V
  | .unwound _ lost => lost.toList
  | _ => []

/-- Values an agent has received. -/
def inHands (u : Tid) (τ : List (Tid × ChannelMachine.Label V)) : List V :=
  (ofThread u τ).flatMap fun l => l.ret.toList.flatMap keptBy

/-- Values destroyed on the way to an agent. -/
def spilled (u : Tid) (τ : List (Tid × ChannelMachine.Label V)) : List V :=
  (ofThread u τ).flatMap fun l => l.ret.toList.flatMap destroyedBy

/-- What an agent handed over is received or destroyed. -/
theorem delivered_perm (u : Tid) (τ : List (Tid × ChannelMachine.Label V)) :
    (ChannelLedger.delivered u τ).Perm (inHands u τ ++ spilled u τ) := by
  have hhanded : ∀ r : ChannelMachine.Ret V,
      ChannelLedger.handed r = keptBy r ++ destroyedBy r := by
    intro r
    cases r with
    | tryRecv r | recv r => cases r <;> rfl
    | recvMany values =>
      cases values with
      | none => rfl
      | some values => exact (List.append_nil values).symm
    | _ => rfl
  have hstep : ∀ l : ChannelMachine.Label V, l.ret.toList.flatMap ChannelLedger.handed =
      l.ret.toList.flatMap keptBy ++ l.ret.toList.flatMap destroyedBy := by
    intro l
    cases l.ret with
    | none => rfl
    | some r => simp [hhanded]
  rw [ChannelLedger.delivered, inHands, spilled, List.flatMap_congr fun l _ => hstep l]
  exact (List.flatMap_append_perm _ _ _).symm

/-- What a receiver has taken: positions, each with the value it was claimed for, that the queue
returned, and those in flight; the values are in its hands, carried by a call, or destroyed. -/
theorem received_accounts (h : ChannelMachine.Reach cfg τ s) (c : Tid) :
    ∃ received : List (ℕ × V), received ⊆ (claimed (queueLog τ)).map Prod.snd ∧
      ofThread c (taken (queueLog τ)) =
        received.map Prod.fst ++ inflight (queuePc (s.pc c)) ∧
      (received.map Prod.snd).Perm
        (inHands c τ ++ spilled c τ ++ ChannelLedger.carried (s.pc c)) := by
  obtain ⟨g, hg⟩ := ChannelQueue.reach_history h
  refine ⟨ofThread c (returned (queueLog τ)), ?_, hg.inflight c, ?_⟩
  · rintro ⟨p, v⟩ hx
    obtain ⟨t, ht⟩ := (hg.val p v).mp (hg.returned c p v (mem_ofThread.mp hx))
    exact List.mem_map.mpr ⟨(t, p, v), ht, rfl⟩
  · rw [(ChannelLedger.ledger h c).1]
    exact (delivered_perm c τ).append_right _

end Received

section Conservation

variable [DecidableEq Tid] {s : ChannelMachine.State Tid V}
  {τ : List (Tid × ChannelMachine.Label V)}

/-- Conservation of messages, in any run. The account of an agent lists every
message it handed to a send; a message given back is the one handed over, and the
messages an agent put into the queue are those of its sends that returned `Ok`,
with the current one if it is there. The queue has one position for each, and the
positions taken are the first ones. What a receiver took is in its hands, with a
call of it, or destroyed. A dropped future of a receive takes nothing. Without an
operation in flight, dropping the queue destroys what nobody took, each value once. -/
theorem messages_conserved (h : ChannelMachine.Reach cfg τ s) :
    (∀ u, Agrees (stage cfg.size (s.pc u)) (messages u τ) (posted u τ) (account u τ)) ∧
    ((claimed (queueLog τ)).map fun c => c.2.1).Nodup ∧
    ((taken (queueLog τ)).map Prod.snd <+: (claimed (queueLog τ)).map fun c => c.2.1) ∧
    (∀ c, ∃ received : List (ℕ × V), received ⊆ (claimed (queueLog τ)).map Prod.snd ∧
      ofThread c (taken (queueLog τ)) = received.map Prod.fst ++ inflight (queuePc (s.pc c)) ∧
      (received.map Prod.snd).Perm
        (inHands c τ ++ spilled c τ ++ ChannelLedger.carried (s.pc c))) ∧
    (∀ u l m τ' s' id many, s.pc u = .receiving id many →
      ChannelMachine.Step cfg s (u, l) m → l.call = some .dropFuture →
      Run (ChannelMachine.Step cfg) m τ' s' → (∀ l' ∈ ofThread u τ', l'.call = none) →
      ∀ l' ∈ l :: ofThread u τ', l'.queue = [] ∧ (l'.ret = none ∨ l'.ret = some .dropped)) ∧
    ((∀ u, queuePc (s.pc u) = .idle) →
      ∃ blocks, QueueBlocks.dropQueue cfg.size s.shared.queue =
        some ((QueueRest.unread (queueLog τ)).map fun c => some c.2, blocks)) := by
  obtain ⟨hq, -⟩ := reach_queue h
  obtain ⟨g, hg⟩ := ChannelQueue.reach_history h
  refine ⟨account_agrees h, ?_, QueueRest.taken_prefix hg, received_accounts h, ?_, ?_⟩
  · rw [hg.claimed]
    exact (valuePositions_pairwise _).imp Nat.ne_of_lt
  · intro u l m τ' s' id many hpc hs hc hr hquiet l' hl'
    obtain ⟨hleave, hnothing⟩ := cancelled_step h hs hpc hc
    rcases List.mem_cons.mp hl' with rfl | hl'
    · exact hnothing
    · exact (cancelled_run (h.tail hs) hr hleave hquiet).2 l' hl'
  · intro hidle
    obtain ⟨values, blocks, hdrop, -⟩ := QueueBlocks.drop_releases hg.inv hidle
    refine ⟨blocks, ?_⟩
    rw [QueueBlocks.dropQueue, Option.map_eq_some_iff] at hdrop ⊢
    obtain ⟨released, hreleased, hpair⟩ := hdrop
    refine ⟨released, hreleased, ?_⟩
    obtain ⟨-, rfl⟩ := Prod.mk.inj hpair
    exact congrArg (·, released) (QueueRest.dropped_values hq hg hidle)

/-- A bounded channel: 7 is sent and received, 5 is sent, and a send of 8 that finds
the queue full is dropped while it waits. -/
def sendAndCancel : List (Fin 2 × ChannelMachine.Choice ℕ) :=
  (0, .call (.trySend 7)) :: List.replicate 9 (0, .run false) ++
  (1, .call .tryRecv) :: List.replicate 7 (1, .run false) ++
  (0, .call (.trySend 5)) :: List.replicate 11 (0, .run false) ++
  (0, .call (.send 8)) :: (0, .call .poll) :: List.replicate 10 (0, .run false) ++
  [(0, .call .dropFuture), (0, .run false)]

/-- In that run 8 is destroyed with its future, and dropping the queue destroys 5. -/
theorem messages_conserved_of_sendAndCancel :
    ∃ (τ : List (Fin 2 × ChannelMachine.Label ℕ)) (s : ChannelMachine.State (Fin 2) ℕ),
      ChannelMachine.Reach QueueCapacity.single τ s ∧
      account 0 τ = ⟨[(7, .accepted), (5, .accepted), (8, .destroyed)], none⟩ ∧
      posted 0 τ = [7, 5] ∧ inHands 1 τ = [7] ∧
      ∃ blocks, QueueBlocks.dropQueue .small s.shared.queue = some ([some 5], blocks) := by
  have h : ((ChannelMachine.State.init (Fin 2) ℕ).runs QueueCapacity.single sendAndCancel).map
      (fun r => ((account 0 r.1, posted 0 r.1), (inHands 1 r.1, QueueRest.unread (queueLog r.1)),
        (queuePc (r.2.pc 0)).isIdle, (queuePc (r.2.pc 1)).isIdle)) =
        some ((⟨[(7, .accepted), (5, .accepted), (8, .destroyed)], none⟩, [7, 5]), ([7], [(1, 5)]),
          true, true) := by
    decide +kernel
  obtain ⟨⟨τ, s⟩, hrun, h⟩ := Option.map_eq_some_iff.mp h
  simp only [Prod.mk.injEq, Pc.isIdle_iff] at h
  obtain ⟨⟨haccount, hposted⟩, ⟨hhands, hunread⟩, h0, h1⟩ := h
  have hreach := ChannelMachine.State.runs_run QueueCapacity.single hrun
  have hidle : ∀ u, queuePc (s.pc u) = .idle := Fin.forall_fin_two.mpr ⟨h0, h1⟩
  have hdrop := (messages_conserved hreach).2.2.2.2.2 hidle
  rw [hunread] at hdrop
  exact ⟨τ, s, hreach, haccount, hposted, hhands, hdrop⟩

end Conservation

end Rapidfire.ChannelMessages
