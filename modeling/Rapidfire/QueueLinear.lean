import Rapidfire.Objects
import Rapidfire.QueueFifo

/-!
# Linearizability of the queue

The queue is a board of values in order. A push puts its value at the end at one
moment, or is refused at a moment at which the board is full; the value is ready
when the push returns. A receive takes ready values off the front at one moment,
or finds nothing at a moment at which no value is ready in front: the board is
empty, the push of its first value has not returned, or another receive has taken
a value and not returned. Every run of the queue is explained by the board.
-/

namespace Rapidfire.QueueLinear

open Positions QueueMemory QueuePush QueuePop QueueSingle QueueMachine QueueCoherence QueueLocal
  QueueInvariant QueueHistory QueueRest QueueAlone QueuePairing Runs
open QueueFifo hiding Event shows pop_nothing
open Objects hiding Step Event

section Board

variable {Tid V : Type}

/-- A value on the board, the thread that pushes it, and whether that push has
returned. -/
structure Slot (Tid V : Type) where
  owner : Tid
  value : V
  ready : Bool

/-- What a client sees of a result. -/
inductive Answer (V : Type) where
  | pushed
  | full (v : V)
  | values (vs : List V)
  | nothing
  | unwound
  | parked
  | answer (b : Bool)
  | length (n : ℕ)
  deriving DecidableEq

/-- The answer of a result, without positions and sampled flags. -/
def answerOf : Ret V → Answer V
  | .push (.pushed _ _) => .pushed
  | .push (.full v) => .full v
  | .pop (.popped _ v _) | .single (.popped _ v _) => .values [v]
  | .pop .nothing | .single .nothing => .nothing
  | .single (.batch _ vs _) => .values vs
  | .single .unwound => .unwound
  | .read (.parked _) => .parked
  | .read (.answer b) => .answer b
  | .read (.length n) => .length n

/-- No value is ready in front, as far as a receive of this thread can tell: the
board is empty, the push of the first value has not returned, or another receive
has taken values and not returned. -/
def Stalls (slots : List (Slot Tid V)) (doing : Tid → Doing (Op V) (Answer V)) (t : Tid) : Prop :=
  slots = [] ∨ (∃ e ∈ slots.head?, e.ready = false) ∨
    ∃ u, u ≠ t ∧ ∃ vs, doing u = .effected (.values vs)

/-- Answers of operations that leave the board alone. -/
def right (capacity : Option ℕ) (slots : List (Slot Tid V))
    (doing : Tid → Doing (Op V) (Answer V)) (t : Tid) : Op V → Answer V → Prop
  | .push v, .full w => w = v ∧ capacity = some slots.length
  | .pop, .nothing | .popSingle, .nothing => Stalls slots doing t
  | .popSingleBatch n, .values vs => vs = [] ∧ (n = 0 ∨ Stalls slots doing t)
  | .popSingleBatch _, .unwound => True
  | .receiverParking, .parked | .senderParking, .parked | .claimsBelow _, .answer _ => True
  | .isEmptySeqcst, .answer empty => empty = true → slots = []
  | .len, .length n => slots.length ≤ n ∧ ∀ cap ∈ capacity, n ≤ cap
  | _, _ => False

/-- Numbers of values an operation may take. -/
def Receives : Op V → ℕ → Prop
  | .pop, k | .popSingle, k => k = 1
  | .popSingleBatch n, k => 0 < k ∧ k ≤ n
  | _, _ => False

/-- Effects of operations on the board. -/
inductive Effects (capacity : Option ℕ) (slots : List (Slot Tid V)) (t : Tid) :
    Op V → Answer V → List (Slot Tid V) → Prop where
  | push (v : V) : (∀ cap ∈ capacity, slots.length < cap) →
      Effects capacity slots t (.push v) .pushed (slots ++ [⟨t, v, false⟩])
  | receive (op : Op V) (front rest : List (Slot Tid V)) : slots = front ++ rest →
      Receives op front.length → (∀ e ∈ front, e.ready = true) →
      Effects capacity slots t op (.values (front.map Slot.value)) rest

variable [DecidableEq Tid]

/-- A push that returns makes its value ready. -/
def settle (slots : List (Slot Tid V)) (t : Tid) : Answer V → List (Slot Tid V)
  | .pushed => slots.map fun e => if e.owner = t then { e with ready := true } else e
  | _ => slots

/-- The board. -/
def board (capacity : Option ℕ) : Spec Tid (List (Slot Tid V)) (Op V) (Answer V) where
  right := right capacity
  effect := Effects capacity
  advance := fun _ _ _ _ => False
  settle := settle

end Board

variable {Tid V : Type} [DecidableEq Tid] {cfg : Config Tid} {s s' : State Tid V}
  {g g' : Ghost Tid V} {t u : Tid} {l : Label V} {τ : List (Tid × Label V)} {op : Op V}
  {flag : ℕ} {fail : Bool} {a : Object Tid (List (Slot Tid V)) (Op V) (Answer V)}

section Slots

omit [DecidableEq Tid] in
/-- Claims whose position is not taken. -/
def untaken (τ : List (Tid × Label V)) : List (Tid × ℕ × V) := (claimed τ).drop (taken τ).length

/-- The value of a claim on the board. -/
def slot (τ : List (Tid × Label V)) (c : Tid × ℕ × V) : Slot Tid V :=
  ⟨c.1, c.2.2, decide ((c.1, c.2.1) ∈ accepted τ)⟩

/-- The board a run has led to. -/
def slots (τ : List (Tid × Label V)) : List (Slot Tid V) := (untaken τ).map (slot τ)

omit [DecidableEq Tid] in
theorem untaken_snd (τ : List (Tid × Label V)) : (untaken τ).map Prod.snd = unread τ := by
  rw [untaken, unread, List.map_drop]

theorem slots_length (h : History cfg τ s g) :
    (slots τ).length = items cfg.size s.queue := by
  rw [slots, List.length_map, ← unread_length h, ← untaken_snd, List.length_map]

/-- No more values are on the board than the capacity allows. -/
theorem slots_le_cap (h : History cfg τ s g) {cap : ℕ} (hcap : cap ∈ cfg.capacity) :
    (slots τ).length ≤ cap := by
  rw [slots_length h]
  exact h.inv.coherent.capacity cap hcap

omit [DecidableEq Tid] in
theorem claimed_append (τ : List (Tid × Label V)) (t : Tid) (l : Label V) :
    claimed (τ ++ [(t, l)]) = claimed τ ++ (claims l.effect).map fun c => (t, c) := by
  simp [claimed]

omit [DecidableEq Tid] in
theorem taken_append (τ : List (Tid × Label V)) (t : Tid) (l : Label V) :
    taken (τ ++ [(t, l)]) = taken τ ++ (takes l.effect).map fun p => (t, p) := by
  simp [taken]

omit [DecidableEq Tid] in
theorem accepted_append (τ : List (Tid × Label V)) (t : Tid) (l : Label V) :
    accepted (τ ++ [(t, l)]) =
      accepted τ ++ (l.result.toList.flatMap acceptedRet).map fun p => (t, p) := by
  simp [accepted]

theorem taken_le_claimed (h : History cfg τ s g) : (taken τ).length ≤ (claimed τ).length := by
  have hpre := taken_prefix h
  simpa using hpre.length_le

/-- A claim and a take change the claims that are untaken at the two ends. -/
theorem untaken_append (h : History cfg τ s g) (t : Tid) (l : Label V) :
    untaken (τ ++ [(t, l)]) =
      (untaken τ ++ (claims l.effect).map fun c => (t, c)).drop (takes l.effect).length := by
  rw [untaken, claimed_append, taken_append, List.length_append, List.length_map, ← List.drop_drop,
    List.drop_append_of_le_length (taken_le_claimed h)]
  rfl

/-- A step that accepts nothing keeps what is ready. -/
theorem slot_append (hacc : l.result.toList.flatMap acceptedRet = []) (c : Tid × ℕ × V) :
    slot (τ ++ [(t, l)]) c = slot τ c := by
  rw [slot, accepted_append, hacc, List.map_nil, List.append_nil]
  rfl

/-- A step that claims, takes and accepts nothing leaves the board alone. -/
theorem slots_same (h : History cfg τ s g) (hclaims : claims l.effect = [])
    (htakes : takes l.effect = []) (hacc : l.result.toList.flatMap acceptedRet = []) :
    slots (τ ++ [(t, l)]) = slots τ := by
  rw [slots, untaken_append h, hclaims, htakes]
  simp only [List.map_nil, List.append_nil, List.length_nil, List.drop_zero]
  exact List.map_congr_left fun c _ => slot_append hacc c

/-- A claim puts its value at the end of the board. -/
theorem slots_claim (h : History cfg τ s g) (h' : History cfg (τ ++ [(t, l)]) s' g') {p : ℕ} {v : V}
    (hclaims : claims l.effect = [(p, v)]) (htakes : takes l.effect = [])
    (hacc : l.result.toList.flatMap acceptedRet = []) :
    slots (τ ++ [(t, l)]) = slots τ ++ [⟨t, v, false⟩] := by
  have hnew : (t, p) ∉ accepted τ := by
    intro hmem
    obtain ⟨w, hw⟩ := claimed_of_accepted h hmem
    have hnodup : ((claimed (τ ++ [(t, l)])).map fun c => c.2.1).Nodup := by
      rw [h'.claimed]
      exact (valuePositions_pairwise _).imp Nat.ne_of_lt
    rw [claimed_append, hclaims, List.map_append, List.nodup_append] at hnodup
    exact hnodup.2.2 p (List.mem_map.mpr ⟨_, hw, rfl⟩) p (by simp) rfl
  rw [slots, untaken_append h, hclaims, htakes]
  simp only [List.map_cons, List.map_nil, List.length_nil, List.drop_zero, List.map_append]
  have hlast : slot (τ ++ [(t, l)]) (t, p, v) = ⟨t, v, false⟩ := by
    rw [slot_append hacc, slot, decide_eq_false hnew]
  rw [hlast, slots]
  exact congrArg (· ++ _) (List.map_congr_left fun c _ => slot_append hacc c)

/-- A take removes as many values from the front of the board. -/
theorem slots_take (h : History cfg τ s g) (hclaims : claims l.effect = [])
    (hacc : l.result.toList.flatMap acceptedRet = []) :
    slots (τ ++ [(t, l)]) = (slots τ).drop (takes l.effect).length := by
  rw [slots, untaken_append h, hclaims, List.map_nil, List.append_nil, slots, List.map_drop]
  exact congrArg _ (List.map_congr_left fun c _ => slot_append hacc c)

/-- The positions of a take are those in front. -/
theorem takes_front (h : History cfg τ s g) (h' : History cfg (τ ++ [(t, l)]) s' g')
    (hclaims : claims l.effect = []) :
    ((untaken τ).take (takes l.effect).length).map (fun c => c.2.1) = takes l.effect := by
  have hstep := unread_step h h'
  rw [hclaims, List.map_nil, List.append_nil, ← untaken_snd, List.map_map] at hstep
  rw [List.map_take, show (fun c : Tid × ℕ × V => c.2.1) = Prod.fst ∘ Prod.snd from rfl, hstep,
    List.take_left']
  rfl

/-- The push of a taken position has returned. -/
theorem accepted_of_taken (h : History cfg τ s g) {c : Tid × ℕ × V} (hc : c ∈ claimed τ)
    (hp : c.2.1 ∈ (taken τ).map Prod.snd) : (c.1, c.2.1) ∈ accepted τ := by
  rw [h.taken, mem_valuePositions] at hp
  have hpub : g.published c.2.1 := by
    rw [h.inv.coherent.published_iff]
    refine ⟨hp.2, h.inv.coherent.taken_claimed _ hp.2 hp.1, fun u hu => ?_⟩
    have hle := (h.inv.coherent.writes_spec u _ hu).2.1
    omega
  obtain ⟨⟨w, p⟩, ha, hwp⟩ := List.mem_map.mp ((published_iff_accepted h).mp hpub)
  have hpos : p = c.2.1 := hwp
  subst hpos
  obtain ⟨v, hv⟩ := claimed_of_accepted h ha
  have heq := claimed_unique h hv hc rfl
  rw [← heq] at ha ⊢
  exact ha

/-- The values that a step takes are ready. -/
theorem front_ready (h : History cfg τ s g) (h' : History cfg (τ ++ [(t, l)]) s' g')
    (hclaims : claims l.effect = []) (hacc : l.result.toList.flatMap acceptedRet = []) :
    ∀ e ∈ (slots τ).take (takes l.effect).length, e.ready = true := by
  intro e he
  rw [slots, ← List.map_take] at he
  obtain ⟨c, hc, rfl⟩ := List.mem_map.mp he
  have hclaimed : c ∈ claimed (τ ++ [(t, l)]) := by
    rw [claimed_append, hclaims, List.map_nil, List.append_nil]
    exact List.mem_of_mem_drop (List.mem_of_mem_take hc)
  have htaken : c.2.1 ∈ (taken (τ ++ [(t, l)])).map Prod.snd := by
    have hmem : c.2.1 ∈ takes l.effect := by
      rw [← takes_front h h' hclaims]
      exact List.mem_map_of_mem hc
    rw [taken_append, List.map_append, List.mem_append, List.map_map]
    exact .inr (by simpa using hmem)
  have hready := accepted_of_taken h' hclaimed htaken
  rw [accepted_append, hacc, List.map_nil, List.append_nil] at hready
  exact decide_eq_true hready

/-- A thread without a claim under way has returned from the pushes of its claims. -/
theorem accepted_of_claimed (h : History cfg τ s g) (hclaim : claimOf cfg.size (s.pc t) = [])
    {c : ℕ × V} (hc : (t, c) ∈ claimed τ) : (t, c.1) ∈ accepted τ := by
  have hall := h.claim t
  rw [hclaim, List.append_nil] at hall
  have hpos : c.1 ∈ ofThread t (accepted τ) := by
    rw [← hall]
    exact List.mem_map.mpr ⟨c, mem_ofThread.mpr hc, rfl⟩
  exact mem_ofThread.mp hpos

/-- The values of a thread without a claim under way are ready. -/
theorem slots_ready (h : History cfg τ s g) (hclaim : claimOf cfg.size (s.pc t) = []) :
    ∀ e ∈ slots τ, e.owner = t → e.ready = true := by
  intro e he howner
  obtain ⟨c, hc, rfl⟩ := List.mem_map.mp he
  obtain rfl : c.1 = t := howner
  exact decide_eq_true (accepted_of_claimed h hclaim (List.mem_of_mem_drop hc))

/-- A push that returns makes its value ready. -/
theorem slots_accept (h : History cfg τ s g) (h' : History cfg (τ ++ [(t, l)]) s' g')
    (hclaims : claims l.effect = []) (htakes : takes l.effect = []) {tail : ℕ} {wake : Bool}
    (hr : l.result = some (.push (.pushed tail wake))) (hidle : s'.pc t = .idle) :
    slots (τ ++ [(t, l)]) = settle (slots τ) t .pushed := by
  have haccepted : accepted (τ ++ [(t, l)]) = accepted τ ++ [(t, tail)] := by
    rw [accepted_append, hr]
    rfl
  have huntaken : untaken (τ ++ [(t, l)]) = untaken τ := by
    rw [untaken_append h, hclaims, htakes]
    simp
  rw [slots, huntaken, settle, slots, List.map_map]
  refine List.map_congr_left fun c hc => ?_
  simp only [Function.comp_apply]
  have howner : (slot τ c).owner = c.1 := rfl
  by_cases hown : c.1 = t
  · have hclaimed : (c.1, c.2) ∈ claimed (τ ++ [(t, l)]) := by
      rw [claimed_append, hclaims, List.map_nil, List.append_nil]
      exact List.mem_of_mem_drop hc
    have hmem : (c.1, c.2.1) ∈ accepted (τ ++ [(t, l)]) := by
      refine accepted_of_claimed h' ?_ hclaimed
      rw [hown, hidle]
      rfl
    rw [if_pos (howner.trans hown), slot, decide_eq_true hmem]
    rfl
  · have hsame : (c.1, c.2.1) ∈ accepted (τ ++ [(t, l)]) ↔ (c.1, c.2.1) ∈ accepted τ := by
      rw [haccepted, List.mem_append, List.mem_singleton]
      exact or_iff_left fun he => hown (congrArg Prod.fst he)
    rw [if_neg fun he => hown (howner.symm.trans he), slot, decide_eq_decide.mpr hsame]
    rfl

end Slots

section Relation

/-- What a client sees of a step of its thread. -/
def shown : Label V → List (Objects.Event (Op V) (Answer V))
  | .call op => [.call op]
  | .access _ (some r) => [.answer (answerOf r)]
  | .access _ none => []

/-- What a client sees of a step. -/
def shows (l : Tid × Label V) : List (Tid × Objects.Event (Op V) (Answer V)) :=
  (shown l.2).map fun x => (l.1, x)

omit [DecidableEq Tid] in
/-- The values that were claimed with these positions. -/
def Valued (τ : List (Tid × Label V)) : List ℕ → List V → Prop :=
  List.Forall₂ fun p v => ∃ u, (u, p, v) ∈ claimed τ

/-- A pop that would find nothing knows that this is a right answer. -/
def Knows (z : BlockSize) (q : Queue V) (known : List (Answer V)) : Pc V → Prop
  | .pop pc => Seen (fun head => ¬IsValue z head → .nothing ∈ known)
      (fun head => q.head.index ≤ head → .nothing ∈ known) pc
  | _ => True

/-- What a thread does on the board, by its program point. -/
inductive Follows (cfg : Config Tid) (τ : List (Tid × Label V)) (s : State Tid V) (t : Tid) :
    Doing (Op V) (Answer V) → Prop where
  | idle : s.pc t = .idle → Follows cfg τ s t .idle
  | called (op : Op V) (known : List (Answer V)) : Carries op (s.pc t) →
      claimOf cfg.size (s.pc t) = [] → inflight (s.pc t) = [] →
      Knows cfg.size s.queue known (s.pc t) → Follows cfg τ s t (.called op known)
  | pushed : claimOf cfg.size (s.pc t) ≠ [] → Follows cfg τ s t (.effected .pushed)
  | values (vs : List V) : inflight (s.pc t) ≠ [] → Valued τ (inflight (s.pc t)) vs →
      Follows cfg τ s t (.effected (.values vs))

/-- The board stands for the run and the state it has reached. -/
structure Stands (cfg : Config Tid) (τ : List (Tid × Label V)) (s : State Tid V)
    (a : Object Tid (List (Slot Tid V)) (Op V) (Answer V)) : Prop where
  value : a.value = slots τ
  doing : ∀ t, Follows cfg τ s t (a.doing t)

omit [DecidableEq Tid] in
theorem Valued.append {ps : List ℕ} {vs : List V} (h : Valued τ ps vs) (l : Tid × Label V) :
    Valued (τ ++ [l]) ps vs := by
  refine List.Forall₂.imp ?_ h
  intro p v hv
  obtain ⟨u, hu⟩ := hv
  refine ⟨u, ?_⟩
  rw [claimed, List.flatMap_append]
  exact List.mem_append_left _ hu

/-- Positions have one list of values. -/
theorem Valued.unique (h : History cfg τ s g) {ps : List ℕ} {vs vs' : List V} (hv : Valued τ ps vs)
    (hv' : Valued τ ps vs') : vs = vs' := by
  induction hv generalizing vs' with
  | nil =>
    cases hv'
    rfl
  | cons hp _ ih =>
    cases hv' with
    | cons hp' hrest =>
      obtain ⟨u, hu⟩ := hp
      obtain ⟨u', hu'⟩ := hp'
      have hvalue := congrArg (fun c => c.2.2) (claimed_unique h hu hu' rfl)
      exact congrArg₂ List.cons hvalue (ih hrest)

omit [DecidableEq Tid] in
/-- Claims are listed with their values. -/
theorem valued_of_claims {cs : List (Tid × ℕ × V)} (h : ∀ c ∈ cs, c ∈ claimed τ) :
    Valued τ (cs.map fun c => c.2.1) (cs.map fun c => c.2.2) := by
  induction cs with
  | nil => exact .nil
  | cons c cs ih =>
    have hc : c ∈ claimed τ := h c (List.mem_cons_self ..)
    exact .cons ⟨c.1, hc⟩ (ih fun c' hc' => h c' (List.mem_cons_of_mem _ hc'))

/-- A result returns the values of its positions. -/
theorem valued_received (h' : History cfg (τ ++ [(t, l)]) s' g') {r : Ret V}
    (hr : l.result = some r) :
    Valued (τ ++ [(t, l)]) (r.received.map Prod.fst) (r.received.map Prod.snd) := by
  have hall : ∀ c ∈ r.received, ∃ u, (u, c.1, c.2) ∈ claimed (τ ++ [(t, l)]) := by
    intro c hc
    refine (h'.val c.1 c.2).mp (h'.returned t c.1 c.2 ?_)
    rw [returned, List.mem_flatMap]
    refine ⟨(t, l), by simp, ?_⟩
    rw [hr]
    simpa using hc
  generalize r.received = cs at hall
  induction cs with
  | nil => exact .nil
  | cons c cs ih =>
    exact .cons (hall c (List.mem_cons_self ..)) (ih fun c' hc' => hall c' (List.mem_cons_of_mem _ hc'))

omit [DecidableEq Tid] in
/-- A thread that does not move goes on doing the same. -/
theorem Follows.other {d : Doing (Op V) (Answer V)} (hf : Follows cfg τ s u d)
    (hpc : s'.pc u = s.pc u) (hhead : s.queue.head.index ≤ s'.queue.head.index)
    (l : Tid × Label V) : Follows cfg (τ ++ [l]) s' u d := by
  cases hf with
  | idle hidle => exact .idle (hpc.trans hidle)
  | called op known hc hclaim hin hknows =>
    refine .called op known (hpc ▸ hc) (hpc ▸ hclaim) (hpc ▸ hin) ?_
    rw [hpc]
    generalize s.pc u = pc at hknows
    cases pc with
    | pop pc => exact hknows.imp (fun _ hp => hp) fun head hp hle => hp (hhead.trans hle)
    | _ => trivial
  | pushed hclaim => exact .pushed (hpc ▸ hclaim)
  | values vs hin hv =>
    refine .values vs (hpc ▸ hin) ?_
    rw [hpc]
    exact hv.append l

/-- After a step of a thread, the board stands for the run if it does for this
thread. -/
theorem Stands.step (h : Inv cfg s g) (ha : Stands cfg τ s a) (hs : Step cfg s (t, l) s')
    {x : List (Slot Tid V)} {d : Doing (Op V) (Answer V)} (hx : x = slots (τ ++ [(t, l)]))
    (hd : Follows cfg (τ ++ [(t, l)]) s' t d) : Stands cfg (τ ++ [(t, l)]) s' (a.set t x d) := by
  refine ⟨hx, fun u => ?_⟩
  by_cases hu : u = t
  · rw [hu, Object.set_self]
    exact hd
  · rw [Object.set_other a x d hu]
    exact (ha.doing u).other ((step_transfers h hs).others u hu) (step_head h hs) _

omit [DecidableEq Tid] in
/-- A thread that reads a slot holds its position. -/
theorem inflight_of_reads {pc : Pc V} {p : ℕ} (h : reads pc = some p) :
    inflight pc ≠ [] ∧ ∀ z, claimOf z pc = [] := by
  cases pc with
  | pop pc =>
    refine ⟨?_, fun z => rfl⟩
    cases pc with
    | sample head block | readValue k | markRead k v | loadNext k v | storeBlock k v next
    | swapIndex k v => exact List.cons_ne_nil _ _
    | _ => cases h
  | _ => cases h

/-- A stalled head stalls the board. -/
theorem stalls_of_stalled (h : History cfg τ s g) (ha : Stands cfg τ s a)
    (hst : Stalled cfg t τ s) : Stalls a.value a.doing t := by
  rw [ha.value]
  rcases hst with hun | ⟨u, hut, p, hreads, -, -⟩
  · by_cases hlt : s.queue.head.index < s.queue.tail.index
    · refine .inr (.inl ?_)
      have hpositions : (untaken τ).map (fun c => c.2.1) =
          s.queue.head.index :: ((List.range' (s.queue.head.index + 1)
            (s.queue.tail.index - s.queue.head.index - 1)).filter fun p => IsValue cfg.size p) := by
        have hunread := unread_positions h
        have hsplit : s.queue.tail.index - s.queue.head.index =
            (s.queue.tail.index - s.queue.head.index - 1) + 1 := by
          omega
        rw [← untaken_snd, List.map_map, hsplit, List.range'_succ,
          List.filter_cons_of_pos (by simpa using hun.value)] at hunread
        exact hunread
      obtain ⟨c, rest, hcs⟩ := List.exists_cons_of_ne_nil
        (l := untaken τ) (fun hnil => by simp [hnil] at hpositions)
      rw [hcs, List.map_cons, List.cons.injEq] at hpositions
      refine ⟨slot τ c, by simp [slots, hcs], decide_eq_false ?_⟩
      rw [hpositions.1]
      exact hun.not_accepted c.1
    · refine .inl (List.eq_nil_of_length_eq_zero ?_)
      rw [slots_length h]
      exact itemsBetween_of_le (Nat.le_of_not_lt hlt)
  · refine .inr (.inr ⟨u, hut, ?_⟩)
    obtain ⟨hin, hclaim⟩ := inflight_of_reads hreads
    have hu := ha.doing u
    generalize a.doing u = d at hu
    cases hu with
    | idle hidle =>
      rw [hidle] at hreads
      cases hreads
    | called op known _ _ hnone _ => exact absurd hnone hin
    | pushed hc => exact absurd (hclaim _) hc
    | values vs _ _ => exact ⟨vs, rfl⟩

end Relation

section Answers

/-- The head of the exclusive consumer is stalled while its slot is untagged. -/
theorem stalls_of_untagged (h : History cfg τ s g) (ha : Stands cfg τ s a) {head : ℕ}
    {block : BlockId} (hhead : AtHead cfg s.queue g head block)
    (htag : s.queue.state block (offset cfg.size head) ≠ writtenTag (lapOf cfg.size head)) :
    Stalls a.value a.doing t := by
  obtain ⟨rfl, rfl, hv, hlap⟩ := hhead
  have hserves : Serves cfg g s.queue.head.index s.queue.head.block := by
    refine ⟨?_, ?_⟩
    · rw [← hlap]
      exact h.inv.coherent.headLap_lt
    · rw [← hlap, h.inv.coherent.head_block]
  exact stalls_of_stalled h ha (.inl (unpublished_of_untagged h hv htag hserves))

/-- A refused push was refused by a full board. -/
theorem push_right (h : History cfg τ s g) (ha : Stands cfg τ s a) {pc : PushPc V}
    (hpc : s.pc t = .push pc) (hc : Carries op (.push pc))
    (hclaim : claimOf cfg.size (.push pc : Pc V) = []) {r : PushRet V}
    (hn : (pc.exec cfg.size flag fail s.queue).2.1 = .ret r) :
    right cfg.capacity a.value a.doing t op (answerOf (.push r)) := by
  cases r with
  | pushed tail wake =>
    obtain ⟨c, block, rfl, -⟩ := pushed_exec hn
    cases hclaim
  | full w =>
    have hl := h.inv.assertion t
    rw [hpc] at hl
    obtain ⟨cap, tail, rfl, hge⟩ := QueueCapacity.full_exec hn
    obtain ⟨hcap, -, htail⟩ := hl
    cases op with
    | push v =>
      have hlength := slots_length h
      have hle := slots_le_cap h hcap
      have hmono : itemsBetween cfg.size s.queue.head.index tail ≤ items cfg.size s.queue :=
        itemsBetween_mono_right htail
      refine ⟨hc, hcap.trans (congrArg some ?_)⟩
      rw [ha.value]
      omega
    | _ => exact hc.elim

/-- `pop_single` that returns without a value finds a stalled board. -/
theorem single_right (h : History cfg τ s g) (ha : Stands cfg τ s a) {pc : SinglePc V}
    (hpc : s.pc t = .single pc) (hc : Carries op (.single pc)) {r : SingleRet V}
    (hn : (pc.exec cfg.size cfg.capacity flag fail s.queue).2.1 = .ret r)
    (hreceived : (Ret.single r).received = []) :
    right cfg.capacity a.value a.doing t op (answerOf (.single r)) := by
  obtain ⟨-, hl⟩ : cfg.exclusive = some t ∧ SingleLocal cfg s.queue g pc := by
    have hl := h.inv.assertion t
    rwa [hpc] at hl
  have hleave : ∀ {batch : Bool} {pc : LeavePc V}, LeaveLocal cfg s.queue g pc →
      (pc.exec cfg.size cfg.capacity batch flag s.queue).2.1 = .ret r → False := by
    intro batch pc hl hn
    obtain ⟨wake, rfl⟩ := leave_returns hn
    have hvalues := (collected_of_leave hl).2.1
    cases batch with
    | true =>
      have hnil := congrArg List.length hreceived
      simp only [QueueSingle.Run.result, if_true, Ret.received, List.length_zip, List.length_range',
        Nat.min_self, List.length_nil] at hnil
      exact hvalues (List.eq_nil_of_length_eq_zero hnil)
    | false =>
      obtain ⟨v, vs, hvs⟩ := List.exists_cons_of_ne_nil hvalues
      simp [QueueSingle.Run.result, hvs, Ret.received] at hreceived
  cases pc with
  | loadState head block =>
    cases op with
    | popSingle =>
      simp only [SinglePc.exec] at hn
      split at hn
      · rename_i htag
        cases hn
        exact stalls_of_untagged h ha hl htag
      · cases hn
    | _ => exact hc.elim
  | batchHead limit =>
    cases op with
    | popSingleBatch n =>
      obtain rfl : limit = n := hc
      simp only [SinglePc.exec] at hn
      split at hn
      · rename_i hzero
        cases hn
        exact ⟨rfl, .inl hzero⟩
      · cases hn
    | _ => exact hc.elim
  | batchState limit head block =>
    cases op with
    | popSingleBatch n =>
      simp only [SinglePc.exec] at hn
      split at hn
      · rename_i htag
        cases hn
        exact ⟨rfl, .inr (stalls_of_untagged h ha hl.2 htag)⟩
      · cases hn
    | _ => exact hc.elim
  | reserve max head block =>
    cases op with
    | popSingleBatch n =>
      simp only [SinglePc.exec] at hn
      split at hn <;> cases hn
      trivial
    | _ => exact hc.elim
  | leave batch pc => exact (hleave hl.2 hn).elim
  | loadHead | slotState max r' => cases hn
  | loadBlock head | readValue head block | batchBlock limit head | slotValue max r' =>
    simp only [SinglePc.exec] at hn
    split at hn <;> cases hn

/-- The operations that only look at the indices give answers that are right. -/
theorem read_right (h : History cfg τ s g) (ha : Stands cfg τ s a) {pc : ReadPc}
    (hpc : s.pc t = .read pc) (hc : Carries op (.read pc)) {r : ReadRet}
    (hn : (pc.exec cfg.size cfg.capacity s.queue).2.1 = .ret r) :
    right cfg.capacity a.value a.doing t op (answerOf (.read r)) := by
  have hl := h.inv.assertion t
  rw [hpc] at hl
  have hlength := slots_length h
  cases pc with
  | receiverParking =>
    cases hn
    cases op with
    | receiverParking => trivial
    | _ => exact hc.elim
  | senderParking =>
    cases hn
    cases op with
    | senderParking => trivial
    | _ => exact hc.elim
  | claimsBelow tail =>
    cases hn
    cases op with
    | claimsBelow tail' => trivial
    | _ => exact hc.elim
  | emptyHead | lenHead => cases hn
  | emptyTail head =>
    cases op with
    | isEmptySeqcst =>
      obtain rfl := Next.ret.inj hn
      intro hempty
      have hzero : itemsBetween cfg.size head s.queue.tail.index = 0 := of_decide_eq_true hempty
      have hmono : items cfg.size s.queue ≤ itemsBetween cfg.size head s.queue.tail.index :=
        itemsBetween_anti_left hl
      refine List.eq_nil_of_length_eq_zero ?_
      rw [ha.value]
      omega
    | _ => exact hc.elim
  | lenTail head =>
    cases op with
    | len =>
      obtain rfl := Next.ret.inj hn
      have hmono : items cfg.size s.queue ≤ itemsBetween cfg.size head s.queue.tail.index :=
        itemsBetween_anti_left hl
      change a.value.length ≤ _ ∧ _
      rw [ha.value, hlength]
      split
      · rename_i hcap
        rw [hcap]
        exact ⟨hmono, fun cap hcap => by cases hcap⟩
      · rename_i cap hcap
        have hle := h.inv.coherent.capacity cap hcap
        refine ⟨le_min hmono hle, fun cap' hcap' => ?_⟩
        obtain rfl : cap' = cap := Option.some.inj (hcap'.symm.trans hcap)
        exact Nat.min_le_right ..
    | _ => exact hc.elim

/-- An operation that returns without an effect gives an answer that it knows, or
that is right now. -/
theorem answer_right (h : History cfg τ s g) (ha : Stands cfg τ s a) {known : List (Answer V)}
    (hc : Carries op (s.pc t)) (hclaim : claimOf cfg.size (s.pc t) = [])
    (hknows : Knows cfg.size s.queue known (s.pc t)) {o : Outcome V (Pc V) (Ret V)}
    (ho : (s.pc t).exec cfg flag fail s.queue = some o) {r : Ret V} (hn : o.2.1 = .ret r)
    (hreceived : r.received = []) :
    answerOf r ∈ known ∨ right cfg.capacity a.value a.doing t op (answerOf r) := by
  cases hpc : s.pc t with
  | idle | fault =>
    rw [hpc] at ho
    cases ho
  | push pc =>
    rw [hpc] at hc hclaim
    rw [hpc, Pc.exec, Option.some.injEq] at ho
    subst ho
    obtain ⟨r, hr, rfl⟩ := ret_of_map hn
    exact .inr (push_right h ha hpc hc hclaim hr)
  | pop pc =>
    rw [hpc] at hknows
    rw [hpc, Pc.exec, Option.some.injEq] at ho
    subst ho
    obtain ⟨r, hr, rfl⟩ := ret_of_map hn
    left
    cases r with
    | popped head v wake => cases hreceived
    | nothing =>
      rcases QueuePairing.pop_nothing hknows hr with ⟨head, hseen, hv⟩ | hseen
      · exact hseen hv
      · exact hseen le_rfl
  | single pc =>
    rw [hpc] at hc
    rw [hpc, Pc.exec, Option.some.injEq] at ho
    subst ho
    obtain ⟨r, hr, rfl⟩ := ret_of_map hn
    exact .inr (single_right h ha hpc hc hr hreceived)
  | read pc =>
    rw [hpc] at hc
    rw [hpc, Pc.exec, Option.some.injEq] at ho
    subst ho
    obtain ⟨r, hr, rfl⟩ := ret_of_map hn
    exact .inr (read_right h ha hpc hc hr)

end Answers

section Steps

omit [DecidableEq Tid] in
/-- A result with values answers with them. -/
theorem answer_values {r : Ret V} (h : r.received ≠ []) :
    answerOf r = .values (r.received.map Prod.snd) := by
  cases r with
  | push r => exact absurd rfl h
  | pop r =>
    cases r with
    | popped head v wake => rfl
    | nothing => exact absurd rfl h
  | single r =>
    cases r with
    | popped head v wake => rfl
    | batch head values wake =>
      have hzip : ((List.range' head values.length).zip values).map Prod.snd = values :=
        List.map_snd_zip (by simp)
      rw [answerOf, Ret.received, hzip]
    | _ => exact absurd rfl h
  | read r => exact absurd rfl h

omit [DecidableEq Tid] in
/-- A claim is made by a push that goes on with the position. -/
theorem claim_access {pc : Pc V} {q : Queue V} {o : Outcome V (Pc V) (Ret V)} {p : ℕ} {v : V}
    (ho : pc.exec cfg flag fail q = some o) (hclaims : claims o.2.2 = [(p, v)])
    (haccounts : Accounts cfg.size pc o.2.2 (nextRet o.2.1) (nextPc o.2.1))
    (hf : o.2.1 ≠ .fault) :
    (∃ pp, pc = .push pp ∧ pushValue pp = v) ∧ ∃ pc', o.2.1 = .goto pc' := by
  have hoffer := haccounts.offer
  rw [hclaims] at hoffer
  cases pc with
  | push pp =>
    have hvalue : pushValue pp = v := by
      have hmem : v ∈ pushOffer cfg.size pp :=
        hoffer.subset (List.mem_append_left _ (List.mem_singleton_self v))
      cases pp with
      | fetchAddContend w tail =>
        simp only [pushOffer] at hmem
        split at hmem
        · cases hmem
        · exact (List.mem_singleton.mp hmem).symm
      | loadContended w | fetchAddLoad w | fetchAdd w expected | casLoad w | casTry w tail failed
      | boundedLoad w cap | boundedSkip w cap tail | boundedCached w cap tail
      | boundedHead w cap tail | boundedCache w cap tail head | boundedTry w cap tail =>
        exact (List.mem_singleton.mp hmem).symm
      | _ => cases hmem
    refine ⟨⟨pp, rfl, hvalue⟩, ?_⟩
    rw [Pc.exec, Option.some.injEq] at ho
    subst ho
    cases hn : (pp.exec cfg.size flag fail q).2.1 with
    | goto pp' => exact ⟨.push pp', by simp [Next.map]⟩
    | fault => exact absurd (by simp [hn, Next.map]) hf
    | ret r =>
      have hclaim := haccounts.claim
      simp only [hn, Next.map, nextRet, nextPc, hclaims] at hclaim
      cases r with
      | full w => simp [acceptedRet, claimOf, writes] at hclaim
      | pushed tail wake =>
        obtain ⟨c, block, rfl, -⟩ := pushed_exec hn
        cases hclaims
  | idle | fault => cases ho
  | _ => exact absurd (hoffer.subset (List.mem_append_left _ (List.mem_singleton_self v))) (by
      simp [offer])

omit [DecidableEq Tid] in
/-- A take is made by a receive that has taken nothing before. -/
theorem take_access {pc : Pc V} {q : Queue V} {o : Outcome V (Pc V) (Ret V)} {head n : ℕ}
    (ho : pc.exec cfg flag fail q = some o) (he : o.2.2 = some (.taken head n)) :
    (∃ pp, pc = .pop pp ∧ popInflight pp = [] ∧ n = 1) ∨
      ∃ batch r, pc = .single (.leave batch (.advance r)) ∧ n = r.values.length := by
  cases pc with
  | idle | fault => cases ho
  | push pp =>
    rw [Pc.exec, Option.some.injEq] at ho
    subst ho
    exact (QueueExclusive.push_takes he).elim
  | pop pp =>
    rw [Pc.exec, Option.some.injEq] at ho
    subst ho
    obtain ⟨hn, -, block, wait, rfl⟩ := pop_takes he
    exact .inl ⟨_, rfl, rfl, hn⟩
  | single pp =>
    rw [Pc.exec, Option.some.injEq] at ho
    subst ho
    obtain ⟨batch, r, rfl, -, hn⟩ := QueueExclusive.single_takes he
    exact .inr ⟨batch, r, rfl, hn⟩
  | read pp =>
    rw [Pc.exec, Option.some.injEq] at ho
    subst ho
    cases pp <;> cases he

omit [DecidableEq Tid] in
/-- A receive takes as many values as its operation may. -/
theorem take_receives {pc : Pc V} {q : Queue V} {n : ℕ}
    (htake : (∃ pp, pc = .pop pp ∧ popInflight pp = [] ∧ n = 1) ∨
      ∃ batch r, pc = .single (.leave batch (.advance r)) ∧ n = r.values.length)
    (hl : Local cfg q g t pc) (hc : Carries op pc) : Receives op n := by
  rcases htake with ⟨pp, rfl, -, rfl⟩ | ⟨batch, r, rfl, rfl⟩
  · cases op with
    | pop => rfl
    | _ => exact hc.elim
  · obtain ⟨-, hone, hcollected, -⟩ := hl
    have hpos := List.length_pos_of_ne_nil hcollected.2.1
    cases op with
    | popSingle =>
      cases batch with
      | true => exact hc.elim
      | false => exact hone rfl
    | popSingleBatch n =>
      cases batch with
      | true => exact ⟨hpos, hc⟩
      | false => exact hc.elim
    | _ => exact hc.elim

/-- A call. -/
theorem explained_call (h : History cfg τ s g) (ha : Stands cfg τ s a) (hidle : s.pc t = .idle)
    (hs : Step cfg s (t, .call op) (s.setPc t (op.entry cfg.capacity))) :
    ∃ a', Moves (board cfg.capacity) t a (shown (.call op)) a' ∧
      Stands cfg (τ ++ [(t, .call op)]) (s.setPc t (op.entry cfg.capacity)) a' := by
  obtain ⟨hin, hclaim, -⟩ := entry_account cfg.size cfg.capacity op
  have hself : (s.setPc t (op.entry cfg.capacity)).pc t = op.entry cfg.capacity :=
    Function.update_self _ _ _
  have hdoing : a.doing t = .idle := by
    have ht := ha.doing t
    generalize a.doing t = d at ht
    cases ht with
    | idle _ => rfl
    | called op' known hc _ _ _ =>
      rw [hidle] at hc
      cases op' <;> exact hc.elim
    | pushed hc => exact absurd (by rw [hidle]; rfl) hc
    | values vs hc _ => exact absurd (by rw [hidle]; rfl) hc
  have hvalue : a.value = slots (τ ++ [(t, .call op)]) := by
    rw [ha.value, slots_same h rfl rfl rfl]
  have hknows : Knows cfg.size (s.setPc t (op.entry cfg.capacity)).queue []
      (op.entry cfg.capacity) := by
    cases op <;> trivial
  refine ⟨_, moves_call hdoing, ha.step h.inv hs hvalue (.called op [] ?_ ?_ ?_ ?_)⟩
  · rw [hself]
    exact carries_entry op
  · rw [hself, hclaim]
  · rw [hself, hin]
  · rw [hself]
    exact hknows

variable {o : Outcome V (Pc V) (Ret V)}

/-- An access that claims a position puts the value of its push on the board. -/
theorem explained_claim (h : History cfg τ s g) (ha : Stands cfg τ s a)
    (ho : (s.pc t).exec cfg flag fail s.queue = some o) {p : ℕ} {v : V}
    (hclaims : claims o.2.2 = [(p, v)]) (htakes : takes o.2.2 = [])
    (hs : Step cfg s (t, .access o.2.2 (nextRet o.2.1))
      ⟨o.1, Function.update s.pc t (nextPc o.2.1)⟩) :
    ∃ a', Moves (board cfg.capacity) t a (shown (.access o.2.2 (nextRet o.2.1))) a' ∧
      Stands cfg (τ ++ [(t, .access o.2.2 (nextRet o.2.1))])
        ⟨o.1, Function.update s.pc t (nextPc o.2.1)⟩ a' := by
  obtain ⟨g₁, hg₁⟩ := exec_steps h.inv ho
  have haccounts := exec_accounts h.inv ho hg₁.sound
  obtain ⟨g', h'⟩ := step_history h hs
  obtain ⟨⟨pp, hpc, hvalue⟩, pc', hn⟩ := claim_access ho hclaims haccounts hg₁.sound
  rw [hn] at hs h' haccounts ⊢
  have hclaim := congrArg List.length haccounts.claim
  simp only [hclaims, nextRet, nextPc, Option.toList, List.flatMap_nil, List.nil_append,
    List.map_cons, List.map_nil, List.length_append, List.length_cons, List.length_nil] at hclaim
  have hone : (claimOf cfg.size pc').length ≤ 1 := by
    unfold claimOf
    cases writes cfg.size pc' with
    | none | some p => simp
  have hmine : claimOf cfg.size (s.pc t) = [] := List.eq_nil_of_length_eq_zero (by omega)
  have hthen : claimOf cfg.size pc' ≠ [] := List.ne_nil_of_length_pos (by omega)
  have hslots := slots_claim h h' hclaims htakes rfl
  have hlength := congrArg List.length hslots
  rw [List.length_append, List.length_singleton] at hlength
  have hd := ha.doing t
  generalize hdoing : a.doing t = d at hd
  cases hd with
  | idle hidle =>
    rw [hidle] at hpc
    cases hpc
  | pushed hc => exact absurd hmine hc
  | values vs hin _ =>
    rw [hpc] at hin
    exact absurd rfl hin
  | called op known hc _ _ _ =>
    rw [hpc] at hc
    cases op with
    | push w =>
      obtain rfl : w = v := (show pushValue pp = w from hc).symm.trans hvalue
      have heffect : Effects cfg.capacity a.value t (.push w) .pushed
          (a.value ++ [⟨t, w, false⟩]) := by
        refine .push w fun cap hcap => ?_
        have hle := slots_le_cap h' hcap
        rw [ha.value]
        omega
      refine ⟨_, .hide _ (hides_effect hdoing heffect), ha.step h.inv hs ?_
        (.pushed ?_)⟩
      · rw [ha.value]
        exact hslots.symm
      · simpa only [nextPc, Function.update_self] using hthen
    | _ => exact hc.elim

/-- An access that takes positions takes their values off the board. -/
theorem explained_take (h : History cfg τ s g) (ha : Stands cfg τ s a)
    (ho : (s.pc t).exec cfg flag fail s.queue = some o) {head n : ℕ} (hpos : 0 < n)
    (he : o.2.2 = some (.taken head n))
    (hs : Step cfg s (t, .access o.2.2 (nextRet o.2.1))
      ⟨o.1, Function.update s.pc t (nextPc o.2.1)⟩) :
    ∃ a', Moves (board cfg.capacity) t a (shown (.access o.2.2 (nextRet o.2.1))) a' ∧
      Stands cfg (τ ++ [(t, .access o.2.2 (nextRet o.2.1))])
        ⟨o.1, Function.update s.pc t (nextPc o.2.1)⟩ a' := by
  obtain ⟨g₁, hg₁⟩ := exec_steps h.inv ho
  have haccounts := exec_accounts h.inv ho hg₁.sound
  obtain ⟨g', h'⟩ := step_history h hs
  have hclaims : claims o.2.2 = [] := by
    rw [he]
    rfl
  have htakes : takes o.2.2 = List.range' head n := by
    rw [he]
    rfl
  have hlength : (takes o.2.2).length = n := by
    rw [htakes, List.length_range']
  have hsome : takes o.2.2 ≠ [] := List.ne_nil_of_length_pos (hlength ▸ hpos)
  have htake := take_access ho he
  have hinflight : inflight (s.pc t) = [] := by
    rcases htake with ⟨pp, hpc, hnone, -⟩ | ⟨batch, r, hpc, -⟩ <;> rw [hpc]
    · exact hnone
    · rfl
  have hclaim : claimOf cfg.size (s.pc t) = [] := by
    rcases htake with ⟨pp, hpc, -⟩ | ⟨batch, r, hpc, -⟩ <;> rw [hpc] <;> rfl
  have hacc : (nextRet o.2.1).toList.flatMap acceptedRet = [] := by
    have hsum := haccounts.claim
    rw [hclaim, hclaims] at hsum
    exact (List.append_eq_nil_iff.mp hsum.symm).1
  have hsum := haccounts.inflight
  rw [hinflight, List.nil_append] at hsum
  have hd := ha.doing t
  generalize hdoing : a.doing t = d at hd
  cases hd with
  | idle hidle =>
    rw [hidle] at ho
    cases ho
  | pushed hc => exact absurd hclaim hc
  | values vs hin _ => exact absurd hinflight hin
  | called op known hc _ _ _ =>
    have hdrop := slots_take (l := .access o.2.2 (nextRet o.2.1)) (t := t) h hclaims hacc
    have hready := front_ready h h' hclaims hacc
    have hpositions := takes_front h h' hclaims
    have htaken : (takes (Label.access o.2.2 (nextRet o.2.1)).effect).length = n := hlength
    rw [htaken] at hdrop hready hpositions
    have hcount : ((untaken τ).take n).length = n := by
      have hcount := congrArg List.length hpositions
      rwa [List.length_map, htaken] at hcount
    have hfront : (slots τ).take n = ((untaken τ).take n).map (slot τ) := by
      rw [slots, List.map_take]
    have hvalues : ((slots τ).take n).map Slot.value =
        ((untaken τ).take n).map fun c => c.2.2 := by
      rw [hfront, List.map_map]
      rfl
    have hvalued : Valued (τ ++ [(t, .access o.2.2 (nextRet o.2.1))]) (takes o.2.2)
        (((slots τ).take n).map Slot.value) := by
      have hclaimed : ∀ c ∈ (untaken τ).take n, c ∈ claimed τ := fun c hc =>
        List.mem_of_mem_drop (List.mem_of_mem_take hc)
      have hall := (valued_of_claims hclaimed).append (t, .access o.2.2 (nextRet o.2.1))
      rw [hpositions, ← hvalues] at hall
      exact hall
    have heffect : Effects cfg.capacity a.value t op
        (.values (((slots τ).take n).map Slot.value))
        (slots (τ ++ [(t, .access o.2.2 (nextRet o.2.1))])) := by
      refine .receive op _ _ ?_ ?_ hready
      · rw [ha.value, hdrop, List.take_append_drop]
      · rw [hfront, List.length_map, hcount]
        exact take_receives htake (h.inv.assertion t) hc
    cases hn : o.2.1 with
    | fault => exact absurd hn hg₁.sound
    | goto pc' =>
      rw [hn] at hs heffect hvalued hsum
      have hflight : inflight pc' = takes o.2.2 := hsum.symm
      refine ⟨_, .hide _ (hides_effect hdoing heffect),
        ha.step h.inv hs rfl (.values _ ?_ ?_)⟩
      · simpa only [nextPc, Function.update_self, hflight] using hsome
      · simpa only [nextPc, Function.update_self, hflight] using hvalued
    | ret r =>
      rw [hn] at hs h' heffect hvalued hsum
      have hpositions : r.received.map Prod.fst = takes o.2.2 := by
        simpa [nextRet, nextPc, inflight] using hsum.symm
      have hreceived := valued_received h' (r := r) rfl
      rw [hpositions] at hreceived
      have hanswer : answerOf r = .values (((slots τ).take n).map Slot.value) := by
        rw [answer_values fun hnil => hsome (by rw [← hpositions, hnil, List.map_nil]),
          hreceived.unique h' hvalued]
      have hexplains := moves_effect_answer (S := board cfg.capacity) hdoing heffect
      rw [← hanswer] at hexplains
      refine ⟨_, hexplains, ha.step h.inv hs ?_ (.idle (Function.update_self ..))⟩
      rw [hanswer]
      rfl

/-- What a pop that has found nothing so far sees next, it knows, if it looks at
the board now. -/
theorem knows_next (hr : Reach cfg τ s) (h : History cfg τ s g) (ha : Stands cfg τ s a)
    (ho : (s.pc t).exec cfg flag fail s.queue = some o) {pc' : Pc V} (hn : o.2.1 = .goto pc')
    {known : List (Answer V)} (hhead : s.queue.head.index ≤ o.1.head.index)
    (hc : Carries op (s.pc t)) (hlook : op = .pop → Stalls a.value a.doing t → .nothing ∈ known) :
    Knows cfg.size o.1 known pc' := by
  cases hpc : s.pc t with
  | idle | fault =>
    rw [hpc] at ho
    cases ho
  | push pp | single pp | read pp =>
    rw [hpc, Pc.exec, Option.some.injEq] at ho
    subst ho
    obtain ⟨p, -, rfl⟩ := goto_of_map hn
    trivial
  | pop pp =>
    rw [hpc, Pc.exec, Option.some.injEq] at ho
    subst ho
    obtain ⟨p, hp, rfl⟩ := goto_of_map hn
    have hop : op = .pop := by
      rw [hpc] at hc
      cases op with
      | pop => rfl
      | _ => exact hc.elim
    have hstalled : PopStalled cfg t τ s → .nothing ∈ known := fun hst =>
      hlook hop (stalls_of_stalled h ha hst.2)
    refine seen_next h hpc hp ?_ ?_
    · exact fun head hi hv => hstalled (stalled_of_index hr hi hv)
    · exact fun head hi hle => hstalled (stalled_of_slot hi (hhead.trans hle))

/-- An access that neither claims nor takes leaves the values on the board as they
are; a push that returns makes its value ready. -/
theorem explained_quiet (hr : Reach cfg τ s) (h : History cfg τ s g) (ha : Stands cfg τ s a)
    (ho : (s.pc t).exec cfg flag fail s.queue = some o) (hclaims : claims o.2.2 = [])
    (htakes : takes o.2.2 = [])
    (hs : Step cfg s (t, .access o.2.2 (nextRet o.2.1))
      ⟨o.1, Function.update s.pc t (nextPc o.2.1)⟩) :
    ∃ a', Moves (board cfg.capacity) t a (shown (.access o.2.2 (nextRet o.2.1))) a' ∧
      Stands cfg (τ ++ [(t, .access o.2.2 (nextRet o.2.1))])
        ⟨o.1, Function.update s.pc t (nextPc o.2.1)⟩ a' := by
  obtain ⟨g₁, hg₁⟩ := exec_steps h.inv ho
  have haccounts := exec_accounts h.inv ho hg₁.sound
  obtain ⟨g', h'⟩ := step_history h hs
  have hhead := step_head h.inv hs
  have hclaim := haccounts.claim
  have hflight := haccounts.inflight
  rw [hclaims, List.map_nil, List.append_nil] at hclaim
  rw [htakes, List.append_nil] at hflight
  have hsame : (nextRet o.2.1).toList.flatMap acceptedRet = [] →
      a.value = slots (τ ++ [(t, .access o.2.2 (nextRet o.2.1))]) := fun hacc =>
    ha.value.trans (slots_same (l := .access o.2.2 (nextRet o.2.1)) (t := t) h hclaims htakes
      hacc).symm
  have hd := ha.doing t
  generalize hdoing : a.doing t = d at hd
  have hstay : a.set t a.value d = a := by
    rw [← hdoing]
    simp [Object.set]
  cases hd with
  | idle hidle =>
    rw [hidle] at ho
    cases ho
  | pushed hc =>
    cases hn : o.2.1 with
    | fault => exact absurd hn hg₁.sound
    | goto pc' =>
      rw [hn] at hs hclaim hsame
      have hkept : claimOf cfg.size pc' ≠ [] := fun hnil => hc (hclaim.trans hnil)
      have hstands := ha.step h.inv hs (hsame rfl)
        (.pushed (by simpa only [nextPc, Function.update_self] using hkept))
      rw [hstay] at hstands
      exact ⟨a, .hide a .stay, hstands⟩
    | ret r =>
      rw [hn] at hs h' hclaim
      have haccepted : acceptedRet r ≠ [] := fun hnil => hc (by
        rw [hclaim]
        simp [nextRet, nextPc, hnil, claimOf, writes])
      cases r with
      | push r =>
        cases r with
        | full w => exact absurd rfl haccepted
        | pushed tail wake =>
          have hslots := slots_accept h h' hclaims htakes rfl (Function.update_self ..)
          refine ⟨_, moves_effected (S := board cfg.capacity) hdoing, ha.step h.inv hs ?_
            (.idle (Function.update_self ..))⟩
          rw [ha.value]
          exact hslots.symm
      | _ => exact absurd rfl haccepted
  | values vs hin hv =>
    have hnone : claimOf cfg.size (s.pc t) = [] := by
      cases hpc : s.pc t with
      | push pp =>
        rw [hpc] at hin
        exact absurd rfl hin
      | _ => rfl
    rw [hnone] at hclaim
    have hacc : (nextRet o.2.1).toList.flatMap acceptedRet = [] :=
      (List.append_eq_nil_iff.mp hclaim.symm).1
    cases hn : o.2.1 with
    | fault => exact absurd hn hg₁.sound
    | goto pc' =>
      rw [hn] at hs hflight hsame
      have hkept : inflight (s.pc t) = inflight pc' := hflight
      have hstands := ha.step h.inv hs (hsame rfl) (.values vs
        (by simpa only [nextPc, Function.update_self, ← hkept] using hin)
        (by simpa only [nextPc, Function.update_self, ← hkept] using hv.append _))
      rw [hstay] at hstands
      exact ⟨a, .hide a .stay, hstands⟩
    | ret r =>
      rw [hn] at hs h' hflight hsame hacc
      have hpositions : r.received.map Prod.fst = inflight (s.pc t) := by
        simpa [nextRet, nextPc, inflight] using hflight.symm
      have hreceived := valued_received h' (r := r) rfl
      rw [hpositions] at hreceived
      have hanswer : answerOf r = .values vs := by
        rw [answer_values fun hnil => hin (by rw [← hpositions, hnil, List.map_nil]),
          hreceived.unique h' (hv.append _)]
      have hexplains := moves_effected (S := board cfg.capacity) hdoing
      rw [← hanswer] at hexplains
      refine ⟨_, hexplains, ha.step h.inv hs ?_ (.idle (Function.update_self ..))⟩
      rw [hanswer, ← hsame hacc]
      rfl
  | called op known hc hnone hin hknows =>
    rw [hnone] at hclaim
    rw [hin] at hflight
    have hacc : (nextRet o.2.1).toList.flatMap acceptedRet = [] :=
      (List.append_eq_nil_iff.mp hclaim.symm).1
    cases hn : o.2.1 with
    | fault => exact absurd hn hg₁.sound
    | goto pc' =>
      rw [hn] at hs hclaim hflight hsame
      have hcarries := carries_exec (h.inv.assertion t) hc ho hn
      have hfollows : ∀ known', (op = .pop → Stalls a.value a.doing t → .nothing ∈ known') →
          Follows cfg (τ ++ [(t, .access o.2.2 (nextRet (.goto pc')))])
            (⟨o.1, Function.update s.pc t pc'⟩ : State Tid V) t (.called op known') := by
        intro known' hlook
        refine .called op known' ?_ ?_ ?_ ?_ <;> simp only [Function.update_self]
        · exact hcarries
        · exact hclaim.symm
        · exact hflight.symm
        · exact knows_next hr h ha ho hn hhead hc hlook
      by_cases hlook : op = .pop ∧ Stalls a.value a.doing t
      · have hright : (board cfg.capacity).right a.value a.doing t op .nothing := by
          rw [hlook.1]
          exact hlook.2
        exact ⟨_, .hide _ (hides_look hdoing hright), ha.step h.inv hs (hsame rfl)
          (hfollows _ fun _ _ => List.mem_cons_self ..)⟩
      · have hstands := ha.step h.inv hs (hsame rfl)
          (hfollows known fun hop hst => absurd ⟨hop, hst⟩ hlook)
        rw [hstay] at hstands
        exact ⟨a, .hide a .stay, hstands⟩
    | ret r =>
      rw [hn] at hs hflight hsame hacc
      have hreceived : r.received = [] := by
        have hnil : r.received.map Prod.fst ++ inflight (Pc.idle : Pc V) = [] := by
          simpa [nextRet, nextPc] using hflight.symm
        exact List.map_eq_nil_iff.mp (List.append_eq_nil_iff.mp hnil).1
      have hidle : Follows cfg (τ ++ [(t, .access o.2.2 (nextRet (.ret r)))])
          (⟨o.1, Function.update s.pc t .idle⟩ : State Tid V) t .idle :=
        .idle (Function.update_self ..)
      have hstands := ha.step h.inv hs (hsame hacc) hidle
      rcases answer_right h ha hc hnone hknows ho hn hreceived with hmem | hright
      · exact ⟨_, moves_known (S := board cfg.capacity) hdoing hmem, hstands⟩
      · exact ⟨_, moves_right (S := board cfg.capacity) hdoing hright, hstands⟩

/-- Every step of the queue is explained by the board. -/
theorem explained_step (hr : Reach cfg τ s) (ha : Stands cfg τ s a) (hs : Step cfg s (t, l) s') :
    ∃ a', Moves (board cfg.capacity) t a (shown l) a' ∧ Stands cfg (τ ++ [(t, l)]) s' a' := by
  obtain ⟨g, h⟩ := reach_history hr
  rcases step_cases hs with ⟨op, rfl, hidle, -, rfl⟩ | ⟨flag, fail, o, ho, rfl, rfl⟩
  · exact explained_call h ha hidle hs
  · cases he : o.2.2 with
    | none => exact he ▸ explained_quiet hr h ha ho (by rw [he]; rfl) (by rw [he]; rfl) hs
    | some e =>
      cases e with
      | claimed tail v =>
        exact he ▸ explained_claim h ha ho (by rw [he]; rfl) (by rw [he]; rfl) hs
      | taken head n =>
        rcases Nat.eq_zero_or_pos n with rfl | hpos
        · exact he ▸ explained_quiet hr h ha ho (by rw [he]; rfl) (by rw [he]; rfl) hs
        · exact he ▸ explained_take h ha ho hpos he hs
      | storedTail start =>
        exact he ▸ explained_quiet hr h ha ho (by rw [he]; rfl) (by rw [he]; rfl) hs

end Steps

/-- The queue is linearizable. Every run, of any threads and with any overlap of
their operations, shows calls and answers that the board explains, and the board
ends with the values that are claimed and not taken, each with the thread that
pushes it and whether its push has returned. -/
theorem queue_linearizable (h : Reach cfg τ s) :
    ∃ a, Explains (board cfg.capacity) ⟨[], fun _ => .idle⟩ (τ.flatMap shows) a ∧
      a.value = slots τ := by
  have hinit : Stands cfg [] (State.init Tid V) ⟨[], fun _ => .idle⟩ :=
    ⟨rfl, fun _ => .idle rfl⟩
  have hkeep : ∀ (τ : List (Tid × Label V)) (s : State Tid V) (l : Tid × Label V)
      (s' : State Tid V) a, Reach cfg τ s → Stands cfg τ s a → Step cfg s l s' →
      ∃ a', Explains (board cfg.capacity) a (shows l) a' ∧ Stands cfg (τ ++ [l]) s' a' := by
    intro τ s l s' a hr hst hs
    obtain ⟨a', hmoves, hstands⟩ := explained_step (t := l.1) (l := l.2) hr hst hs
    exact ⟨a', hmoves.explains, hstands⟩
  obtain ⟨a, ha, hstands⟩ := explains_run hinit hkeep h
  exact ⟨a, ha, hstands.value⟩

/-- Thread 0 stops in its push of 7 behind the claim; thread 1 pops, and pops again
when the push has returned. -/
def popDuringPush : List (Fin 2 × Choice ℕ) :=
  (0, .call (.push 7)) :: List.replicate 4 (0, .run 0 false) ++
  (1, .call .pop) :: List.replicate 4 (1, .run 0 false) ++
  List.replicate 4 (0, .run 0 false) ++
  (1, .call .pop) :: List.replicate 6 (1, .run 0 false)

/-- In that run the board explains a pop that finds nothing while the push of the
first value has not returned. -/
theorem queue_linearizable_of_popDuringPush :
    ∃ (τ : List (Fin 2 × Label ℕ)) (s : State (Fin 2) ℕ)
      (a : Object (Fin 2) (List (Slot (Fin 2) ℕ)) (Op ℕ) (Answer ℕ)),
      Reach QueueDelivery.plain τ s ∧ Explains (board none) ⟨[], fun _ => .idle⟩
        [(0, .call (.push 7)), (1, .call .pop), (1, .answer .nothing), (0, .answer .pushed),
          (1, .call .pop), (1, .answer (.values [7]))] a ∧ a.value = [] := by
  have h : ((State.init (Fin 2) ℕ).runs QueueDelivery.plain popDuringPush).map
      (fun r => (r.1.flatMap shows, (untaken r.1).length)) =
      some ([(0, .call (.push 7)), (1, .call .pop), (1, .answer .nothing), (0, .answer .pushed),
        (1, .call .pop), (1, .answer (.values [7]))], 0) := by
    decide +kernel
  obtain ⟨⟨τ, s⟩, hrun, h⟩ := Option.map_eq_some_iff.mp h
  simp only [Prod.mk.injEq, List.length_eq_zero_iff] at h
  have hreach : Reach QueueDelivery.plain τ s := State.runs_run hrun
  obtain ⟨a, ha, hvalue⟩ := queue_linearizable hreach
  have hempty : slots τ = [] := by
    rw [slots, h.2, List.map_nil]
  rw [h.1] at ha
  exact ⟨τ, s, a, hreach, ha, hvalue.trans hempty⟩

end Rapidfire.QueueLinear
