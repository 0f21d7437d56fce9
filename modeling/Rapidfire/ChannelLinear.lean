import Rapidfire.ChannelMailbox

/-!
# Linearizability of the channel

The channel is a client of the queue, and the queue is explained by a board of
values. What an agent does on the board and what it does on the mailbox go together,
step by step, so every run of the channel is explained by a mailbox: sends and
receives of all kinds, closes, dropped futures and dropped handles, with any overlap.
-/

namespace Rapidfire.ChannelLinear

open Positions QueueMemory QueueMachine QueueHistory ChannelState ChannelMachine ChannelQueue
  ChannelMailbox Runs
open QueueLinear (Slot Answer answerOf board slots untaken)
open Objects (Doing Object Event Hides Moves Explains)

variable {Tid V : Type} {cfg : Config Tid} {closed closed' : Bool} {R : Request V}
  {K K' : List (ChannelMachine.Ret V)} {k : QueueK V} {ans : Answer V}
  {d : Doing (QueueMachine.Op V) (Answer V)} {e : Doing (Request V) (ChannelMachine.Ret V)}

section Links

/-- A message of the mailbox and its value on the board. The mailbox learns later
that its send has returned. -/
def Lags (m b : Slot Tid V) : Prop :=
  m.owner = b.owner ∧ m.value = b.value ∧ (m.ready = true → b.ready = true)

/-- What an agent does on the mailbox, when it does this on the board. -/
def QueueLink (cfg : Config Tid) (closed : Bool) (k : QueueK V)
    (d : Doing (QueueMachine.Op V) (Answer V))
    (e : Doing (Request V) (ChannelMachine.Ret V)) : Prop :=
  match d with
  | .idle => False
  | .called op known => op = k.op cfg ∧ ∃ R K, e = .called R K ∧ QueueK.Asks closed k R ∧
      ∀ ans ∈ known, QueueK.Reveals closed K k ans
  | .effected ans => QueueK.Took e k ans

/-- What an agent does on the board and on the mailbox, by its program point. -/
def Link (cfg : Config Tid) (closed : Bool) (pc : AgentPc Tid V)
    (d : Doing (QueueMachine.Op V) (Answer V))
    (e : Doing (Request V) (ChannelMachine.Ret V)) : Prop :=
  match pc with
  | .queue k _ => QueueLink cfg closed k d e
  | pc => d = .idle ∧ Holds closed e pc

/-- The board and the mailbox of a channel go together. -/
structure Related (cfg : Config Tid) (closed : Bool) (pcs : Tid → AgentPc Tid V)
    (b : Object Tid (List (Slot Tid V)) (QueueMachine.Op V) (Answer V))
    (a : Object Tid (Mailbox Tid V) (Request V) (ChannelMachine.Ret V)) : Prop where
  flag : a.value.closed = closed
  slots : List.Forall₂ Lags a.value.slots b.value
  link : ∀ u, Link cfg closed (pcs u) (b.doing u) (a.doing u)

theorem asks_mono (hc : closed = true → closed' = true) (h : QueueK.Asks closed k R) :
    QueueK.Asks closed' k R := by
  cases k with
  | isEmpty k =>
    obtain ⟨hR, hroom, hclosed⟩ := h
    exact ⟨hR, hroom, hc hclosed⟩
  | _ => exact h

/-- What is known of the mailbox stays known. -/
theorem reveals_mono (hc : closed = true → closed' = true) (hK : K ⊆ K')
    (h : QueueK.Reveals closed K k ans) : QueueK.Reveals closed' K' k ans := by
  cases k with
  | push k v =>
    cases ans with
    | full w =>
      obtain ⟨hw, hfull⟩ := h
      exact ⟨hw, fun hk => hK (hfull hk)⟩
    | _ => exact h.elim
  | pop k =>
    cases ans with
    | nothing =>
      intro hk hopen
      refine hK (h hk (Bool.eq_false_iff.mpr fun hclosed => ?_))
      rw [hc hclosed] at hopen
      cases hopen
    | _ => exact h.elim
  | isEmpty k =>
    cases ans with
    | answer b => exact fun hb => hK (h hb)
    | _ => exact h.elim
  | batch many =>
    cases ans with
    | values vs =>
      obtain ⟨hvs, hend⟩ := h
      exact ⟨hvs, fun hne => hK (hend hne)⟩
    | unwound => trivial
    | _ => exact h.elim
  | len =>
    cases ans with
    | length n => exact hK h
    | _ => exact h.elim
  | parkSender id v | parkReceiver id many | claimsBelow id tail wait many =>
    cases ans with
    | parked | answer b => exact h
    | _ => exact h.elim

/-- An agent that does not move stays linked when the channel is closed. -/
theorem link_mono (hc : closed = true → closed' = true) {pc : AgentPc Tid V}
    (h : Link cfg closed pc d e) : Link cfg closed' pc d e := by
  cases pc with
  | queue k pc =>
    cases d with
    | idle => exact h
    | called op known =>
      obtain ⟨hop, R, K, he, hasks, hreveals⟩ := h
      exact ⟨hop, R, K, he, asks_mono hc hasks, fun ans hans =>
        reveals_mono hc (List.Subset.refl K) (hreveals ans hans)⟩
    | effected ans => exact h
  | recvState k =>
    obtain ⟨hd, hroom, K, he, hempty⟩ := h
    refine ⟨hd, hroom, K, he, fun hk hopen => hempty hk (Bool.eq_false_iff.mpr fun hclosed => ?_)⟩
    rw [hc hclosed] at hopen
    cases hopen
  | _ => exact h

/-- What an agent does on the board that is about to call an operation of the queue,
or stays outside. -/
def Entered (cfg : Config Tid) (d : Doing (QueueMachine.Op V) (Answer V)) :
    AgentPc Tid V → Prop
  | .queue k _ => d = .called (k.op cfg) []
  | _ => d = .idle

/-- An agent that has entered the queue, or stays outside, is linked. -/
theorem link_entered {pc : AgentPc Tid V} (hd : Entered cfg d pc) (h : Holds closed e pc) :
    Link cfg closed pc d e := by
  cases pc with
  | queue k pc =>
    obtain ⟨R, K, he, hasks⟩ := h
    obtain rfl : d = .called (k.op cfg) [] := hd
    exact ⟨rfl, R, K, he, hasks, fun ans hans => by cases hans⟩
  | _ => exact ⟨hd, h⟩

/-- A receive that took values on the board took messages from the mailbox. -/
theorem took_of_values {vs : List V} (h : QueueK.Took e k (.values vs)) : Took e := by
  cases k with
  | pop k =>
    obtain ⟨v, -, hreceived⟩ := h
    cases k with
    | call =>
      obtain rfl : e = .effected (.tryRecv (.ok v)) := hreceived
      trivial
    | first many | second id tail wait many =>
      cases many with
      | none =>
        obtain rfl : e = .effected (.recv (.ok v)) := hreceived
        trivial
      | some limit =>
        obtain ⟨-, -, K, rfl⟩ := hreceived
        exact List.cons_ne_nil v []
  | batch many =>
    obtain ⟨hne, -, K, rfl⟩ := h
    exact List.append_ne_nil_of_right_ne_nil _ hne
  | _ => exact h.elim

end Links

variable [DecidableEq Tid] {t u : Tid} {pcs : Tid → AgentPc Tid V}
  {b b' : Object Tid (List (Slot Tid V)) (QueueMachine.Op V) (Answer V)}
  {a : Object Tid (Mailbox Tid V) (Request V) (ChannelMachine.Ret V)}

section Slots

omit [DecidableEq Tid]

theorem lags_values {xs ys : List (Slot Tid V)} (h : List.Forall₂ Lags xs ys) :
    xs.map Slot.value = ys.map Slot.value := by
  induction h with
  | nil => rfl
  | cons hl _ ih => exact congrArg₂ List.cons hl.2.1 ih

theorem lags_owned {xs ys : List (Slot Tid V)} (h : List.Forall₂ Lags xs ys) :
    (xs.map fun e => (e.owner, e.value)) = ys.map fun e => (e.owner, e.value) := by
  induction h with
  | nil => rfl
  | cons hl _ ih => exact congrArg₂ List.cons (Prod.ext hl.1 hl.2.1) ih

/-- The mailbox splits as the board does. -/
theorem lags_split {xs front rest : List (Slot Tid V)} (h : List.Forall₂ Lags xs (front ++ rest)) :
    ∃ front' rest', xs = front' ++ rest' ∧ List.Forall₂ Lags front' front ∧
      List.Forall₂ Lags rest' rest :=
  ⟨_, _, (List.take_append_drop front.length xs).symm, List.forall₂_take_append _ _ _ h,
    List.forall₂_drop_append _ _ _ h⟩

/-- A mailbox that is not ready in front stalls where the board does. -/
theorem stalls_of_board (hslots : List.Forall₂ Lags a.value.slots b.value)
    (hothers : ∀ u, u ≠ t → Link cfg closed (pcs u) (b.doing u) (a.doing u))
    (h : QueueLinear.Stalls b.value b.doing t) : Stalls a.value a.doing t := by
  rcases h with hnil | ⟨x, hx, hready⟩ | ⟨u, hu, vs, hvs⟩
  · rw [hnil, List.forall₂_nil_right_iff] at hslots
    exact .inl hslots
  · refine .inr (.inl ?_)
    obtain ⟨rest, hrest⟩ : ∃ rest, b.value = x :: rest := by
      cases hb : b.value with
      | nil => simp [hb] at hx
      | cons y rest => exact ⟨rest, by simpa [hb] using hx⟩
    rw [hrest, List.forall₂_cons_right_iff] at hslots
    obtain ⟨m, ms, hlag, -, hms⟩ := hslots
    refine ⟨m, by simp [hms], Bool.eq_false_iff.mpr fun hm => ?_⟩
    rw [hlag.2.2 hm] at hready
    cases hready
  · refine .inr (.inr ⟨u, hu, ?_⟩)
    have hlink := hothers u hu
    rw [hvs] at hlink
    generalize pcs u = pc at hlink
    cases pc with
    | queue k pc => exact took_of_values hlink
    | _ => cases hlink.1

end Slots

section Actions

/-- After at most one move that no client sees, the mailbox is `m` and the agent is
doing something of this kind. -/
def Slips (capacity : Option ℕ) (t : Tid)
    (a : Object Tid (Mailbox Tid V) (Request V) (ChannelMachine.Ret V)) (m : Mailbox Tid V)
    (P : Doing (Request V) (ChannelMachine.Ret V) → Prop) : Prop :=
  ∃ a', Hides (mailbox capacity) t a a' ∧ a'.value = m ∧
    (∀ u, u ≠ t → a'.doing u = a.doing u) ∧ P (a'.doing t)

variable {capacity : Option ℕ} {m : Mailbox Tid V}
  {P : Doing (Request V) (ChannelMachine.Ret V) → Prop}

theorem slips_stay (h : P (a.doing t)) : Slips capacity t a a.value P :=
  ⟨a, .stay, rfl, fun _ _ => rfl, h⟩

theorem slips_set (hh : Hides (mailbox capacity) t a (a.set t m e)) (h : P e) :
    Slips capacity t a m P :=
  ⟨_, hh, rfl, fun _ hu => Object.set_other a m e hu, by rwa [Object.set_self]⟩

/-- What a look at the board tells of the mailbox. -/
def Learnt (closed : Bool) (R : Request V) (K : List (ChannelMachine.Ret V)) (k : QueueK V)
    (ans : Answer V) (e : Doing (Request V) (ChannelMachine.Ret V)) : Prop :=
  ∃ K', K ⊆ K' ∧ e = .called R K' ∧ QueueK.Reveals closed K' k ans

/-- The mailbox need not be looked at. -/
theorem learns_nothing (h : a.doing t = .called R K) (hr : QueueK.Reveals closed K k ans) :
    Slips capacity t a a.value (Learnt closed R K k ans) :=
  slips_stay ⟨K, List.Subset.refl K, h, hr⟩

/-- The mailbox is looked at. -/
theorem learns {r : ChannelMachine.Ret V} (h : a.doing t = .called R K)
    (hright : right capacity a.value a.doing t R r)
    (hr : QueueK.Reveals closed (r :: K) k ans) :
    Slips capacity t a a.value (Learnt closed R K k ans) :=
  slips_set (Objects.hides_look h hright) ⟨r :: K, List.subset_cons_self r K, rfl, hr⟩

omit [DecidableEq Tid] in
/-- A single receive finds nothing when the board stalls. -/
theorem popOp_right (h : QueueLinear.right cfg.capacity b.value b.doing t (popOp cfg) ans) :
    ans = .nothing ∧ QueueLinear.Stalls b.value b.doing t := by
  unfold popOp at h
  split at h
  · cases ans with
    | nothing => exact ⟨rfl, h⟩
    | _ => exact h.elim
  · cases ans with
    | nothing => exact ⟨rfl, h⟩
    | _ => exact h.elim

/-- A look at the board is at most a look at the mailbox. -/
theorem look_slips (hclosed : a.value.closed = closed)
    (hslots : List.Forall₂ Lags a.value.slots b.value)
    (hothers : ∀ u, u ≠ t → Link cfg closed (pcs u) (b.doing u) (a.doing u))
    (hcalled : a.doing t = .called R K) (hasks : QueueK.Asks closed k R)
    (h : QueueLinear.right cfg.capacity b.value b.doing t (k.op cfg) ans) :
    Slips cfg.capacity t a a.value (Learnt closed R K k ans) := by
  have hlength := hslots.length_eq
  cases k with
  | push k v =>
    cases ans with
    | full w =>
      obtain ⟨rfl, hcap⟩ := h
      cases k with
      | call =>
        obtain rfl : R = .trySend true w := hasks
        exact learns (r := .trySend (.full w)) hcalled ⟨rfl, hlength ▸ hcap⟩
          ⟨rfl, fun _ => List.mem_cons_self ..⟩
      | first | second id => exact learns_nothing hcalled ⟨rfl, fun hk => by cases hk⟩
    | _ => exact h.elim
  | parkSender id v | parkReceiver id many =>
    cases ans with
    | parked => exact learns_nothing hcalled trivial
    | _ => exact h.elim
  | claimsBelow id tail wait many =>
    cases ans with
    | answer below => exact learns_nothing hcalled trivial
    | _ => exact h.elim
  | pop k =>
    obtain ⟨rfl, hstalls⟩ := popOp_right h
    obtain ⟨rfl, -⟩ := hasks
    cases closed with
    | true => exact learns_nothing hcalled fun _ hopen => by cases hopen
    | false =>
      cases k with
      | call =>
        have hempty := stalls_of_board hslots hothers hstalls
        exact learns (r := .tryRecv .empty) hcalled ⟨hclosed, hempty⟩
          fun _ _ => List.mem_cons_self ..
      | first many | second id tail wait many => exact learns_nothing hcalled fun hk => by cases hk
  | isEmpty k =>
    obtain ⟨rfl, -, rfl⟩ := hasks
    cases ans with
    | answer empty =>
      cases empty with
      | false => exact learns_nothing hcalled fun hb => by cases hb
      | true =>
        have hnil : a.value.slots = [] := by
          rw [h rfl, List.forall₂_nil_right_iff] at hslots
          exact hslots
        refine learns (r := RecvK.drained k) hcalled ?_ fun _ => List.mem_cons_self ..
        cases k with
        | call => exact ⟨hclosed, hnil⟩
        | first many | second id tail wait many =>
          cases many with
          | none => exact ⟨hclosed, hnil⟩
          | some limit => exact ⟨rfl, hclosed, hnil⟩
    | _ => exact h.elim
  | batch many =>
    obtain ⟨rfl, hroom⟩ := hasks
    cases ans with
    | values vs =>
      obtain ⟨rfl, hend⟩ := h
      by_cases hnil : many.values = []
      · exact learns_nothing hcalled ⟨rfl, fun hne => absurd hnil hne⟩
      · have hlt : many.values.length < many.limit := hroom
        have hstalls : QueueLinear.Stalls b.value b.doing t :=
          hend.resolve_left (by omega)
        have hempty := stalls_of_board hslots hothers hstalls
        exact learns (r := .recvMany (some many.values)) hcalled ⟨rfl, .inr ⟨hnil, hempty⟩⟩
          ⟨rfl, fun _ => List.mem_cons_self ..⟩
    | unwound => exact learns_nothing hcalled trivial
    | _ => exact h.elim
  | len =>
    obtain rfl : R = .len := hasks
    cases ans with
    | length n =>
      obtain ⟨hle, hcap⟩ := h
      exact learns (r := .length n) hcalled ⟨hlength ▸ hle, hcap⟩ (List.mem_cons_self ..)
    | _ => exact h.elim

/-- A receive of one message takes the first. -/
theorem receive_slips {k : RecvK} {x : Slot Tid V} {xs : List (Slot Tid V)}
    (hcalled : a.doing t = .called (RecvK.request k) K)
    (hroom : (RecvK.request k : Request V).Room) (hslots : a.value.slots = x :: xs) :
    Slips capacity t a ⟨xs, a.value.closed⟩ fun e => Received x.value e (RecvK.request k) := by
  have hfuture : ∀ many, (future many : Request V).Room → a.doing t = .called (future many) K →
      Slips capacity t a ⟨xs, a.value.closed⟩ fun e => Received x.value e (future many) := by
    intro many hroom hcalled
    cases many with
    | none =>
      have heffect : (mailbox capacity).effect a.value t .recv (.recv (.ok x.value))
          ⟨xs, a.value.closed⟩ := .recv x xs hslots
      exact slips_set (Objects.hides_effect hcalled heffect) rfl
    | some limit =>
      have hadvance : (mailbox capacity).advance a.value (.recvMany limit [])
          ⟨xs, a.value.closed⟩ (.recvMany limit [x.value]) :=
        .recvMany limit [] [x] xs hslots (List.cons_ne_nil x []) hroom
      exact slips_set (Objects.hides_advance hcalled hadvance) ⟨rfl, hroom, [], rfl⟩
  cases k with
  | call =>
    have heffect : (mailbox capacity).effect a.value t .tryRecv (.tryRecv (.ok x.value))
        ⟨xs, a.value.closed⟩ := .tryRecv x xs hslots
    exact slips_set (Objects.hides_effect hcalled heffect) rfl
  | first many | second id tail wait many => exact hfuture many hroom hcalled

omit [DecidableEq Tid] in
/-- Operations of the queue that take values. -/
theorem receives_cases {n : ℕ} (h : QueueLinear.Receives (k.op cfg) n) :
    (∃ k', k = .pop k' ∧ n = 1) ∨
      ∃ many, k = .batch many ∧ 0 < n ∧ n ≤ many.limit - many.values.length := by
  cases k with
  | pop k =>
    refine .inl ⟨k, rfl, ?_⟩
    change QueueLinear.Receives (popOp cfg) n at h
    unfold popOp at h
    split at h
    · exact h
    · exact h
  | batch many => exact .inr ⟨many, rfl, h⟩
  | _ => exact h.elim

omit [DecidableEq Tid] in
/-- Operations of the queue that push. -/
theorem push_cases {v : V} (h : k.op cfg = .push v) : ∃ k', k = .push k' v := by
  cases k with
  | push k' w =>
    obtain rfl : w = v := QueueMachine.Op.push.inj h
    exact ⟨k', rfl⟩
  | pop k =>
    change popOp cfg = .push v at h
    unfold popOp at h
    split at h <;> cases h
  | _ => cases h

/-- An effect on the board is a move on the mailbox. -/
theorem effect_slips (hslots : List.Forall₂ Lags a.value.slots b.value)
    (hcalled : a.doing t = .called R K) (hasks : QueueK.Asks closed k R)
    {x : List (Slot Tid V)}
    (h : QueueLinear.Effects cfg.capacity b.value t (k.op cfg) ans x) :
    ∃ xs, List.Forall₂ Lags xs x ∧
      Slips cfg.capacity t a ⟨xs, a.value.closed⟩ fun e => QueueK.Took e k ans := by
  have hlength := hslots.length_eq
  generalize hop : k.op cfg = op at h
  cases h with
  | push v hroom =>
    obtain ⟨k', rfl⟩ := push_cases hop
    obtain rfl : R = SendK.request k' true v := hasks
    refine ⟨a.value.slots ++ [⟨t, v, false⟩], ?_, ?_⟩
    · exact List.rel_append hslots (.cons ⟨rfl, rfl, id⟩ .nil)
    · have heffect : (mailbox cfg.capacity).effect a.value t (SendK.request k' true v)
          (SendK.answer k' .ok) ⟨a.value.slots ++ [⟨t, v, false⟩], a.value.closed⟩ := by
        cases k' with
        | call => exact .trySend v fun cap hcap => hlength ▸ hroom cap hcap
        | first | second id => exact .send v fun cap hcap => hlength ▸ hroom cap hcap
      exact slips_set (Objects.hides_effect hcalled heffect) rfl
  | receive op front rest hsplit hreceives hready =>
    rw [hsplit] at hslots
    obtain ⟨front', rest', hfront, hlags, hrest⟩ := lags_split hslots
    have hvalues := lags_values hlags
    have hcount := hlags.length_eq
    subst hop
    rcases receives_cases hreceives with ⟨k', rfl, hone⟩ | ⟨many, rfl, hpos, hle⟩
    · obtain ⟨rfl, hroom⟩ := hasks
      obtain ⟨y, hy⟩ := List.length_eq_one_iff.mp (hcount.trans hone)
      rw [hy] at hfront hvalues
      have hslips : Slips cfg.capacity t a ⟨rest', a.value.closed⟩
          fun e => Received y.value e (RecvK.request k') := receive_slips hcalled hroom hfront
      obtain ⟨c, hc, hm, hdoing, hreceived⟩ := hslips
      exact ⟨rest', hrest, c, hc, hm, hdoing, y.value, hvalues.symm, hreceived⟩
    · obtain ⟨rfl, hroom⟩ := hasks
      have hne : front' ≠ [] := List.ne_nil_of_length_pos (hcount ▸ hpos)
      have hlimit : many.values.length + front'.length ≤ many.limit := by
        have hlt : many.values.length < many.limit := hroom
        omega
      have hadvance : (mailbox cfg.capacity).advance a.value
          (.recvMany many.limit many.values) ⟨rest', a.value.closed⟩
          (.recvMany many.limit (many.values ++ front'.map Slot.value)) :=
        .recvMany _ _ front' rest' hfront hne hlimit
      rw [← hvalues]
      refine ⟨rest', hrest, slips_set (Objects.hides_advance hcalled hadvance) ⟨?_, ?_, [], rfl⟩⟩
      · exact fun hnil => hne (List.map_eq_nil_iff.mp hnil)
      · rw [List.length_append, List.length_map]
        exact hlimit

/-- A move on the board that no client sees is at most one on the mailbox. -/
theorem hides_related (h : Related cfg closed pcs b a) {pc : Pc V} (hpc : pcs t = .queue k pc)
    (hh : Hides (board cfg.capacity) t b b') :
    ∃ a', Hides (mailbox cfg.capacity) t a a' ∧ Related cfg closed pcs b' a' := by
  have hlink := h.link t
  rw [hpc] at hlink
  have hrelated : ∀ {x : List (Slot Tid V)} {d : Doing (QueueMachine.Op V) (Answer V)}
      {xs : List (Slot Tid V)} {P : Doing (Request V) (ChannelMachine.Ret V) → Prop},
      List.Forall₂ Lags xs x → Slips cfg.capacity t a ⟨xs, a.value.closed⟩ P →
      (∀ e, P e → QueueLink cfg closed k d e) →
      ∃ a', Hides (mailbox cfg.capacity) t a a' ∧ Related cfg closed pcs (b.set t x d) a' := by
    intro x d xs P hxs hslips hP
    obtain ⟨a', ha', hvalue, hothers, hp⟩ := hslips
    refine ⟨a', ha', ⟨?_, ?_, fun u => ?_⟩⟩
    · rw [hvalue]
      exact h.flag
    · rw [hvalue]
      exact hxs
    · by_cases hu : u = t
      · rw [hu, hpc, Object.set_self]
        exact hP _ hp
      · rw [hothers u hu, Object.set_other b x d hu]
        exact h.link u
  cases hh with
  | stay => exact ⟨a, .stay, h⟩
  | act act _ hs hnone =>
    cases hs with
    | look _ op known ans hdoing hright =>
      rw [hdoing] at hlink
      obtain ⟨rfl, R, K, hcalled, hasks, hreveals⟩ := hlink
      have hlearns := look_slips h.flag h.slots (fun u _ => h.link u) hcalled hasks hright
      refine hrelated h.slots hlearns fun e he => ?_
      obtain ⟨K', hK, rfl, hans⟩ := he
      refine ⟨rfl, R, K', rfl, hasks, fun ans' hans' => ?_⟩
      rcases List.mem_cons.mp hans' with rfl | hans'
      · exact hans
      · exact reveals_mono id hK (hreveals ans' hans')
    | effect _ op known ans x hdoing heffect =>
      rw [hdoing] at hlink
      obtain ⟨rfl, R, K, hcalled, hasks, -⟩ := hlink
      obtain ⟨xs, hxs, hslips⟩ := effect_slips h.slots hcalled hasks heffect
      exact hrelated hxs hslips fun e he => he
    | advance _ _ _ _ _ _ hadvance => exact hadvance.elim
    | call _ _ _ | effected _ _ _ | known _ _ _ _ _ _ => cases hnone

end Actions

section Answers

omit [DecidableEq Tid] in
/-- The mailbox lags behind a board on which a push has returned. -/
theorem lags_settle [DecidableEq Tid] {xs ys : List (Slot Tid V)} (h : List.Forall₂ Lags xs ys)
    (t : Tid) (ans : Answer V) : List.Forall₂ Lags xs (QueueLinear.settle ys t ans) := by
  cases ans with
  | pushed =>
    refine List.forall₂_map_right_iff.mpr (h.imp fun x y hxy => ?_)
    obtain ⟨howner, hvalue, hready⟩ := hxy
    split
    · exact ⟨howner, hvalue, fun _ => rfl⟩
    · exact ⟨howner, hvalue, hready⟩
  | _ => exact h

omit [DecidableEq Tid] in
/-- The mailbox learns that a send has returned, when its values on the board are
ready. -/
theorem lags_settled [DecidableEq Tid] {m : Mailbox Tid V} {ys : List (Slot Tid V)}
    (h : List.Forall₂ Lags m.slots ys) (r : ChannelMachine.Ret V)
    (hready : ∀ e ∈ ys, e.owner = t → e.ready = true) :
    List.Forall₂ Lags (ChannelMailbox.settle m t r).slots ys ∧
      (ChannelMailbox.settle m t r).closed = m.closed := by
  have hlearn : List.Forall₂ Lags
      (m.slots.map fun e => if e.owner = t then { e with ready := true } else e) ys := by
    rw [List.forall₂_map_left_iff]
    generalize m.slots = xs at h
    induction h with
    | nil => exact .nil
    | @cons x y xs ys hxy _ ih =>
      obtain ⟨howner, hvalue, hle⟩ := hxy
      refine .cons ?_ (ih fun e he => hready e (List.mem_cons_of_mem _ he))
      split
      · rename_i ht
        exact ⟨howner, hvalue, fun _ => hready y (List.mem_cons_self ..) (howner.symm.trans ht)⟩
      · exact ⟨howner, hvalue, hle⟩
  cases r with
  | trySend r | send r =>
    cases r with
    | ok => exact ⟨hlearn, rfl⟩
    | _ => exact ⟨h, rfl⟩
  | _ => exact ⟨h, rfl⟩

/-- An agent whose operation of the queue has answered goes on with the result. -/
theorem answer_lands (h : Related cfg closed pcs b a) {pc : Pc V} (hpc : pcs t = .queue k pc)
    {r : QueueMachine.Ret V} (hfits : FitsRet k r)
    (hs : Objects.Step (board cfg.capacity) b (t, .answer (answerOf r)) b') :
    Lands cfg.capacity a.value a.doing t (k.finish cfg r) ∧ b'.doing t = .idle ∧
      (∀ u, u ≠ t → b'.doing u = b.doing u) ∧ List.Forall₂ Lags a.value.slots b'.value := by
  have hlink := h.link t
  rw [hpc] at hlink
  cases hs with
  | effected _ _ hdoing =>
    rw [hdoing] at hlink
    exact ⟨lands_took hfits hlink, Object.set_self .., fun u hu => Object.set_other b _ _ hu,
      lags_settle h.slots t _⟩
  | known _ op known _ hdoing hans =>
    rw [hdoing] at hlink
    obtain ⟨-, R, K, hcalled, hasks, hreveals⟩ := hlink
    rw [← h.flag] at hasks hreveals
    exact ⟨lands_revealed hfits hcalled hasks (hreveals _ hans), Object.set_self ..,
      fun u hu => Object.set_other b _ _ hu, h.slots⟩

/-- Results as answers of the mailbox. A poll that is pending does not answer. -/
def answers : Option (ChannelMachine.Ret V) → List (ChannelMachine.Ret V)
  | none | some .pending => []
  | some r => [r]

omit [DecidableEq Tid] in
/-- An operation that ends answers. -/
theorem answers_of_lands [DecidableEq Tid] {pc : AgentPc Tid V} {r : ChannelMachine.Ret V}
    (hr : r ≠ .pending) (h : Lands cfg.capacity a.value a.doing t (pc, some r)) :
    answers (some r) = [r] ∧ pc = .idle ∧ (a.doing t = .effected r ∨
      ∃ R K, a.doing t = .called R K ∧
        (r ∈ K ∨ right cfg.capacity a.value a.doing t R r)) := by
  cases r with
  | pending => exact absurd rfl hr
  | _ => exact ⟨rfl, h⟩

/-- An agent that lands gives its answer, if it has one, and the board and the
mailbox go together again. -/
theorem land {n : Goes Tid V} (hc : a.value.closed = closed)
    (hslots : List.Forall₂ Lags a.value.slots b.value)
    (hothers : ∀ u, u ≠ t → Link cfg closed (pcs u) (b.doing u) (a.doing u))
    (hb : Entered cfg (b.doing t) n.1) (h : Lands cfg.capacity a.value a.doing t n)
    (hready : n.1 = .idle → ∀ e ∈ b.value, e.owner = t → e.ready = true) :
    ∃ a', Explains (mailbox cfg.capacity) a ((answers n.2).map fun r => (t, .answer r)) a' ∧
      Related cfg closed (Function.update pcs t n.1) b a' := by
  obtain ⟨pc, ret⟩ := n
  have hstay : Holds a.value.closed (a.doing t) pc →
      Related cfg closed (Function.update pcs t pc) b a := by
    intro hholds
    refine ⟨hc, hslots, fun u => ?_⟩
    by_cases hu : u = t
    · rw [hu, Function.update_self]
      exact link_entered hb (hc ▸ hholds)
    · rw [Function.update_of_ne hu]
      exact hothers u hu
  have hend : pc = .idle → ∀ x : Mailbox Tid V, x.closed = closed →
      List.Forall₂ Lags x.slots b.value →
      Related cfg closed (Function.update pcs t pc) b (a.set t x .idle) := by
    rintro rfl x hx hxs
    refine ⟨hx, hxs, fun u => ?_⟩
    by_cases hu : u = t
    · rw [hu, Function.update_self, Object.set_self]
      exact ⟨hb, rfl⟩
    · rw [Function.update_of_ne hu, Object.set_other a x _ hu]
      exact hothers u hu
  cases ret with
  | none => exact ⟨a, Objects.explains_nil a, hstay h⟩
  | some r =>
    by_cases hr : r = .pending
    · subst hr
      exact ⟨a, Objects.explains_nil a, hstay h⟩
    · obtain ⟨hanswers, hidle, hdoing⟩ := answers_of_lands hr h
      rw [hanswers]
      rcases hdoing with heffected | ⟨R, K, hcalled, hknown | hright⟩
      · obtain ⟨hlags, hclosed⟩ := lags_settled hslots r (hready hidle)
        exact ⟨_, (Objects.moves_effected (S := mailbox cfg.capacity) heffected).explains,
          hend hidle _ (hclosed.trans hc) hlags⟩
      · exact ⟨_, (Objects.moves_known (S := mailbox cfg.capacity) hcalled hknown).explains,
          hend hidle _ hc hslots⟩
      · exact ⟨_, (Objects.moves_right (S := mailbox cfg.capacity) hcalled hright).explains,
          hend hidle _ hc hslots⟩

end Answers

section Refinement

/-- What a client sees of a step. -/
def shows (l : Tid × ChannelMachine.Label V) :
    List (Tid × Event (Request V) (ChannelMachine.Ret V)) :=
  ((l.2.call.toList.flatMap calls).map fun R => (l.1, .call R)) ++
    (answers l.2.ret).map fun r => (l.1, .answer r)

variable {s s' : ChannelMachine.State Tid V} {l : ChannelMachine.Label V}
  {τ : List (Tid × ChannelMachine.Label V)} {q q' : QueueMachine.State Tid V}
  {ρ : List (Tid × QueueMachine.Label V)}

/-- The board of an agent that enters the queue, or stays outside. -/
theorem board_enters (hr : QueueMachine.Reach cfg ρ q) (hb : QueueLinear.Stands cfg ρ q b)
    (hidle : b.doing t = .idle) {pc : AgentPc Tid V}
    (h : Run (QueueMachine.Step cfg) q ((entered cfg pc).map fun x => (t, x)) q') :
    ∃ b', QueueLinear.Stands cfg (ρ ++ (entered cfg pc).map fun x => (t, x)) q' b' ∧
      Entered cfg (b'.doing t) pc ∧ (∀ u, u ≠ t → b'.doing u = b.doing u) ∧
      b'.value = b.value := by
  cases pc with
  | queue k pc =>
    obtain ⟨m, hs, hrest⟩ := h.uncons
    obtain rfl := hrest.eq_of_nil
    obtain ⟨b', hmoves, hstands⟩ := QueueLinear.explained_step hr hb hs
    obtain rfl := hmoves.of_idle hidle
    exact ⟨_, hstands, Object.set_self .., fun u hu => Object.set_other b _ _ hu, rfl⟩
  | _ =>
    obtain rfl := h.eq_of_nil
    refine ⟨b, ?_, hidle, fun _ _ => rfl, rfl⟩
    rw [show (entered cfg _ : List (QueueMachine.Label V)) = [] from rfl, List.map_nil,
      List.append_nil]
    exact hb

omit [DecidableEq Tid] in
theorem queueLog_append (τ : List (Tid × ChannelMachine.Label V)) (t : Tid)
    (l : ChannelMachine.Label V) :
    queueLog (τ ++ [(t, l)]) = queueLog τ ++ l.queue.map fun x => (t, x) := by
  rw [queueLog, List.flatMap_append, List.flatMap_singleton]
  rfl

/-- The values of an agent that is idle are ready on the board. -/
theorem ready_of_idle (hr : ChannelMachine.Reach cfg τ s)
    (hb : QueueLinear.Stands cfg (queueLog τ) (queueState s) b) (hidle : s.pc t = .idle) :
    ∀ e ∈ b.value, e.owner = t → e.ready = true := by
  obtain ⟨g, hg⟩ := reach_history hr
  rw [hb.value]
  refine QueueLinear.slots_ready hg ?_
  rw [show (queueState s).pc t = queuePc (s.pc t) from rfl, hidle]
  rfl

omit [DecidableEq Tid] in
/-- The board of an agent outside the queue. -/
theorem board_idle (h : Related cfg closed pcs b a) (hpc : ∀ k pc, pcs t ≠ .queue k pc) :
    b.doing t = .idle ∧ Holds closed (a.doing t) (pcs t) := by
  have hlink := h.link t
  generalize pcs t = pc at hlink hpc
  cases pc with
  | queue k pc => exact absurd rfl (hpc k pc)
  | _ => exact hlink

variable {n : Goes Tid V} {c : Shared Tid V}
  {a₁ : Object Tid (Mailbox Tid V) (Request V) (ChannelMachine.Ret V)}

/-- An agent that has moved on the mailbox goes on, and enters the queue or stays
outside. -/
theorem moved_related (hr : ChannelMachine.Reach cfg (τ ++ [(t, l)]) s')
    (hs : s' = ⟨c, Function.update s.pc t n.1⟩) (hmoved : Moved cfg t a c.closed n a₁)
    (hslots : List.Forall₂ Lags a.value.slots b.value)
    (hlinks : ∀ u, u ≠ t → Link cfg c.closed (s.pc u) (b.doing u) (a.doing u))
    (hentered : Entered cfg (b.doing t) n.1)
    (hstands : QueueLinear.Stands cfg (queueLog (τ ++ [(t, l)])) (queueState s') b) :
    ∃ a', Explains (mailbox cfg.capacity) a₁ ((answers n.2).map fun r => (t, .answer r)) a' ∧
      Related cfg s'.shared.closed s'.pc b a' := by
  have hslots' : List.Forall₂ Lags a₁.value.slots b.value := by
    rw [hmoved.value]
    exact hslots
  have hlinks' : ∀ u, u ≠ t → Link cfg c.closed (s.pc u) (b.doing u) (a₁.doing u) := by
    intro u hu
    rw [hmoved.others u hu]
    exact hlinks u hu
  have hready : n.1 = .idle → ∀ e ∈ b.value, e.owner = t → e.ready = true := fun hn =>
    ready_of_idle hr hstands (by simp [hs, hn])
  have hflag := congrArg Mailbox.closed hmoved.value
  rw [hs]
  exact land hflag hslots' hlinks' hentered hmoved.lands hready

/-- A step outside the queue, which may enter it. -/
theorem linear_outside (hr : ChannelMachine.Reach cfg τ s)
    (hb : QueueLinear.Stands cfg (queueLog τ) (queueState s) b)
    (ha : Related cfg s.shared.closed s.pc b a) (hs : ChannelMachine.Step cfg s (t, l) s')
    (hs' : s' = ⟨c, Function.update s.pc t n.1⟩) (hl : l.queue = entered cfg n.1)
    (hidle : b.doing t = .idle) (hmoved : Moved cfg t a c.closed n a₁) :
    ∃ b' a', Explains (mailbox cfg.capacity) a₁ ((answers n.2).map fun r => (t, .answer r)) a' ∧
      QueueLinear.Stands cfg (queueLog (τ ++ [(t, l)])) (queueState s') b' ∧
      Related cfg s'.shared.closed s'.pc b' a' := by
  obtain ⟨hqueue, hok⟩ := reach_queue hr
  obtain ⟨g, hg⟩ := reach_history hr
  have hrun := (step_sim hg.inv hok hs).1
  rw [hl] at hrun
  obtain ⟨b', hstands, hentered, hothers, hvalue⟩ := board_enters hqueue hb hidle hrun
  rw [← hl, ← queueLog_append] at hstands
  have hlinks : ∀ u, u ≠ t → Link cfg c.closed (s.pc u) (b'.doing u) (a.doing u) := by
    intro u hu
    have hmono := step_closed cfg hs
    rw [hs'] at hmono
    rw [hothers u hu]
    exact link_mono hmono (ha.link u)
  have hslots : List.Forall₂ Lags a.value.slots b'.value := hvalue ▸ ha.slots
  obtain ⟨a', hanswers, hrelated⟩ :=
    moved_related (hr.tail hs) hs' hmoved hslots hlinks hentered hstands
  exact ⟨b', a', hanswers, hstands, hrelated⟩

/-- An access of the queue. -/
theorem linear_access {pc : Pc V} {fail : Bool} {o : Outcome V (Pc V) (QueueMachine.Ret V)}
    (hr : ChannelMachine.Reach cfg τ s)
    (hb : QueueLinear.Stands cfg (queueLog τ) (queueState s) b)
    (ha : Related cfg s.shared.closed s.pc b a) (hs : ChannelMachine.Step cfg s (t, l) s')
    (hpc : s.pc t = .queue k pc)
    (ho : pc.exec cfg (sampledCount s.shared pc) fail s.shared.queue = some o)
    (hl : l.queue = .access o.2.2 (nextRet o.2.1) :: called cfg (k.next cfg o.2.1).1 o.2.1)
    (hs' : s' = ⟨{ s.shared with queue := o.1 }, Function.update s.pc t (k.next cfg o.2.1).1⟩) :
    ∃ b' a', Explains (mailbox cfg.capacity) a
        ((answers (k.next cfg o.2.1).2).map fun r => (t, .answer r)) a' ∧
      QueueLinear.Stands cfg (queueLog (τ ++ [(t, l)])) (queueState s') b' ∧
      Related cfg s'.shared.closed s'.pc b' a' := by
  obtain ⟨hqueue, hok⟩ := reach_queue hr
  obtain ⟨g, hg⟩ := reach_history hr
  obtain ⟨g', hg', -⟩ := queue_access hg.inv hpc ho
  have hrun := (step_sim hg.inv hok hs).1
  have hlog := queueLog_append τ t l
  rw [hl] at hrun hlog
  obtain ⟨m, haccess, hrest⟩ := hrun.uncons
  replace haccess : QueueMachine.Step cfg (queueState s)
      (t, .access o.2.2 (nextRet o.2.1)) m := haccess
  obtain ⟨b₁, hmoves, hstands₁⟩ := QueueLinear.explained_step hqueue hb haccess
  cases hn : o.2.1 with
  | fault => exact absurd hn hg'.sound
  | goto pc' =>
    rw [hn] at hmoves hrest hlog hs' hstands₁
    obtain ⟨a', hhides, hrelated⟩ := hides_related ha hpc hmoves.hidden
    obtain rfl : queueState s' = m := hrest.eq_of_nil
    refine ⟨b₁, a', hhides.explains, hlog ▸ hstands₁, ?_⟩
    rw [hs']
    refine ⟨hrelated.flag, hrelated.slots, fun u => ?_⟩
    have hlink := hrelated.link u
    by_cases hu : u = t
    · subst hu
      rw [hpc] at hlink
      simp only [Function.update_self]
      exact hlink
    · simp only [Function.update_of_ne hu]
      exact hlink
  | ret r =>
    rw [hn] at hmoves hrest hlog hs' hstands₁ haccess
    have hfits : FitsRet k r := by
      have hin := (hok t).inside
      rw [hpc] at hin
      exact (exec_fits hin ho).2 r hn
    obtain ⟨b₂, hhides, hanswer⟩ := hmoves.shown
    obtain ⟨a₁, hhides', hrelated⟩ := hides_related ha hpc hhides
    obtain ⟨hlands, hidle, hothers, hslots⟩ := answer_lands hrelated hpc hfits hanswer
    obtain ⟨b', hstands, hentered, hothers', hvalue⟩ :=
      board_enters (hqueue.tail haccess) hstands₁ hidle hrest
    have hstands' : QueueLinear.Stands cfg (queueLog (τ ++ [(t, l)])) (queueState s') b' := by
      rw [hlog, List.map_cons, ← List.singleton_append, ← List.append_assoc]
      exact hstands
    have hmoved : Moved cfg t a₁ s.shared.closed (k.finish cfg r) a₁ :=
      ⟨by rw [← hrelated.flag], fun _ _ => rfl, hlands⟩
    have hlinks : ∀ u, u ≠ t → Link cfg s.shared.closed (s.pc u) (b'.doing u) (a₁.doing u) := by
      intro u hu
      rw [hothers' u hu, hothers u hu]
      exact hrelated.link u
    have hslots' : List.Forall₂ Lags a₁.value.slots b'.value := hvalue ▸ hslots
    obtain ⟨a', hanswers, hrelated'⟩ :=
      moved_related (hr.tail hs) hs' hmoved hslots' hlinks hentered hstands'
    exact ⟨b', a', hhides'.explains.append hanswers, hstands', hrelated'⟩

/-- Every step of the channel is explained by the mailbox. -/
theorem linear_step (hr : ChannelMachine.Reach cfg τ s)
    (hb : QueueLinear.Stands cfg (queueLog τ) (queueState s) b)
    (ha : Related cfg s.shared.closed s.pc b a) (hs : ChannelMachine.Step cfg s (t, l) s') :
    ∃ b' a', Explains (mailbox cfg.capacity) a (shows (t, l)) a' ∧
      QueueLinear.Stands cfg (queueLog (τ ++ [(t, l)])) (queueState s') b' ∧
      Related cfg s'.shared.closed s'.pc b' a' := by
  rcases ChannelMachine.step_cases cfg hs with ⟨op, c, n, h, -, hl, hs'⟩ |
    ⟨k, pc, fail, o, hpc, ho, hl, hs'⟩ | ⟨fail, c, n, h, hl, hs'⟩
  · have hout : ∀ k pc, s.pc t ≠ .queue k pc := fun k pc hpc => by
      rw [hpc] at h
      cases h
    obtain ⟨hidle, hholds⟩ := board_idle ha hout
    obtain ⟨a₁, hcalls, hmoved⟩ := starts_lands h ha.flag hholds
    obtain ⟨b', a', hanswers, hstands, hrelated⟩ :=
      linear_outside hr hb ha hs hs' (by rw [hl]) hidle hmoved
    refine ⟨b', a', ?_, hstands, hrelated⟩
    have hshows : shows (t, l) = ((calls op).map fun R => (t, .call R)) ++
        (answers n.2).map fun r => (t, .answer r) := by
      rw [hl, shows]
      simp
    rw [hshows]
    exact hcalls.append hanswers
  · obtain ⟨b', a', hanswers, hstands, hrelated⟩ := linear_access hr hb ha hs hpc ho
      (by rw [hl]) hs'
    refine ⟨b', a', ?_, hstands, hrelated⟩
    rw [hl]
    exact hanswers
  · have hout : ∀ k pc, s.pc t ≠ .queue k pc := fun k pc hpc => by
      rw [hpc] at h
      cases h
    obtain ⟨hidle, hholds⟩ := board_idle ha hout
    obtain ⟨a₁, hhides, hmoved⟩ := exec_lands h ha.flag hholds
    obtain ⟨b', a', hanswers, hstands, hrelated⟩ :=
      linear_outside hr hb ha hs hs' (by rw [hl]) hidle hmoved
    refine ⟨b', a', ?_, hstands, hrelated⟩
    rw [hl]
    exact hhides.explains.append hanswers

/-- The channel is linearizable. Every run, of any agents and with any overlap of
their calls, polls, dropped futures and dropped handles, shows calls and answers that
the mailbox explains. The mailbox ends with the messages that are claimed and not
taken, and with the flag of the channel. -/
theorem channel_linearizable (h : ChannelMachine.Reach cfg τ s) :
    ∃ a, Explains (mailbox cfg.capacity) ⟨⟨[], false⟩, fun _ => .idle⟩ (τ.flatMap shows) a ∧
      (a.value.slots.map fun e => (e.owner, e.value)) =
        ((untaken (queueLog τ)).map fun c => (c.1, c.2.2)) ∧
      a.value.closed = s.shared.closed := by
  have hinit : ∃ b, QueueLinear.Stands cfg (queueLog []) (queueState (ChannelMachine.State.init Tid V)) b ∧
      Related cfg false (fun _ => .idle) b
        (⟨⟨[], false⟩, fun _ => .idle⟩ : Object Tid (Mailbox Tid V) _ _) :=
    ⟨⟨[], fun _ => .idle⟩, ⟨rfl, fun _ => .idle rfl⟩, rfl, .nil, fun _ => ⟨rfl, rfl⟩⟩
  have hkeep : ∀ (τ : List (Tid × ChannelMachine.Label V)) (s : ChannelMachine.State Tid V)
      (l : Tid × ChannelMachine.Label V) (s' : ChannelMachine.State Tid V) a,
      ChannelMachine.Reach cfg τ s →
      (∃ b, QueueLinear.Stands cfg (queueLog τ) (queueState s) b ∧
        Related cfg s.shared.closed s.pc b a) → ChannelMachine.Step cfg s l s' →
      ∃ a', Explains (mailbox cfg.capacity) a (shows l) a' ∧
        ∃ b, QueueLinear.Stands cfg (queueLog (τ ++ [l])) (queueState s') b ∧
          Related cfg s'.shared.closed s'.pc b a' := by
    intro τ s l s' a hr hst hs
    obtain ⟨b, hb, ha⟩ := hst
    obtain ⟨b', a', hexplains, hstands, hrelated⟩ :=
      linear_step (t := l.1) (l := l.2) hr hb ha hs
    exact ⟨a', hexplains, b', hstands, hrelated⟩
  obtain ⟨a, ha, b, hstands, hrelated⟩ := Objects.explains_run hinit hkeep h
  refine ⟨a, ha, ?_, hrelated.flag⟩
  rw [lags_owned hrelated.slots, hstands.value, slots, List.map_map]
  rfl

end Refinement

/-- Agent 0 sees the channel open and stops in its send of 7; agent 1 closes; the
send goes on; agent 1 receives twice. -/
def closeDuringSend : List (Fin 2 × ChannelMachine.Choice ℕ) :=
  (0, .call (.trySend 7)) :: List.replicate 1 (0, .run false) ++
  (1, .call .close) :: List.replicate 3 (1, .run false) ++
  List.replicate 8 (0, .run false) ++
  (1, .call .tryRecv) :: List.replicate 6 (1, .run false) ++
  (1, .call .tryRecv) :: List.replicate 7 (1, .run false)

/-- What the agents see there. -/
def closeDuringSendEvents : List (Fin 2 × Event (Request ℕ) (ChannelMachine.Ret ℕ)) :=
  [(0, .call (.trySend false 7)), (1, .call .close), (1, .answer (.closed true)),
    (0, .answer (.trySend .ok)), (1, .call .tryRecv), (1, .answer (.tryRecv (.ok 7))),
    (1, .call .tryRecv), (1, .answer (.tryRecv .closed))]

/-- The mailbox explains that a send which overlaps a close delivers its message
after it, and ends empty and closed. -/
theorem channel_linearizable_of_closeDuringSend :
    ∃ (τ : List (Fin 2 × ChannelMachine.Label ℕ)) (s : ChannelMachine.State (Fin 2) ℕ)
      (a : Object (Fin 2) (Mailbox (Fin 2) ℕ) (Request ℕ) (ChannelMachine.Ret ℕ)),
      ChannelMachine.Reach QueueDelivery.plain τ s ∧
      Explains (mailbox none) ⟨⟨[], false⟩, fun _ => .idle⟩ closeDuringSendEvents a ∧
      (a.value.slots.map fun e => (e.owner, e.value)) = [] ∧ a.value.closed = true := by
  have h : ((ChannelMachine.State.init (Fin 2) ℕ).runs QueueDelivery.plain closeDuringSend).map
      (fun x => (x.1.flatMap shows, (untaken (queueLog x.1)).length, x.2.shared.closed)) =
      some (closeDuringSendEvents, 0, true) := by
    decide +kernel
  obtain ⟨⟨τ, s⟩, hrun, h⟩ := Option.map_eq_some_iff.mp h
  simp only [Prod.mk.injEq, List.length_eq_zero_iff] at h
  obtain ⟨hshows, hempty, hclosed⟩ := h
  have hreach := ChannelMachine.State.runs_run QueueDelivery.plain hrun
  obtain ⟨a, ha, hslots, hflag⟩ := channel_linearizable hreach
  rw [hshows] at ha
  rw [hempty, List.map_nil] at hslots
  exact ⟨τ, s, a, hreach, ha, hslots, hflag.trans hclosed⟩

end Rapidfire.ChannelLinear
