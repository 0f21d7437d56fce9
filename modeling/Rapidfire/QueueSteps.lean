import Rapidfire.QueueConsume

/-!
# The shape of a step

What every step of a thread establishes: the invariant in the new state, what
the step adds to the claimed and taken positions and to the record of values,
and that the values it returns are those claimed for their positions.
-/

namespace Rapidfire.QueueSteps

open Positions QueueMemory QueuePush QueuePop QueueSingle QueueMachine QueueCoherence QueueLocal
  QueueRely QueueProduce QueueConsume Updates

variable {Tid V : Type} {cfg : Config Tid} {s : State Tid V} {g g' : Ghost Tid V} {t : Tid}

/-- What an access adds to the claimed and taken positions and to the values;
the blocks installed so far stay on record. -/
structure Records (z : BlockSize) (q : Queue V) (g : Ghost Tid V) (e : Option (Effect V))
    (q' : Queue V) (g' : Ghost Tid V) : Prop where
  claims : valuePositions z q'.tail.index =
    valuePositions z q.tail.index ++ (claims e).map Prod.fst
  takes : valuePositions z q'.head.index = valuePositions z q.head.index ++ takes e
  val : ∀ p v, g'.val p = some v ↔ g.val p = some v ∨ (p, v) ∈ QueueMachine.claims e
  kept : ∀ L, L < g.laps → L < g'.laps ∧ g'.chain L = g.chain L

/-- An access that moves no index records nothing. -/
theorem Records.quiet {z : BlockSize} {q q' : Queue V} {e : Option (Effect V)}
    (ht : q'.tail.index = q.tail.index) (hh : q'.head.index = q.head.index)
    (hv : g'.val = g.val) (hc : QueueMachine.claims e = []) (he : QueueMachine.takes e = [])
    (hk : ∀ L, L < g.laps → L < g'.laps ∧ g'.chain L = g.chain L) :
    Records z q g e q' g' where
  claims := by rw [ht, hc, List.map_nil, List.append_nil]
  takes := by rw [hh, he, List.append_nil]
  val p v := by rw [hv, hc]; simp
  kept := hk

variable [DecidableEq Tid]

/-- What a step of thread `t` with this outcome establishes. -/
structure Steps (cfg : Config Tid) (s : State Tid V) (g : Ghost Tid V) (t : Tid)
    (o : Outcome V (Pc V) (Ret V)) (g' : Ghost Tid V) : Prop where
  inv : Inv cfg ⟨o.1, Function.update s.pc t (nextPc o.2.1)⟩ g'
  records : Records cfg.size s.queue g o.2.2 o.1 g'
  received : ∀ r, o.2.1 = .ret r → ∀ p v, (p, v) ∈ r.received → g'.val p = some v
  sound : o.2.1 ≠ .fault

/-- A step of one thread keeps the invariant if memory stays coherent, the
assertion of the new program point holds and the other threads are left to
rely on what they know. -/
theorem next_inv (h : Inv cfg s g) {q' : Queue V} {vw' : Views Tid} {pc' : Pc V}
    (hc : Coherent cfg q' vw' g')
    (hw : vw'.writes = Function.update (views cfg.size s.pc).writes t (writes cfg.size pc'))
    (hs : vw'.stage = Function.update (views cfg.size s.pc).stage t (stage pc'))
    (hr : vw'.reads = Function.update (views cfg.size s.pc).reads t (reads pc'))
    (hh : vw'.holds = Function.update (views cfg.size s.pc).holds t (holds cfg.size pc'))
    (hx : vw'.crossing = Function.update (views cfg.size s.pc).crossing t (crossing cfg.size pc'))
    (hl : Local cfg q' g' t pc')
    (hrely : ∀ t' ≠ t, Rely cfg s.queue g q' g' (views cfg.size s.pc) t') :
    Inv cfg ⟨q', Function.update s.pc t pc'⟩ g' := by
  have hview : views cfg.size (Function.update s.pc t pc') = vw' := by
    obtain ⟨w', s', r', h', x'⟩ := vw'
    simp only at hw hs hr hh hx
    subst hw hs hr hh hx
    simp only [views, Views.mk.injEq]
    refine ⟨?_, ?_, ?_, ?_, ?_⟩ <;> funext t' <;> by_cases ht : t' = t <;> simp [ht]
  refine ⟨by rw [hview]; exact hc, fun t' => ?_⟩
  by_cases ht : t' = t
  · subst ht
    simpa using hl
  · simp only [Function.update_of_ne ht]
    exact (hrely t' ht).stable (h.assertion t')

/-- A step that only moves the program point. -/
theorem stay_inv (h : Inv cfg s g) {pc' : Pc V}
    (hw : writes cfg.size (s.pc t) = writes cfg.size pc') (hs : stage (s.pc t) = stage pc')
    (hr : reads (s.pc t) = reads pc') (hh : holds cfg.size (s.pc t) = holds cfg.size pc')
    (hx : crossing cfg.size (s.pc t) = crossing cfg.size pc') (hl : Local cfg s.queue g t pc') :
    Inv cfg ⟨s.queue, Function.update s.pc t pc'⟩ g :=
  next_inv h h.coherent (update_same hw) (update_same hs) (update_same hr) (update_same hh)
    (update_same hx) hl fun _ _ => Rely.refl

/-- A program point at which the thread owns nothing. -/
def Quiet (z : BlockSize) (pc : Pc V) : Prop :=
  writes z pc = none ∧ stage pc = .before ∧ reads pc = none ∧ holds z pc = none ∧
    crossing z pc = false

/-- A step between program points at which the thread owns nothing. -/
theorem quiet_inv (h : Inv cfg s g) {pc' : Pc V} (hq : Quiet cfg.size (s.pc t))
    (hq' : Quiet cfg.size pc') (hl : Local cfg s.queue g t pc') :
    Inv cfg ⟨s.queue, Function.update s.pc t pc'⟩ g := by
  obtain ⟨h1, h2, h3, h4, h5⟩ := hq
  obtain ⟨h1', h2', h3', h4', h5'⟩ := hq'
  exact stay_inv h (h1.trans h1'.symm) (h2.trans h2'.symm) (h3.trans h3'.symm)
    (h4.trans h4'.symm) (h5.trans h5'.symm) hl

end Rapidfire.QueueSteps
