import Mathlib.Data.List.Induction

/-!
# Finite runs of labelled transition systems

A run lists the labels of its steps in order. The invariant rule carries a
fact about the labels read so far together with the state reached, so that
histories need no place in the states themselves.
-/

namespace Rapidfire.Runs

variable {σ ℓ σ' ℓ' : Type}

/-- Runs of a labelled step relation from a fixed state. -/
inductive Run (step : σ → ℓ → σ → Prop) (s₀ : σ) : List ℓ → σ → Prop where
  | refl : Run step s₀ [] s₀
  | tail {τ : List ℓ} {s s' : σ} {l : ℓ} :
      Run step s₀ τ s → step s l s' → Run step s₀ (τ ++ [l]) s'

variable {step : σ → ℓ → σ → Prop} {s₀ s s' : σ} {τ τ' : List ℓ}

/-- A single step is a run. -/
theorem Run.single {l : ℓ} (h : step s l s') : Run step s [l] s' :=
  Run.tail .refl h

/-- Runs compose. -/
theorem Run.append (h : Run step s₀ τ s) (h' : Run step s τ' s') :
    Run step s₀ (τ ++ τ') s' := by
  induction h' with
  | refl => rwa [List.append_nil]
  | tail _ hs ih =>
    rw [← List.append_assoc]
    exact ih.tail hs

/-- A run passes through a state at every point of its history. -/
theorem Run.split (h : Run step s₀ (τ ++ τ') s) :
    ∃ m, Run step s₀ τ m ∧ Run step m τ' s := by
  induction τ' using List.reverseRecOn generalizing s with
  | nil => exact ⟨s, by rwa [List.append_nil] at h, .refl⟩
  | append_singleton τ' l ih =>
    rw [← List.append_assoc] at h
    generalize hρ : τ ++ τ' ++ [l] = ρ at h
    cases h with
    | refl => simp at hρ
    | tail hr hs =>
      obtain ⟨rfl, hl⟩ := List.append_inj' hρ rfl
      obtain rfl := List.singleton_inj.mp hl
      obtain ⟨m, hm, hm'⟩ := ih hr
      exact ⟨m, hm, hm'.tail hs⟩

/-- A run without labels stays where it is. -/
theorem Run.eq_of_nil (h : Run step s₀ [] s) : s = s₀ := by
  generalize hρ : ([] : List ℓ) = ρ at h
  cases h with
  | refl => rfl
  | tail => simp at hρ

/-- The first step of a nonempty run. -/
theorem Run.uncons {l : ℓ} (h : Run step s₀ (l :: τ) s) :
    ∃ m, step s₀ l m ∧ Run step m τ s := by
  obtain ⟨m, hm, hr⟩ := Run.split (τ := [l]) h
  generalize hρ : [l] = ρ at hm
  cases hm with
  | refl => simp at hρ
  | @tail ρ' m' _ l' hm' hs =>
    obtain ⟨h0, hl⟩ := List.append_inj' (show [] ++ [l] = ρ' ++ [l'] from hρ) rfl
    obtain rfl := List.singleton_inj.mp hl
    subst h0
    obtain rfl := hm'.eq_of_nil
    exact ⟨m, hs, hr⟩

/-- Invariants of runs: what holds at the start and is kept by every step
that extends a run holds of every run and the state it reaches. -/
theorem Run.invariant {P : List ℓ → σ → Prop} (init : P [] s₀)
    (keep : ∀ τ s l s', Run step s₀ τ s → P τ s → step s l s' → P (τ ++ [l]) s')
    (h : Run step s₀ τ s) : P τ s := by
  induction h with
  | refl => exact init
  | tail hr hs ih => exact keep _ _ _ _ hr ih hs

/-- State invariants, when the history does not matter. -/
theorem Run.stateInvariant {P : σ → Prop} (init : P s₀)
    (keep : ∀ s l s', P s → step s l s' → P s') (h : Run step s₀ τ s) : P s :=
  h.invariant (P := fun _ s => P s) init fun _ _ _ _ _ hp hs => keep _ _ _ hp hs

/-- Runs of a stronger step relation are runs of the weaker one. -/
theorem Run.mono {step' : σ → ℓ → σ → Prop} (hs : ∀ s l s', step s l s' → step' s l s')
    (h : Run step s₀ τ s) : Run step' s₀ τ s := by
  induction h with
  | refl => exact .refl
  | tail _ h ih => exact ih.tail (hs _ _ _ h)

/-- The potential method. When the steps that count lower a potential, and only
the steps that are hit raise it, by at most `c` each, then the number of steps
that count is bounded by the potential at the start and `c` for each hit. -/
theorem Run.amortized {μ : σ → ℕ} {mine hit : ℓ → Bool} {c : ℕ}
    (keep : ∀ τ s l s', Run step s₀ τ s → step s l s' →
      μ s' + (mine l).toNat ≤ μ s + c * (hit l).toNat)
    (h : Run step s₀ τ s) : μ s + τ.countP mine ≤ μ s₀ + c * τ.countP hit := by
  induction h with
  | refl => simp
  | @tail τ s s' l hr hs ih =>
    have hstep := keep _ _ _ _ hr hs
    have hmine : (τ ++ [l]).countP mine = τ.countP mine + (mine l).toNat := by
      cases hl : mine l <;> simp [List.countP_append, hl]
    have hhit : (τ ++ [l]).countP hit = τ.countP hit + (hit l).toNat := by
      cases hl : hit l <;> simp [List.countP_append, hl]
    rw [hmine, hhit, Nat.mul_add]
    omega

/-- A projection that turns every step into a run turns runs into runs. -/
theorem Run.simulate {step' : σ' → ℓ' → σ' → Prop} {f : σ → σ'} {g : ℓ → List ℓ'}
    (sim : ∀ s l s', step s l s' → Run step' (f s) (g l) (f s')) (h : Run step s₀ τ s) :
    Run step' (f s₀) (τ.flatMap g) (f s) := by
  induction h with
  | refl => exact .refl
  | tail _ hs ih =>
    rw [List.flatMap_append, List.flatMap_singleton]
    exact ih.append (sim _ _ _ hs)

/-- Forward simulation: when each step of a run is matched by a run of the
specification over what the step shows, the whole run is matched. -/
theorem Run.matched {spec : σ' → ℓ' → σ' → Prop} {a₀ : σ'} {shows : ℓ → List ℓ'}
    {R : List ℓ → σ → σ' → Prop} (init : R [] s₀ a₀)
    (keep : ∀ τ s l s' a, Run step s₀ τ s → R τ s a → step s l s' →
      ∃ a', Run spec a (shows l) a' ∧ R (τ ++ [l]) s' a')
    (h : Run step s₀ τ s) : ∃ a, Run spec a₀ (τ.flatMap shows) a ∧ R τ s a := by
  induction h with
  | refl => exact ⟨a₀, .refl, init⟩
  | tail hr hs ih =>
    obtain ⟨a, ha, hR⟩ := ih
    obtain ⟨a', ha', hR'⟩ := keep _ _ _ _ a hr hR hs
    refine ⟨a', ?_, hR'⟩
    rw [List.flatMap_append, List.flatMap_singleton]
    exact ha.append ha'

/-- Some state of the run satisfies the property together with the labels up to
it, and no label after it is fresh. -/
def Since (step : σ → ℓ → σ → Prop) (s₀ : σ) (fresh : ℓ → Prop) (P : List ℓ → σ → Prop)
    (τ : List ℓ) (s : σ) : Prop :=
  ∃ τ₁ τ₂ m, τ = τ₁ ++ τ₂ ∧ Run step s₀ τ₁ m ∧ Run step m τ₂ s ∧ (∀ l ∈ τ₂, ¬fresh l) ∧ P τ₁ m

namespace Since

variable {fresh : ℓ → Prop} {P Q : List ℓ → σ → Prop}

/-- The state reached counts. -/
theorem now (h : Run step s₀ τ s) (hp : P τ s) : Since step s₀ fresh P τ s :=
  ⟨τ, [], s, (List.append_nil τ).symm, h, .refl, nofun, hp⟩

/-- A step that is not fresh keeps what was seen. -/
theorem tail {l : ℓ} (h : Since step s₀ fresh P τ s) (hs : step s l s') (hl : ¬fresh l) :
    Since step s₀ fresh P (τ ++ [l]) s' := by
  obtain ⟨τ₁, τ₂, m, rfl, hm, hr, hf, hp⟩ := h
  refine ⟨τ₁, τ₂ ++ [l], m, List.append_assoc _ _ _, hm, hr.tail hs, fun l' hl' => ?_, hp⟩
  rcases List.mem_append.mp hl' with hl' | hl'
  · exact hf l' hl'
  · rwa [List.mem_singleton.mp hl']

/-- What was seen may be weakened, knowing how the run went on. -/
theorem imp (h : Since step s₀ fresh P τ s)
    (hpq : ∀ τ₁ τ₂ m, Run step s₀ τ₁ m → Run step m τ₂ s → P τ₁ m → Q τ₁ m) :
    Since step s₀ fresh Q τ s := by
  obtain ⟨τ₁, τ₂, m, hτ, hm, hr, hf, hp⟩ := h
  exact ⟨τ₁, τ₂, m, hτ, hm, hr, hf, hpq τ₁ τ₂ m hm hr hp⟩

end Since

/-- Iterate a partial step function, collecting the labels. -/
def iterate (f : σ → Option (ℓ × σ)) : ℕ → σ → Option (List ℓ × σ)
  | 0, s => some ([], s)
  | n + 1, s =>
    match f s with
    | none => none
    | some (l, s') => (iterate f n s').map fun x => (l :: x.1, x.2)

/-- A function whose every step is done or lowers a measure is done within that
many steps. -/
theorem iterate_done {f : σ → Option (ℓ × σ)} (P : σ → Prop) (D : ℓ → σ → Prop) (μ : σ → ℕ)
    (next : ∀ s, P s → ∃ l s', f s = some (l, s') ∧ (D l s' ∨ P s' ∧ μ s' < μ s))
    (s : σ) (h : P s) :
    ∃ n ≤ μ s, ∃ τ l s', iterate f (n + 1) s = some (τ ++ [l], s') ∧ D l s' := by
  induction hm : μ s using Nat.strongRecOn generalizing s with
  | ind m ih =>
    obtain ⟨l, s', hs, hd | ⟨hp, hlt⟩⟩ := next s h
    · exact ⟨0, Nat.zero_le _, [], l, s', by simp [iterate, hs], hd⟩
    · obtain ⟨n, hn, τ, l', s'', hrun, hd⟩ := ih _ (hm ▸ hlt) s' hp rfl
      refine ⟨n + 1, by omega, l :: τ, l', s'', ?_, hd⟩
      rw [iterate, hs]
      simp [hrun]

end Rapidfire.Runs
