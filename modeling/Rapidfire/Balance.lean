import Mathlib.Algebra.Order.BigOperators.Group.Finset
import Mathlib.Algebra.BigOperators.Group.Finset.Piecewise

/-!
# Amounts held between many

An amount is covered when finitely many holders have it between them. A holder
may change what it has together with the amount, or hand what it has to others.
-/

namespace Rapidfire.Balance

variable {ι : Type} {n n' : ℕ} {c c' : ι → ℕ} {t : ι}

/-- Finitely many holders have the amount between them. -/
def Covered (n : ℕ) (c : ι → ℕ) : Prop := ∃ F : Finset ι, n ≤ F.sum c

/-- Nothing needs no holder. -/
theorem covered_zero (c : ι → ℕ) : Covered 0 c := ⟨∅, Nat.zero_le _⟩

/-- Somebody holds a part of a positive amount. -/
theorem Covered.holder (h : Covered n c) (hn : 0 < n) : ∃ a, 0 < c a := by
  obtain ⟨F, hF⟩ := h
  by_contra hnone
  have hzero : ∀ a ∈ F, c a = 0 := fun a _ => by
    have hle : ¬0 < c a := fun ha => hnone ⟨a, ha⟩
    omega
  have hsum : F.sum c = 0 := Finset.sum_eq_zero hzero
  omega

variable [DecidableEq ι]

/-- One holder set apart from the rest. -/
theorem sum_insert_erase (F : Finset ι) (t : ι) (c : ι → ℕ) :
    (insert t F).sum c = c t + (F.erase t).sum c := by
  have hsplit := Finset.add_sum_erase (insert t F) c (Finset.mem_insert_self t F)
  rw [Finset.erase_insert_eq_erase] at hsplit
  exact hsplit.symm

/-- Adding a holder leaves nothing uncovered. -/
theorem Covered.with_holder (h : Covered n c) (t : ι) :
    ∃ F : Finset ι, n ≤ c t + (F.erase t).sum c := by
  obtain ⟨F, hF⟩ := h
  have hsub : F.sum c ≤ (insert t F).sum c :=
    Finset.sum_le_sum_of_subset (Finset.subset_insert t F)
  rw [sum_insert_erase] at hsub
  exact ⟨F, by omega⟩

/-- One holder changes what it has by as much as the amount changes, while the
others keep at least what they have. -/
theorem Covered.transfer (h : Covered n c) (hothers : ∀ u, u ≠ t → c u ≤ c' u)
    (hbalance : n' + c t ≤ n + c' t) : Covered n' c' := by
  obtain ⟨F, hF⟩ := h.with_holder t
  have hrest : (F.erase t).sum c ≤ (F.erase t).sum c' :=
    Finset.sum_le_sum fun u hu => hothers u (Finset.ne_of_mem_erase hu)
  refine ⟨insert t F, ?_⟩
  rw [sum_insert_erase]
  omega

/-- One holder hands what it has to as many others, one each. -/
theorem Covered.handed {G : Finset ι} (h : Covered n c) (hothers : ∀ u, u ≠ t → c u ≤ c' u)
    (ht : t ∉ G) (hgain : ∀ u ∈ G, c u + 1 ≤ c' u) (hcard : c t ≤ G.card) : Covered n c' := by
  obtain ⟨F, hF⟩ := h.with_holder t
  have hG : G ⊆ (F ∪ G).erase t := fun u hu =>
    Finset.mem_erase.mpr ⟨fun he => ht (he ▸ hu), Finset.mem_union_right F hu⟩
  have hsum : (F.erase t).sum c ≤ ((F ∪ G).erase t).sum c :=
    Finset.sum_le_sum_of_subset (Finset.erase_subset_erase t Finset.subset_union_left)
  have hones : (((F ∪ G).erase t).sum fun u => if u ∈ G then 1 else 0) = G.card := by
    rw [Finset.sum_ite_mem, Finset.inter_eq_right.mpr hG, Finset.card_eq_sum_ones]
  have hstep : ((F ∪ G).erase t).sum c + G.card ≤ ((F ∪ G).erase t).sum c' := by
    rw [← hones, ← Finset.sum_add_distrib]
    refine Finset.sum_le_sum fun u hu => ?_
    by_cases huG : u ∈ G
    · rw [if_pos huG]
      exact hgain u huG
    · rw [if_neg huG]
      exact hothers u (Finset.ne_of_mem_erase hu)
  refine ⟨(F ∪ G).erase t, ?_⟩
  omega

end Rapidfire.Balance
