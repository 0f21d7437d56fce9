import Mathlib.Data.Nat.Bits
import Mathlib.Data.Nat.SuccPred
import Mathlib.Order.Interval.Finset.SuccPred
import Mathlib.Order.Interval.Finset.Nat
import Mathlib.Algebra.BigOperators.Group.Finset.Basic

/-!
# Absolute positions, laps and sentinels

Positions are unbounded naturals. A block covers one lap of consecutive
positions and the last position of every lap is a sentinel that never holds
a value. Slot states carry the lap number of the value they announce.
-/

namespace Rapidfire.Positions

/-- The two builds of the crate: tiny blocks (`loom`, `fcrs_small_blocks`)
and the default block size. -/
inductive BlockSize where
  | small
  | full
  deriving DecidableEq, Repr

/-- log2 of positions per block. -/
def lapShift : BlockSize → ℕ
  | .small => 2
  | .full => 6

/-- Positions per block. -/
def lap (z : BlockSize) : ℕ := 1 <<< lapShift z

/-- Values per block; the last position of a lap is the transition sentinel. -/
def blockCap (z : BlockSize) : ℕ := lap z - 1

/-- Mask selecting the offset of a position in its block. -/
def offsetMask (z : BlockSize) : ℕ := lap z - 1

/-- Low bit of a slot state that has been written. -/
def tagWritten : ℕ := 1

/-- Slot state announcing the value of the given lap. -/
def writtenTag (lap : ℕ) : ℕ := (lap <<< 2) ||| tagWritten

/-- Number of value positions in `[head, tail)`, excluding sentinels. -/
def itemsBetween (z : BlockSize) (head tail : ℕ) : ℕ :=
  if head ≥ tail then 0
  else (tail - head) - ((tail >>> lapShift z) - (head >>> lapShift z))

/-- Offset of a position in its block, `pos & OFFSET_MASK`. -/
def offset (z : BlockSize) (pos : ℕ) : ℕ := pos &&& offsetMask z

/-- Lap number of a position, `pos >> LAP_SHIFT`. -/
def lapOf (z : BlockSize) (pos : ℕ) : ℕ := pos >>> lapShift z

/-- First position of the lap of a position, `pos & !OFFSET_MASK`: the
offset bits are cleared. -/
def lapStart (z : BlockSize) (pos : ℕ) : ℕ := pos - (pos &&& offsetMask z)

/-- A position that can hold a value, that is, not a sentinel. -/
def IsValue (z : BlockSize) (pos : ℕ) : Prop := offset z pos ≠ blockCap z

instance (z : BlockSize) (pos : ℕ) : Decidable (IsValue z pos) :=
  inferInstanceAs (Decidable (offset z pos ≠ blockCap z))

/-- The last value position of a lap, whose producer installs the next block. -/
def IsLast (z : BlockSize) (pos : ℕ) : Prop := offset z pos + 1 = blockCap z

instance (z : BlockSize) (pos : ℕ) : Decidable (IsLast z pos) :=
  inferInstanceAs (Decidable (offset z pos + 1 = blockCap z))

/-- The value positions below a bound, in increasing order. -/
def valuePositions (z : BlockSize) (bound : ℕ) : List ℕ :=
  (List.range bound).filter fun p => IsValue z p

variable {z : BlockSize}

@[simp] theorem lap_small : lap .small = 4 := rfl

@[simp] theorem lap_full : lap .full = 64 := rfl

@[simp] theorem blockCap_small : blockCap .small = 3 := rfl

@[simp] theorem blockCap_full : blockCap .full = 63 := rfl

theorem lap_pos : 0 < lap z := by cases z <;> simp

theorem blockCap_add_one : blockCap z + 1 = lap z := by cases z <;> simp

theorem one_lt_blockCap : 1 < blockCap z := by cases z <;> simp

/-- Masking with the offset mask is reduction modulo the lap length. -/
theorem offset_eq_mod (z : BlockSize) (p : ℕ) : offset z p = p % lap z := by
  cases z
  · exact Nat.and_two_pow_sub_one_eq_mod p 2
  · exact Nat.and_two_pow_sub_one_eq_mod p 6

/-- Shifting by the lap width is division by the lap length. -/
theorem lapOf_eq_div (z : BlockSize) (p : ℕ) : lapOf z p = p / lap z := by
  cases z <;> simp [lapOf, lapShift, Nat.shiftRight_eq_div_pow]

theorem lapStart_eq (z : BlockSize) (p : ℕ) : lapStart z p = lapOf z p * lap z := by
  have ho : p &&& offsetMask z = p % lap z := offset_eq_mod z p
  have hd := Nat.div_add_mod p (lap z)
  rw [lapStart, ho, lapOf_eq_div, Nat.mul_comm]
  omega

theorem writtenTag_eq (n : ℕ) : writtenTag n = 4 * n + 1 := by
  have h := Nat.two_pow_add_eq_or_of_lt (i := 2) (b := 1) (by decide) n
  rw [writtenTag, tagWritten, Nat.shiftLeft_eq, Nat.mul_comm]
  omega

theorem writtenTag_injective {m n : ℕ} (h : writtenTag m = writtenTag n) : m = n := by
  rw [writtenTag_eq, writtenTag_eq] at h
  omega

theorem writtenTag_lt {m n : ℕ} : writtenTag m < writtenTag n ↔ m < n := by
  rw [writtenTag_eq, writtenTag_eq]
  omega

theorem offset_lt_lap (p : ℕ) : offset z p < lap z := by
  rw [offset_eq_mod]
  exact Nat.mod_lt _ lap_pos

theorem offset_le_blockCap (p : ℕ) : offset z p ≤ blockCap z := by
  have h := offset_lt_lap (z := z) p
  have hc := blockCap_add_one (z := z)
  omega

theorem isValue_iff {p : ℕ} : IsValue z p ↔ offset z p < blockCap z := by
  have h := offset_le_blockCap (z := z) p
  rw [IsValue]
  omega

theorem IsLast.isValue {p : ℕ} (h : IsLast z p) : IsValue z p := by
  rw [IsLast] at h
  rw [isValue_iff]
  omega

/-- A position is recovered from its lap and its offset. -/
theorem lapOf_mul_add_offset (z : BlockSize) (p : ℕ) :
    lapOf z p * lap z + offset z p = p := by
  rw [lapOf_eq_div, offset_eq_mod, Nat.mul_comm]
  exact Nat.div_add_mod p (lap z)

theorem position_ext {p q : ℕ} (hl : lapOf z p = lapOf z q) (ho : offset z p = offset z q) :
    p = q := by
  rw [← lapOf_mul_add_offset z p, ← lapOf_mul_add_offset z q, hl, ho]

theorem lapOf_mul_add {L i : ℕ} (hi : i < lap z) : lapOf z (L * lap z + i) = L := by
  rw [lapOf_eq_div, Nat.mul_comm, Nat.mul_add_div lap_pos, Nat.div_eq_of_lt hi, Nat.add_zero]

theorem offset_mul_add {L i : ℕ} (hi : i < lap z) : offset z (L * lap z + i) = i := by
  rw [offset_eq_mod, Nat.mul_comm, Nat.mul_add_mod, Nat.mod_eq_of_lt hi]

/-- Positions of one block follow each other. -/
theorem lapOf_add {h n : ℕ} (hn : offset z h + n < lap z) : lapOf z (h + n) = lapOf z h := by
  conv_lhs => rw [← lapOf_mul_add_offset z h, Nat.add_assoc]
  exact lapOf_mul_add hn

theorem offset_add {h n : ℕ} (hn : offset z h + n < lap z) : offset z (h + n) = offset z h + n := by
  conv_lhs => rw [← lapOf_mul_add_offset z h, Nat.add_assoc]
  exact offset_mul_add hn

theorem lapOf_mono {p q : ℕ} (h : p ≤ q) : lapOf z p ≤ lapOf z q := by
  rw [lapOf_eq_div, lapOf_eq_div]
  exact Nat.div_le_div_right h

/-- The lap start of a position determines its lap. -/
theorem mul_lap_injective {L M : ℕ} (h : L * lap z = M * lap z) : L = M :=
  Nat.eq_of_mul_eq_mul_right lap_pos h

theorem mul_lap_lt_mul_lap {L M : ℕ} : L * lap z < M * lap z ↔ L < M :=
  Nat.mul_lt_mul_right lap_pos

/-- Past a value position the lap does not change. -/
theorem lapOf_succ_of_isValue {p : ℕ} (h : IsValue z p) : lapOf z (p + 1) = lapOf z p := by
  rw [isValue_iff, offset_eq_mod] at h
  rw [lapOf_eq_div, lapOf_eq_div]
  cases z <;> simp only [lap_small, lap_full, blockCap_small, blockCap_full] at * <;> omega

theorem offset_succ_of_isValue {p : ℕ} (h : IsValue z p) :
    offset z (p + 1) = offset z p + 1 := by
  rw [isValue_iff, offset_eq_mod] at h
  rw [offset_eq_mod, offset_eq_mod]
  cases z <;> simp only [lap_small, lap_full, blockCap_small, blockCap_full] at * <;> omega

/-- Past a sentinel the next lap starts. -/
theorem lapOf_succ_of_not_isValue {p : ℕ} (h : ¬IsValue z p) :
    lapOf z (p + 1) = lapOf z p + 1 := by
  rw [isValue_iff, offset_eq_mod] at h
  rw [lapOf_eq_div, lapOf_eq_div]
  cases z <;> simp only [lap_small, lap_full, blockCap_small, blockCap_full] at * <;> omega

theorem offset_succ_of_not_isValue {p : ℕ} (h : ¬IsValue z p) : offset z (p + 1) = 0 := by
  rw [isValue_iff, offset_eq_mod] at h
  rw [offset_eq_mod]
  cases z <;> simp only [lap_small, lap_full, blockCap_small, blockCap_full] at * <;> omega

/-- The position after a sentinel is a value position. -/
theorem isValue_succ_of_not_isValue {p : ℕ} (h : ¬IsValue z p) : IsValue z (p + 1) := by
  rw [isValue_iff, offset_succ_of_not_isValue h]
  have h1 := one_lt_blockCap (z := z)
  omega

/-- The successor of the last value position is a sentinel, and conversely. -/
theorem isLast_iff {p : ℕ} : IsLast z p ↔ IsValue z p ∧ ¬IsValue z (p + 1) := by
  constructor
  · intro h
    refine ⟨h.isValue, ?_⟩
    rw [IsLast] at h
    rw [isValue_iff, offset_succ_of_isValue (show IsValue z p by rw [isValue_iff]; omega)]
    omega
  · rintro ⟨hv, hs⟩
    rw [isValue_iff, offset_succ_of_isValue hv] at hs
    rw [isValue_iff] at hv
    rw [IsLast]
    omega

/-- A sentinel follows the last value position of its lap. -/
theorem last_of_sentinel {p : ℕ} (h : ¬IsValue z p) : ∃ n, p = n + 1 ∧ IsLast z n := by
  have hcap := one_lt_blockCap (z := z)
  cases p with
  | zero =>
    have hoff : offset z 0 = 0 := by rw [offset_eq_mod, Nat.zero_mod]
    exact absurd (isValue_iff.mpr (by omega)) h
  | succ n =>
    refine ⟨n, rfl, isLast_iff.mpr ⟨?_, h⟩⟩
    by_contra hn
    exact h (isValue_succ_of_not_isValue hn)

/-- Two positions past the last value position of a lap, the next lap starts. -/
theorem lapOf_add_two_of_isLast {p : ℕ} (h : IsLast z p) : lapOf z (p + 2) = lapOf z p + 1 := by
  obtain ⟨hv, hs⟩ := isLast_iff.mp h
  rw [lapOf_succ_of_not_isValue hs, lapOf_succ_of_isValue hv]

theorem offset_add_two_of_isLast {p : ℕ} (h : IsLast z p) : offset z (p + 2) = 0 :=
  offset_succ_of_not_isValue (isLast_iff.mp h).2

/-- Last value positions are determined by their laps. -/
theorem IsLast.ext {p q : ℕ} (hp : IsLast z p) (hq : IsLast z q) (hl : lapOf z p = lapOf z q) :
    p = q := by
  refine position_ext hl ?_
  rw [IsLast] at hp hq
  omega

/-- Within a lap no value position is above the last one. -/
theorem IsLast.le {p q : ℕ} (hp : IsLast z p) (hq : IsValue z q) (hl : lapOf z q = lapOf z p) :
    q ≤ p := by
  rw [← lapOf_mul_add_offset z q, ← lapOf_mul_add_offset z p, hl]
  rw [isValue_iff] at hq
  rw [IsLast] at hp
  omega

@[simp] theorem itemsBetween_of_le {h t : ℕ} (ht : t ≤ h) : itemsBetween z h t = 0 :=
  if_pos ht

/-- Between ordered indices the sentinels are the lap changes. -/
theorem itemsBetween_eq_sub {h t : ℕ} (ht : h ≤ t) :
    itemsBetween z h t = (t - h) - (lapOf z t - lapOf z h) := by
  rcases Nat.eq_or_lt_of_le ht with rfl | hlt
  · rw [itemsBetween_of_le le_rfl]
    omega
  · exact if_neg (by omega)

/-- One more claimed position counts exactly when it can hold a value. -/
theorem itemsBetween_succ_right {h t : ℕ} (ht : h ≤ t) :
    itemsBetween z h (t + 1) = itemsBetween z h t + if IsValue z t then 1 else 0 := by
  rw [itemsBetween_eq_sub ht, itemsBetween_eq_sub (by omega)]
  have hm := lapOf_mono (z := z) ht
  have hlen : lapOf z t - lapOf z h ≤ t - h := by
    rw [lapOf_eq_div, lapOf_eq_div]
    cases z <;> simp only [lap_small, lap_full] <;> omega
  split
  · rename_i hv
    rw [lapOf_succ_of_isValue hv]
    omega
  · rename_i hv
    rw [lapOf_succ_of_not_isValue hv]
    omega

/-- `itemsBetween` counts the value positions of the interval. -/
theorem itemsBetween_eq_card (z : BlockSize) (h t : ℕ) :
    itemsBetween z h t = ((Finset.Ico h t).filter (IsValue z)).card := by
  induction t with
  | zero => simp
  | succ t ih =>
    rcases Nat.lt_or_ge t h with hlt | hge
    · rw [itemsBetween_of_le hlt, Finset.Ico_eq_empty (by omega)]
      rfl
    · rw [itemsBetween_succ_right hge, ih, ← Nat.succ_eq_add_one, Nat.Ico_succ_right_eq_insert_Ico hge,
        Finset.filter_insert]
      split
      · rw [Finset.card_insert_of_notMem (by simp)]
      · rfl

theorem itemsBetween_eq_zero_iff {h t : ℕ} :
    itemsBetween z h t = 0 ↔ ∀ p, h ≤ p → p < t → ¬IsValue z p := by
  rw [itemsBetween_eq_card, Finset.card_eq_zero, Finset.filter_eq_empty_iff]
  simp only [Finset.mem_Ico, and_imp]

/-- Fewer positions lie between a later head and the same tail. -/
theorem itemsBetween_anti_left {h h' t : ℕ} (hh : h ≤ h') :
    itemsBetween z h' t ≤ itemsBetween z h t := by
  rw [itemsBetween_eq_card, itemsBetween_eq_card]
  exact Finset.card_le_card (Finset.filter_subset_filter _ (Finset.Ico_subset_Ico_left hh))

theorem itemsBetween_mono_right {h t t' : ℕ} (ht : t ≤ t') :
    itemsBetween z h t ≤ itemsBetween z h t' := by
  rw [itemsBetween_eq_card, itemsBetween_eq_card]
  exact Finset.card_le_card (Finset.filter_subset_filter _ (Finset.Ico_subset_Ico_right ht))

/-- Taking the position at the head removes it from the count. -/
theorem itemsBetween_succ_left {h t : ℕ} (ht : h < t) :
    itemsBetween z (h + 1) t + (if IsValue z h then 1 else 0) = itemsBetween z h t := by
  rw [itemsBetween_eq_card, itemsBetween_eq_card, ← Finset.insert_Ico_succ_left_eq_Ico ht, Order.succ_eq_add_one,
    Finset.filter_insert]
  split
  · rw [Finset.card_insert_of_notMem (by simp)]
  · rfl

theorem mem_valuePositions {p n : ℕ} : p ∈ valuePositions z n ↔ p < n ∧ IsValue z p := by
  simp [valuePositions]

theorem valuePositions_succ (n : ℕ) :
    valuePositions z (n + 1) = valuePositions z n ++ if IsValue z n then [n] else [] := by
  rw [valuePositions, List.range_succ, List.filter_append]
  congr 1
  by_cases h : IsValue z n <;> simp [h]

/-- A run of value positions extends the list by exactly these positions. -/
theorem valuePositions_add {h n : ℕ} (hv : ∀ p, h ≤ p → p < h + n → IsValue z p) :
    valuePositions z (h + n) = valuePositions z h ++ List.range' h n := by
  induction n with
  | zero => simp
  | succ n ih =>
    rw [← Nat.add_assoc, valuePositions_succ, ih fun p hp hlt => hv p hp (by omega),
      if_pos (hv _ (Nat.le_add_right _ _) (by omega)), List.range'_concat, List.append_assoc]
    simp

/-- A sentinel adds nothing. -/
theorem valuePositions_skip {n : ℕ} (hv : ¬IsValue z n) :
    valuePositions z (n + 1) = valuePositions z n := by
  rw [valuePositions_succ, if_neg hv, List.append_nil]

theorem valuePositions_pairwise (n : ℕ) : (valuePositions z n).Pairwise (· < ·) :=
  List.pairwise_lt_range.filter _

end Rapidfire.Positions
