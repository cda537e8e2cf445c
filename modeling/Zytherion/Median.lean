import Mathlib.Data.List.Sort
import Mathlib.Order.Lattice

/-!
# The middle of a sorted list

If fewer than half of the elements of a sorted list lie outside an interval, no
middle element does: an element above the interval brings along everything
after it, one below brings along everything before it.
-/
namespace Zytherion.Median

variable {α : Type} [LinearOrder α] {l : List α} {i : ℕ} {p : α → Bool}

theorem getElem_le_getElem (hl : l.Pairwise (· ≤ ·)) {j : ℕ} (hij : i ≤ j) (hj : j < l.length) :
    l[i] ≤ l[j] := by
  rcases Nat.eq_or_lt_of_le hij with rfl | hlt
  · exact le_refl _
  · exact List.pairwise_iff_getElem.mp hl i j _ hj hlt

/-- What holds at a position and passes to larger elements holds from there on. -/
theorem le_countP_of_upward (hl : l.Pairwise (· ≤ ·)) (hp : ∀ x y, x ≤ y → p x = true → p y = true)
    (hi : i < l.length) (h : p l[i] = true) : l.length - i ≤ l.countP p := by
  have hall : ∀ x ∈ l.drop i, p x = true := by
    intro x hx
    obtain ⟨j, hj, rfl⟩ := List.getElem_of_mem hx
    rw [List.getElem_drop]
    rw [List.length_drop] at hj
    exact hp _ _ (getElem_le_getElem hl (Nat.le_add_right i j) (by omega)) h
  calc l.length - i = (l.drop i).length := (List.length_drop ..).symm
    _ = (l.drop i).countP p := (List.countP_eq_length.mpr hall).symm
    _ ≤ l.countP p := (List.drop_sublist i l).countP_le

/-- What holds at a position and passes to smaller elements holds up to there. -/
theorem le_countP_of_downward (hl : l.Pairwise (· ≤ ·))
    (hp : ∀ x y, x ≤ y → p y = true → p x = true) (hi : i < l.length) (h : p l[i] = true) :
    i + 1 ≤ l.countP p := by
  have hall : ∀ x ∈ l.take (i + 1), p x = true := by
    intro x hx
    obtain ⟨j, hj, rfl⟩ := List.getElem_of_mem hx
    rw [List.getElem_take]
    rw [List.length_take] at hj
    exact hp _ _ (getElem_le_getElem hl (by omega) hi) h
  calc i + 1 = (l.take (i + 1)).length := by rw [List.length_take]; omega
    _ = (l.take (i + 1)).countP p := (List.countP_eq_length.mpr hall).symm
    _ ≤ l.countP p := (List.take_sublist (i + 1) l).countP_le

/-- A middle position of a sorted list of which fewer than half lie outside an
interval lies inside. -/
theorem middle_mem_Icc {lo hi : α} (hl : l.Pairwise (· ≤ ·))
    (hfew : 2 * l.countP (fun x => !decide (lo ≤ x ∧ x ≤ hi)) < l.length)
    (hlow : 2 * i ≤ l.length) (hhigh : l.length ≤ 2 * (i + 1)) (hlt : i < l.length) :
    lo ≤ l[i] ∧ l[i] ≤ hi := by
  have habove : l.countP (fun x => decide (hi < x)) ≤
      l.countP fun x => !decide (lo ≤ x ∧ x ≤ hi) := by
    apply List.countP_mono_left
    intro x _ hx
    simp only [decide_eq_true_eq, Bool.not_eq_true', decide_eq_false_iff_not] at hx ⊢
    exact fun h => absurd h.2 (not_le.mpr hx)
  have hbelow : l.countP (fun x => decide (x < lo)) ≤
      l.countP fun x => !decide (lo ≤ x ∧ x ≤ hi) := by
    apply List.countP_mono_left
    intro x _ hx
    simp only [decide_eq_true_eq, Bool.not_eq_true', decide_eq_false_iff_not] at hx ⊢
    exact fun h => absurd h.1 (not_le.mpr hx)
  constructor
  · by_contra hout
    have hcount := le_countP_of_downward hl (p := fun x => decide (x < lo))
      (fun x y hxy hy => by simp only [decide_eq_true_eq] at hy ⊢; exact lt_of_le_of_lt hxy hy)
      hlt (by simpa using hout)
    omega
  · by_contra hout
    have hcount := le_countP_of_upward hl (p := fun x => decide (hi < x))
      (fun x y hxy hx => by simp only [decide_eq_true_eq] at hx ⊢; exact lt_of_lt_of_le hx hxy)
      hlt (by simpa using hout)
    omega

end Zytherion.Median
