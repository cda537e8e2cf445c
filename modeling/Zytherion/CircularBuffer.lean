import Mathlib.Data.List.Induction
import Mathlib.Tactic.SplitIfs

/-!
# Circular buffers

A buffer of `n` cells is written at its head, which moves on and starts again behind the
last cell; a flag says whether it has done so. Until then the contents are the cells
before the head, and all cells after that. They are the last `n` of the values written,
in some order.
-/
namespace Zytherion.CircularBuffer

structure Circular (α : Type) (n : ℕ) where
  cells : Vector α n
  head : Fin n
  filled : Bool

namespace Circular
variable {α : Type} {n : ℕ}

def next (h : Fin n) : Fin n := ⟨(h.val + 1) % n, Nat.mod_lt _ (Nat.zero_lt_of_lt h.isLt)⟩

def push (c : Circular α n) (x : α) : Circular α n where
  cells := c.cells.set c.head x
  head := next c.head
  filled := c.filled || (next c.head).val == 0

def contents (c : Circular α n) : List α :=
  c.cells.toList.take (if c.filled then n else c.head.val)

/-- The last values of a history. -/
def last (n : ℕ) (xs : List α) : List α := xs.drop (xs.length - n)

/-- The values `xs` were written, and the head has not come round. -/
structure Filling (c : Circular α n) (xs : List α) : Prop where
  filled : c.filled = false
  head : c.head.val = xs.length
  cells : c.cells.toList.take c.head = xs

/-- It has come round. Read from the head on, and then from the first cell, the values
stand in the order of writing. -/
structure Full (c : Circular α n) (xs : List α) : Prop where
  filled : c.filled = true
  length : n ≤ xs.length
  cells : c.cells.toList.drop c.head ++ c.cells.toList.take c.head = last n xs

/-- The cells before the head, the one at the head, and the others. -/
theorem cells_split (c : Circular α n) : ∃ before y behind,
    before.length = c.head.val ∧ c.cells.toList = before ++ y :: behind ∧
      ∀ x, (c.push x).cells.toList = before ++ x :: behind := by
  have hlt : c.head.val < c.cells.toList.length := by
    rw [Vector.length_toList]
    exact c.head.isLt
  refine ⟨c.cells.toList.take c.head, c.cells.toList[c.head.val],
    c.cells.toList.drop (c.head + 1), List.length_take_of_le (Nat.le_of_lt hlt), ?_, fun x => ?_⟩
  · rw [← List.drop_eq_getElem_cons hlt, List.take_append_drop]
  · show (c.cells.set c.head x).toList = _
    rw [Vector.toList_set, List.set_eq_take_append_cons_drop, if_pos hlt]

theorem next_cases (h : Fin n) :
    ((next h).val = h.val + 1 ∧ h.val + 1 < n) ∨ ((next h).val = 0 ∧ h.val + 1 = n) := by
  have hlt := h.isLt
  rcases Nat.lt_or_ge (h.val + 1) n with hmore | hend
  · exact .inl ⟨Nat.mod_eq_of_lt hmore, hmore⟩
  · have heq : h.val + 1 = n := by omega
    refine .inr ⟨?_, heq⟩
    show (h.val + 1) % n = 0
    rw [heq, Nat.mod_self]

theorem last_snoc {xs : List α} (h : n ≤ xs.length) (hn : 0 < n) {y : α} {ys : List α}
    (hlast : last n xs = y :: ys) (x : α) : last n (xs ++ [x]) = ys ++ [x] := by
  have hlength : (xs ++ [x]).length - n = xs.length - n + 1 := by
    rw [List.length_append, List.length_singleton]
    omega
  have htail : xs.drop (xs.length - n + 1) = ys := by
    rw [← List.drop_drop, ← last, hlast]
    rfl
  rw [last, hlength, List.drop_append_of_le_length (by omega), htail]

theorem filled_push (c : Circular α n) (x : α) :
    (c.push x).filled = (c.filled || (next c.head).val == 0) := rfl

theorem Filling.push {c : Circular α n} {xs : List α} (h : c.Filling xs) (x : α) :
    (c.push x).Filling (xs ++ [x]) ∨ (c.push x).Full (xs ++ [x]) := by
  obtain ⟨before, y, behind, hbefore, hcells, hpushed⟩ := c.cells_split
  have hxs : before = xs := by rw [← h.cells, hcells, List.take_left' hbefore]
  subst hxs
  have hlength : before.length + (behind.length + 1) = n := by
    rw [← List.length_cons, ← List.length_append, ← hcells, Vector.length_toList]
  have hfront : (before ++ [x]).length = c.head.val + 1 := by
    rw [List.length_append, hbefore, List.length_singleton]
  have hsplit : (c.push x).cells.toList = (before ++ [x]) ++ behind := by
    rw [hpushed x, List.append_assoc, List.singleton_append]
  rcases next_cases c.head with ⟨hnext, hmore⟩ | ⟨hnext, hend⟩
  · left
    refine ⟨?_, hnext.trans hfront.symm, ?_⟩
    · rw [filled_push, h.filled, hnext]
      rfl
    · show (c.push x).cells.toList.take (next c.head).val = _
      rw [hsplit, hnext, List.take_left' hfront]
  · right
    have hnil : behind = [] := List.length_eq_zero_iff.mp (by omega)
    refine ⟨?_, by omega, ?_⟩
    · rw [filled_push, hnext]
      exact Bool.or_true _
    · have hall : (before ++ [x]).length - n = 0 := by omega
      show (c.push x).cells.toList.drop (next c.head).val ++
        (c.push x).cells.toList.take (next c.head).val = _
      rw [hsplit, hnext, hnil, last, hall]
      simp

theorem Full.push {c : Circular α n} {xs : List α} (h : c.Full xs) (x : α) :
    (c.push x).Full (xs ++ [x]) := by
  have hn : 0 < n := Nat.zero_lt_of_lt c.head.isLt
  obtain ⟨before, y, behind, hbefore, hcells, hpushed⟩ := c.cells_split
  have hlength : before.length + (behind.length + 1) = n := by
    rw [← List.length_cons, ← List.length_append, ← hcells, Vector.length_toList]
  have hlast : last n xs = y :: (behind ++ before) := by
    rw [← h.cells, hcells, List.take_left' hbefore, List.drop_left' hbefore, List.cons_append]
  have hfront : (before ++ [x]).length = c.head.val + 1 := by
    rw [List.length_append, hbefore, List.length_singleton]
  have hsplit : (c.push x).cells.toList = (before ++ [x]) ++ behind := by
    rw [hpushed x, List.append_assoc, List.singleton_append]
  refine ⟨?_, ?_, ?_⟩
  · rw [filled_push, h.filled, Bool.true_or]
  · rw [List.length_append]
    exact Nat.le_add_right_of_le h.length
  · rw [last_snoc h.length hn hlast]
    show (c.push x).cells.toList.drop (next c.head).val ++
      (c.push x).cells.toList.take (next c.head).val = _
    rcases next_cases c.head with ⟨hnext, -⟩ | ⟨hnext, hend⟩
    · rw [hsplit, hnext, List.take_left' hfront, List.drop_left' hfront, List.append_assoc]
    · have hnil : behind = [] := List.length_eq_zero_iff.mp (by omega)
      rw [hsplit, hnext, hnil]
      simp

/-- A buffer that nothing was written to. -/
def new (c : Vector α n) (hn : 0 < n) : Circular α n := ⟨c, ⟨0, hn⟩, false⟩

theorem run_holds (c : Vector α n) (hn : 0 < n) (xs : List α) :
    (xs.foldl push (new c hn)).Filling xs ∨ (xs.foldl push (new c hn)).Full xs := by
  induction xs using List.reverseRecOn with
  | nil => exact .inl ⟨rfl, rfl, List.take_zero⟩
  | append_singleton xs x ih =>
      rw [List.foldl_append]
      rcases ih with h | h
      · exact h.push x
      · exact .inr (h.push x)

/-- The contents are the last values written, in some order. -/
theorem contents_perm (c : Vector α n) (hn : 0 < n) (xs : List α) :
    (xs.foldl push (new c hn)).contents.Perm (last n xs) := by
  rcases run_holds c hn xs with h | h
  · have hlt := (xs.foldl push (new c hn)).head.isLt
    have hall : xs.length - n = 0 := by
      have := h.head
      omega
    rw [contents, h.filled, if_neg Bool.false_ne_true, h.cells, last, hall, List.drop_zero]
  · have hall := Nat.le_of_eq (xs.foldl push (new c hn)).cells.length_toList
    rw [contents, h.filled, if_pos rfl, List.take_of_length_le hall, ← h.cells]
    nth_rewrite 1 [← List.take_append_drop (xs.foldl push (new c hn)).head.val
      (xs.foldl push (new c hn)).cells.toList]
    exact List.perm_append_comm

theorem size_eq (c : Vector α n) (hn : 0 < n) (xs : List α) :
    (if (xs.foldl push (new c hn)).filled then n else (xs.foldl push (new c hn)).head.val) =
      min xs.length n := by
  rcases run_holds c hn xs with h | h
  · have hlt := (xs.foldl push (new c hn)).head.isLt
    have hhead := h.head
    rw [h.filled, if_neg Bool.false_ne_true]
    omega
  · rw [h.filled, if_pos rfl, Nat.min_eq_right h.length]

end Circular

end Zytherion.CircularBuffer
