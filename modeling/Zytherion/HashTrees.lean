import Mathlib.Data.Nat.Bitwise

/-!
# Paths in a tree of hashes

Leaves are numbered, and the nodes of each further level are the hashes of two
neighbours of the level below. A leaf and the siblings along its path give the
node at the end of the path. Conversely, a value that gives that node with some
path is the leaf and the path its siblings, unless two different pairs with one
hash occur: one hashed on the way up, the other among the nodes of the tree.
-/
namespace Zytherion.HashTrees

variable {H : Type} (pair : H → H → H)

/-- The level above a level. -/
def up (level : ℕ → H) : ℕ → H := fun i => pair (level (2 * i)) (level (2 * i + 1))

/-- The nodes `k` levels above the leaves. -/
def ancestor : (k : ℕ) → (ℕ → H) → ℕ → H
  | 0, leaf => leaf
  | k + 1, leaf => ancestor k (up pair leaf)

/-- The siblings along the path of a leaf, from the bottom up. -/
def siblings : (k : ℕ) → (ℕ → H) → ℕ → List H
  | 0, _, _ => []
  | k + 1, leaf, i => leaf (i ^^^ 1) :: siblings k (up pair leaf) (i / 2)

/-- A node and its sibling, in the order in which they are hashed. -/
def inOrder (i : ℕ) (x sibling : H) : H × H := if i % 2 = 0 then (x, sibling) else (sibling, x)

def hashed (e : H × H) : H := pair e.1 e.2

def climb : ℕ → H → List H → H
  | _, x, [] => x
  | i, x, sibling :: path => climb (i / 2) (hashed pair (inOrder i x sibling)) path

/-- The pairs hashed by a climb. -/
def climbed : ℕ → H → List H → List (H × H)
  | _, _, [] => []
  | i, x, sibling :: path =>
      inOrder i x sibling :: climbed (i / 2) (hashed pair (inOrder i x sibling)) path

/-- The pairs of the tree that are hashed on the way up from a leaf. -/
def onPath : (k : ℕ) → (ℕ → H) → ℕ → List (H × H)
  | 0, _, _ => []
  | k + 1, leaf, i =>
      (leaf (2 * (i / 2)), leaf (2 * (i / 2) + 1)) :: onPath k (up pair leaf) (i / 2)

/-- All pairs hashed for the tree over `2 ^ k` leaves. -/
def nodePairs : (k : ℕ) → (ℕ → H) → List (H × H)
  | 0, _ => []
  | k + 1, leaf =>
      (List.range (2 ^ k)).map (fun i => (leaf (2 * i), leaf (2 * i + 1))) ++
        nodePairs k (up pair leaf)

/-- Two pairs at the same height are different and have one hash. -/
def Clash (us vs : List (H × H)) : Prop :=
  ∃ e ∈ us.zip vs, e.1 ≠ e.2 ∧ hashed pair e.1 = hashed pair e.2

variable {pair} {leaf : ℕ → H} {i : ℕ}

/-- A leaf and its sibling are the two nodes below their parent. -/
theorem inOrder_sibling (leaf : ℕ → H) (i : ℕ) :
    inOrder i (leaf i) (leaf (i ^^^ 1)) = (leaf (2 * (i / 2)), leaf (2 * (i / 2) + 1)) := by
  unfold inOrder
  split_ifs with h
  · have heven : 2 * (i / 2) = i := by omega
    rw [heven, Nat.xor_one_of_even (Nat.even_iff.mpr h)]
  · have hodd : 2 * (i / 2) = i - 1 := by omega
    have hnext : i - 1 + 1 = i := by omega
    rw [hodd, hnext, Nat.xor_one_of_odd (Nat.odd_iff.mpr (by omega))]

theorem up_ancestor (k : ℕ) (leaf : ℕ → H) :
    up pair (ancestor pair k leaf) = ancestor pair (k + 1) leaf := by
  induction k generalizing leaf with
  | zero => rfl
  | succ k ih => exact ih (up pair leaf)

/-- A node depends on the leaves below it alone. -/
theorem ancestor_congr {k : ℕ} {leaf' : ℕ → H} (h : ∀ j < (i + 1) * 2 ^ k, leaf j = leaf' j) :
    ancestor pair k leaf i = ancestor pair k leaf' i := by
  induction k generalizing leaf leaf' with
  | zero => exact h i (by omega)
  | succ k ih =>
      refine ih fun j hj => ?_
      have hlt : 2 * j + 1 < (i + 1) * 2 ^ (k + 1) := by
        rw [pow_succ, ← mul_assoc]
        omega
      unfold up
      rw [h (2 * j) (by omega), h (2 * j + 1) hlt]

theorem climb_siblings (k : ℕ) (leaf : ℕ → H) (i : ℕ) :
    climb pair i (leaf i) (siblings pair k leaf i) = ancestor pair k leaf (i / 2 ^ k) := by
  induction k generalizing leaf i with
  | zero => rw [pow_zero, Nat.div_one]; rfl
  | succ k ih =>
      have hup : hashed pair (inOrder i (leaf i) (leaf (i ^^^ 1))) = up pair leaf (i / 2) := by
        rw [inOrder_sibling]
        rfl
      rw [siblings, climb, hup, ih, ancestor, Nat.div_div_eq_div_mul, pow_succ']

/-- A climb of at most `k` levels sees the lowest `k` bits of its index. -/
theorem climb_add_two_pow {k : ℕ} {x : H} {path : List H} (h : path.length ≤ k) :
    climb pair (i + 2 ^ k) x path = climb pair i x path := by
  induction path generalizing k i x with
  | nil => rfl
  | cons sibling path ih =>
      obtain ⟨k, rfl⟩ : ∃ l, k = l + 1 := ⟨k - 1, by simp only [List.length_cons] at h; omega⟩
      have hhalf : (i + 2 ^ (k + 1)) / 2 = i / 2 + 2 ^ k := by
        rw [pow_succ]
        omega
      have hside : inOrder (i + 2 ^ (k + 1)) x sibling = inOrder i x sibling := by
        have hparity : (i + 2 ^ (k + 1)) % 2 = i % 2 := by
          rw [pow_succ]
          omega
        rw [inOrder, inOrder, hparity]
      rw [climb, climb, hhalf, hside, ih (by simpa using h)]

theorem onPath_subset_nodePairs {k : ℕ} (hi : i < 2 ^ k) :
    onPath pair k leaf i ⊆ nodePairs pair k leaf := by
  induction k generalizing leaf i with
  | zero => exact List.nil_subset _
  | succ k ih =>
      have hhalf : i / 2 < 2 ^ k := by
        rw [pow_succ] at hi
        omega
      refine List.cons_subset.mpr ⟨List.mem_append_left _ ?_, ?_⟩
      · exact List.mem_map.mpr ⟨i / 2, List.mem_range.mpr hhalf, rfl⟩
      · exact List.Subset.trans (ih hhalf) (List.subset_append_right _ _)

theorem inOrder_inj {x x' sibling sibling' : H}
    (h : inOrder i x sibling = inOrder i x' sibling') : x = x' ∧ sibling = sibling' := by
  unfold inOrder at h
  split_ifs at h
  · exact Prod.mk.inj h
  · exact (Prod.mk.inj h).symm

/-- A climb that ends at the node above a leaf began at the leaf and took its siblings. -/
theorem climb_binds {k : ℕ} {x : H} {path : List H} (hlen : path.length = k)
    (h : climb pair i x path = ancestor pair k leaf (i / 2 ^ k)) :
    x = leaf i ∧ path = siblings pair k leaf i ∨
      Clash pair (climbed pair i x path) (onPath pair k leaf i) := by
  induction path generalizing k leaf i x with
  | nil =>
      subst hlen
      rw [List.length_nil, pow_zero, Nat.div_one] at h
      exact .inl ⟨h, rfl⟩
  | cons sibling path ih =>
      obtain rfl : path.length + 1 = k := hlen
      rw [climb, ancestor, pow_succ', ← Nat.div_div_eq_div_mul] at h
      rcases ih rfl h with ⟨hparent, hpath⟩ | ⟨e, he, hclash⟩
      · by_cases heq : inOrder i x sibling = (leaf (2 * (i / 2)), leaf (2 * (i / 2) + 1))
        · rw [← inOrder_sibling] at heq
          obtain ⟨rfl, rfl⟩ := inOrder_inj heq
          exact .inl ⟨rfl, congrArg (_ :: ·) hpath⟩
        · exact .inr ⟨_, List.mem_cons_self, heq, hparent⟩
      · exact .inr ⟨e, List.mem_cons_of_mem _ he, hclash⟩

end Zytherion.HashTrees
