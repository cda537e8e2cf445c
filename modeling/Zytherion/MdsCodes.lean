import Mathlib.LinearAlgebra.Lagrange
import Mathlib.Data.List.GetD

/-!
# Codes in which any few places determine the rest

A code over an alphabet is `k`-separable at maximal distance if `k` places of a word
can be filled in freely and determine the word. Two words of such a code that agree in
`k` places are equal. The values of the polynomials of degree less than `k` at distinct
points of a field form such a code, and so do lists whose columns are words of one.
-/
namespace Zytherion.MdsCodes

variable {ι α β : Type*}

/-- Any `k` places can be filled in with letters of the alphabet, in one way each. -/
structure Mds (k : ℕ) (A : Set α) (C : Set (ι → α)) : Prop where
  letters : ∀ c ∈ C, ∀ i, c i ∈ A
  extends_uniquely : ∀ (S : Finset ι) (x : ι → α), S.card = k → (∀ i, x i ∈ A) →
    ∃! c, c ∈ C ∧ ∀ i ∈ S, c i = x i

section Agreement
variable {k : ℕ} {A : Set α} {C : Set (ι → α)} {c c' : ι → α}

theorem Mds.eq_of_agree (h : Mds k A C) (hc : c ∈ C) (hc' : c' ∈ C) {S : Finset ι}
    (hS : k ≤ S.card) (hagree : ∀ i ∈ S, c i = c' i) : c = c' := by
  obtain ⟨T, hTS, hT⟩ := Finset.exists_subset_card_eq hS
  obtain ⟨d, -, hunique⟩ := h.extends_uniquely T c' hT (h.letters c' hc')
  have hd : c = d := hunique c ⟨hc, fun i hi => hagree i (hTS hi)⟩
  have hd' : c' = d := hunique c' ⟨hc', fun _ _ => rfl⟩
  rw [hd, hd']

end Agreement

/-- The code with its letters renamed. -/
def renamed (e : α ≃ β) (C : Set (ι → β)) : Set (ι → α) := {c | (fun i => e (c i)) ∈ C}

theorem Mds.renamed {k : ℕ} {C : Set (ι → β)} (e : α ≃ β) (h : Mds k Set.univ C) :
    Mds k Set.univ (renamed e C) where
  letters _ _ _ := trivial
  extends_uniquely S x hS _ := by
    obtain ⟨c, ⟨hc, hagree⟩, hunique⟩ :=
      h.extends_uniquely S (fun i => e (x i)) hS fun _ => trivial
    refine ⟨fun i => e.symm (c i), ⟨?_, fun i hi => ?_⟩, ?_⟩
    · simpa [MdsCodes.renamed] using hc
    · exact e.symm_apply_eq.mpr (hagree i hi)
    · rintro d ⟨hd, hdx⟩
      have heq := hunique (fun i => e (d i)) ⟨hd, fun i hi => congrArg e (hdx i hi)⟩
      funext i
      rw [← heq, e.symm_apply_apply]

/-- Lists of one length whose columns are words of the code. -/
def striped [Inhabited α] (n : ℕ) (C : Set (ι → α)) : Set (ι → List α) :=
  {w | (∀ i, (w i).length = n) ∧ ∀ j < n, (fun i => (w i).getD j default) ∈ C}

theorem Mds.striped [Inhabited α] {k : ℕ} {C : Set (ι → α)} (h : Mds k Set.univ C) (n : ℕ) :
    Mds k {s : List α | s.length = n} (striped n C) where
  letters w hw := hw.1
  extends_uniquely S x hS hx := by
    -- one word of the code for each column
    choose column hcolumn hunique using fun j : ℕ =>
      h.extends_uniquely S (fun i => (x i).getD j default) hS fun _ => trivial
    refine ⟨fun i => List.ofFn fun j : Fin n => column j i, ⟨⟨?_, ?_⟩, ?_⟩, ?_⟩
    · exact fun i => List.length_ofFn
    · intro j hj
      have hget : (fun i => (List.ofFn fun j : Fin n => column j i).getD j default) =
          column j := by
        funext i
        rw [List.getD_eq_getElem _ _ (by rwa [List.length_ofFn]), List.getElem_ofFn]
      rw [hget]
      exact (hcolumn j).1
    · intro i hi
      refine List.ext_getElem ((List.length_ofFn).trans (hx i).symm) fun j hj hj' => ?_
      rw [List.getElem_ofFn]
      exact ((hcolumn j).2 i hi).trans (List.getD_eq_getElem _ _ hj')
    · rintro w ⟨⟨hlen, hcols⟩, hagree⟩
      funext i
      refine List.ext_getElem ((hlen i).trans (List.length_ofFn).symm) fun j hj hj' => ?_
      have hjn : j < n := by rwa [hlen] at hj
      have heq := hunique j _ ⟨hcols j hjn, fun i hi => by rw [hagree i hi]⟩
      rw [List.getElem_ofFn, ← congrFun heq i]
      exact (List.getD_eq_getElem _ _ hj).symm

/-- Values of polynomials of small degree. -/
def evaluations {F : Type*} [Field F] (points : ι → F) (k : ℕ) : Set (ι → F) :=
  {c | ∃ p : Polynomial F, p.degree < k ∧ ∀ i, c i = p.eval (points i)}

theorem evaluations_mds {F : Type*} [Field F] {points : ι → F}
    (hpoints : Function.Injective points) (k : ℕ) :
    Mds k Set.univ (evaluations points k) where
  letters _ _ _ := trivial
  extends_uniquely S x hS _ := by
    classical
    have hinj : Set.InjOn points S := hpoints.injOn
    refine ⟨fun i => (Lagrange.interpolate S points x).eval (points i), ⟨⟨_, ?_, fun i => rfl⟩,
      fun i hi => Lagrange.eval_interpolate_at_node x hinj hi⟩, ?_⟩
    · rw [← hS]
      exact Lagrange.degree_interpolate_lt x hinj
    · rintro c ⟨⟨p, hp, hc⟩, hagree⟩
      have heq : p = Lagrange.interpolate S points x :=
        Lagrange.eq_interpolate_of_eval_eq x hinj (hS ▸ hp) fun i hi =>
          (hc i).symm.trans (hagree i hi)
      funext i
      rw [hc, heq]

end Zytherion.MdsCodes
