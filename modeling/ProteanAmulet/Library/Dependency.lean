import Mathlib.Data.Finset.Basic
import Mathlib.Data.Finset.Union

/-! Dependency maps of a dynamic taint analysis. A location that the map does not mention
depends on its own label only; dependencies are never forgotten. -/
namespace Dependency
variable {κ L : Type*}

/-- Every label of the set satisfies `P`. -/
def All (P : L → Prop) (s : Finset L) : Prop := ∀ ℓ ∈ s, P ℓ

lemma All.mono {P : L → Prop} {s t : Finset L} (h : All P t) (hst : s ⊆ t) : All P s :=
  fun ℓ hℓ => h ℓ (hst hℓ)

variable [DecidableEq L] (name : κ → L)

/-- The labels location `k` depends on. -/
def get (d : κ → Option (Finset L)) (k : κ) : Finset L := (d k).getD {name k}

/-- All the labels a list of locations depends on. -/
def gather (d : κ → Option (Finset L)) (ks : List κ) : Finset L :=
  ks.foldl (fun s k => s ∪ get name d k) ∅

lemma mem_foldl_union (d : κ → Option (Finset L)) (ks : List κ) (s : Finset L) (ℓ : L) :
    ℓ ∈ ks.foldl (fun s k => s ∪ get name d k) s ↔ ℓ ∈ s ∨ ∃ k ∈ ks, ℓ ∈ get name d k := by
  induction ks generalizing s with
  | nil => simp
  | cons a ks ih =>
    rw [List.foldl_cons,ih]
    simp only [Finset.mem_union,List.mem_cons]
    constructor
    · rintro ((h | h) | ⟨k,hk,h⟩)
      · exact Or.inl h
      · exact Or.inr ⟨a,Or.inl rfl,h⟩
      · exact Or.inr ⟨k,Or.inr hk,h⟩
    · rintro (h | ⟨k,rfl | hk,h⟩)
      · exact Or.inl (Or.inl h)
      · exact Or.inl (Or.inr h)
      · exact Or.inr ⟨k,hk,h⟩

theorem mem_gather (d : κ → Option (Finset L)) (ks : List κ) (ℓ : L) :
    ℓ ∈ gather name d ks ↔ ∃ k ∈ ks, ℓ ∈ get name d k := by
  simp [gather,mem_foldl_union]

variable [DecidableEq κ]

/-- Add the labels `u` to location `k`. -/
def absorb (u : Finset L) (d : κ → Option (Finset L)) (k : κ) : κ → Option (Finset L) :=
  Function.update d k (match d k with
    | some s => some (s ∪ u)
    | none => some (insert (name k) u))

def absorbAll (u : Finset L) (d : κ → Option (Finset L)) (ks : List κ) : κ → Option (Finset L) :=
  ks.foldl (absorb name u) d

lemma get_absorb (u : Finset L) (d : κ → Option (Finset L)) (k k' : κ) :
    get name (absorb name u d k) k' = if k'=k then get name d k' ∪ u else get name d k' := by
  unfold get absorb
  by_cases h : k'=k
  · subst h
    cases hd : d k' with
    | none => simp
    | some s => simp
  · simp [h]

theorem get_absorbAll (u : Finset L) (d : κ → Option (Finset L)) (ks : List κ) (k : κ) :
    get name (absorbAll name u d ks) k = if k ∈ ks then get name d k ∪ u else get name d k := by
  unfold absorbAll
  induction ks generalizing d with
  | nil => simp
  | cons a ks ih =>
    rw [List.foldl_cons,ih,get_absorb]
    by_cases ha : k=a
    · by_cases hm : k ∈ ks <;> simp [ha]
    · simp [ha]

theorem get_subset_absorbAll (u : Finset L) (d : κ → Option (Finset L)) (ks : List κ) (k : κ) :
    get name d k ⊆ get name (absorbAll name u d ks) k := by
  rw [get_absorbAll]
  split_ifs
  · exact Finset.subset_union_left
  · exact Finset.Subset.refl _

end Dependency
