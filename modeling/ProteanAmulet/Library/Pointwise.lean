import Mathlib.Data.List.Forall2

/-! Lists that are related element by element, and how they are cut and put together. -/
namespace Pointwise
variable {α β γ : Type*} {R : α → β → Prop} {S : β → γ → Prop} {T : α → γ → Prop}

/-- Where one list is cut, the other one can be. -/
lemma append_left {a b : List α} {l : List β} (h : List.Forall₂ R (a ++ b) l) :
    ∃ l₁ l₂, l = l₁ ++ l₂ ∧ List.Forall₂ R a l₁ ∧ List.Forall₂ R b l₂ := by
  refine ⟨l.take a.length,l.drop a.length,(List.take_append_drop _ _).symm,?_,?_⟩
  · exact (List.forall₂_take_append l a b h.flip).flip
  · exact (List.forall₂_drop_append l a b h.flip).flip

lemma append_iff {a a' : List α} {b b' : List β} (h : a.length = b.length) :
    List.Forall₂ R (a ++ a') (b ++ b') ↔ List.Forall₂ R a b ∧ List.Forall₂ R a' b' := by
  constructor
  · intro both
    have front := List.forall₂_take_append _ _ _ both
    have back := List.forall₂_drop_append _ _ _ both
    rw [← h,List.take_left' rfl] at front
    rw [← h,List.drop_left' rfl] at back
    exact ⟨front,back⟩
  · rintro ⟨front,back⟩
    exact List.rel_append front back

lemma comp (h : ∀ x y z, R x y → S y z → T x z) {a : List α} {b : List β} {c : List γ}
    (hab : List.Forall₂ R a b) (hbc : List.Forall₂ S b c) : List.Forall₂ T a c := by
  induction hab generalizing c with
  | nil =>
    cases hbc
    exact .nil
  | cons hxy _ ih =>
    cases hbc with
    | cons hyz hbc => exact .cons (h _ _ _ hxy hyz) (ih hbc)

/-- A list is cut into three parts of given lengths. -/
lemma exists_append_three {l : List α} {i j k : ℕ} (h : l.length = i+j+k) :
    ∃ a b c, l = a ++ b ++ c ∧ a.length = i ∧ b.length = j ∧ c.length = k := by
  refine ⟨l.take i,(l.drop i).take j,(l.drop i).drop j,?_,?_,?_,?_⟩
  · rw [List.append_assoc,List.take_append_drop,List.take_append_drop]
  all_goals
    simp only [List.length_take,List.length_drop]
    omega

end Pointwise
