import Mathlib.Logic.Relation

/-! Walks in a graph that is given by its edges: leaving a set of nodes, and keeping a target in
reach when all edges of one node are replaced by a single one. -/
namespace Graph
open Relation
variable {β : Type*} {edge edge' : β → β → Prop}

/-- A walk out of a set of nodes takes an edge out of it. -/
lemma exists_exit {C : β → Prop} {a b : β} (h : ReflTransGen edge a b) (ha : C a) (hb : ¬C b) :
    ∃ x y, C x ∧ ¬C y ∧ edge x y := by
  induction h with
  | refl => exact absurd ha hb
  | @tail x y hx hxy ih =>
    by_cases hC : C x
    · exact ⟨x,y,hC,hb,hxy⟩
    · exact ih hC

/-- A walk that never comes to `src` is still there when only the edges of `src` change. -/
lemma walk_avoiding {src a b : β} (keep : ∀ x y, x ≠ src → edge x y → edge' x y)
    (avoid : ¬ReflTransGen edge a src) (h : ReflTransGen edge a b) : ReflTransGen edge' a b := by
  induction h with
  | refl => exact .refl
  | @tail x y hx hxy ih =>
    refine ih.tail (keep x y ?_ hxy)
    rintro rfl
    exact avoid hx

/-- When `src` is sent to `dst`, from which there is no way back, what could be reached through any
of its edges can be reached through this one. -/
theorem reaches_of_redirect {T : β → Prop} {src dst a : β} (keep : ∀ x y, x ≠ src → edge x y → edge' x y)
    (redirect : edge' src dst) (away : ¬ReflTransGen edge dst src)
    (target : ∃ t, T t ∧ ReflTransGen edge dst t) (h : ∃ t, T t ∧ ReflTransGen edge a t) :
    ∃ t, T t ∧ ReflTransGen edge' a t := by
  obtain ⟨t₁,ht₁,hd⟩ := target
  have through : ReflTransGen edge' src t₁ := .head redirect (walk_avoiding keep away hd)
  obtain ⟨t,ht,h⟩ := h
  -- the walk is followed until it comes to `src`
  induction h using ReflTransGen.head_induction_on with
  | refl => exact ⟨t,ht,.refl⟩
  | @head x y hxy _ ih =>
    by_cases hx : x = src
    · subst hx
      exact ⟨t₁,ht₁,through⟩
    · obtain ⟨t',ht',hy⟩ := ih
      exact ⟨t',ht',.head (keep x y hx hxy) hy⟩

end Graph
