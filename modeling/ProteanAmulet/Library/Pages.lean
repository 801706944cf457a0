import Mathlib.Algebra.BigOperators.Group.List.Basic
import Mathlib.Algebra.Ring.Nat
import Mathlib.Tactic.Common

/-! Pieces that are put on pages: a page is closed as soon as the pieces on it reach a limit. -/
namespace Pages
variable {limit : ℕ} {sizes p q a b : List ℕ}

/-- The last piece of a page brings it to the limit, unless it is the last page. -/
structure Cut (limit : ℕ) (sizes : List ℕ) (pages : List (List ℕ)) (page : List ℕ) : Prop where
  whole : pages.flatten ++ page = sizes
  full : ∀ p ∈ pages, p.dropLast.sum<limit ∧ limit ≤ p.sum
  opened : page.dropLast.sum<limit
  /-- No new page is opened for nothing. -/
  some : page = [] → pages = []

/-- Nothing is put on a page behind the piece that has brought it to the limit. -/
lemma nil_of_full (hp : p.dropLast.sum<limit) (hq : limit ≤ q.sum) (h : q ++ b = p) : b = [] := by
  by_contra some
  rw [← h,List.dropLast_append_of_ne_nil some,List.sum_append] at hp
  omega

/-- Two full pages that begin in the same place are the same. -/
lemma full_unique (hp : p.dropLast.sum<limit ∧ limit ≤ p.sum) (hq : q.dropLast.sum<limit ∧ limit ≤ q.sum)
    (h : p ++ a = q ++ b) : p=q ∧ a=b := by
  rcases List.append_eq_append_iff.mp h with ⟨c,rfl,rfl⟩ | ⟨c,rfl,rfl⟩
  · rw [nil_of_full hq.1 hp.2 rfl]
    simp
  · rw [nil_of_full hp.1 hq.2 rfl]
    simp

namespace Cut
variable {pages pages' : List (List ℕ)} {page page' : List ℕ}

/-- A full page leaves nothing behind it only if it is the last one. -/
lemma not_full (h : Cut limit sizes pages page) (h' : sizes.dropLast.sum<limit) : pages = [] := by
  cases pages with
  | nil => rfl
  | cons p pages =>
    have rest := nil_of_full h' (h.full p List.mem_cons_self).2
      (b := pages.flatten ++ page) (by rw [← h.whole]; simp)
    exact h.some (List.append_eq_nil_iff.mp rest).2

/-- There is only one way to fill the pages. -/
theorem unique (h : Cut limit sizes pages page) (h' : Cut limit sizes pages' page') :
    pages=pages' ∧ page=page' := by
  induction pages generalizing sizes pages' with
  | nil =>
    have same : page = sizes := h.whole
    have none := h'.not_full (same ▸ h.opened)
    subst none
    exact ⟨rfl,same.trans h'.whole.symm⟩
  | cons p pages ih =>
    cases pages' with
    | nil =>
      have same : page' = sizes := h'.whole
      cases h.not_full (same ▸ h'.opened)
    | cons q pages' =>
      have split : p ++ (pages.flatten ++ page) = q ++ (pages'.flatten ++ page') := by
        rw [← List.append_assoc,← List.append_assoc]
        exact h.whole.trans h'.whole.symm
      obtain ⟨rfl,rest⟩ := full_unique (h.full p List.mem_cons_self) (h'.full q List.mem_cons_self) split
      have tail : Cut limit (pages.flatten ++ page) pages page :=
        ⟨rfl,fun r hr => h.full r (List.mem_cons_of_mem _ hr),h.opened,fun e => nomatch h.some e⟩
      have tail' : Cut limit (pages.flatten ++ page) pages' page' :=
        ⟨rest.symm,fun r hr => h'.full r (List.mem_cons_of_mem _ hr),h'.opened,
          fun e => nomatch h'.some e⟩
      obtain ⟨rfl,rfl⟩ := ih tail tail'
      exact ⟨rfl,rfl⟩

lemma last (h : page.dropLast.sum<limit) : Cut limit page [] page :=
  ⟨rfl,nofun,h,fun _ => rfl⟩

lemma cons (hp : p.dropLast.sum<limit ∧ limit ≤ p.sum) (some : sizes ≠ [])
    (h : Cut limit sizes pages page) : Cut limit (p ++ sizes) (p :: pages) page where
  whole := by
    rw [List.flatten_cons,List.append_assoc,h.whole]
  full := List.forall_mem_cons.mpr ⟨hp,h.full⟩
  opened := h.opened
  some := by
    rintro rfl
    have none := h.whole
    rw [h.some rfl] at none
    exact absurd none.symm some

end Cut

end Pages
