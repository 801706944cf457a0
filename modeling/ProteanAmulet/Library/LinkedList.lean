import Mathlib.Data.List.Nodup
import Mathlib.Tactic.Common

/-! Doubly linked lists: nodes with two links each, which hold the elements of a list together. A
part of such a list is described by what comes before and after it. -/
namespace LinkedList
variable {α : Type*} {next previous next' previous' : α → Option α}
  {before after before' after' : Option α} {l l₁ l₂ : List α} {x y : α}

/-- The links of the elements of `l`, which stand between `before` and `after`. -/
def Linked (next previous : α → Option α) (before : Option α) : List α → Option α → Prop
  | [], _ => True
  | x :: l, after =>
    previous x = before ∧ next x = l.head?.or after ∧ Linked next previous (some x) l after

@[simp] lemma linked_nil : Linked next previous before [] after := trivial

lemma linked_append : Linked next previous before (l₁ ++ l₂) after ↔
    Linked next previous before l₁ (l₂.head?.or after) ∧
      Linked next previous (l₁.getLast?.or before) l₂ after := by
  induction l₁ generalizing before with
  | nil => simp
  | cons x l₁ ih =>
    have last : (x :: l₁).getLast?.or before = l₁.getLast?.or (some x) := by
      cases h : l₁.getLast? <;> simp [List.getLast?_cons,h]
    rw [List.cons_append,Linked,Linked,ih,List.head?_append,Option.or_assoc,last,and_assoc,and_assoc]

namespace Linked

/-- The links of an element lead to its neighbours. -/
lemma at_split (h : Linked next previous before (l₁ ++ x :: l₂) after) :
    previous x = l₁.getLast?.or before ∧ next x = l₂.head?.or after :=
  ⟨(linked_append.mp h).2.1,(linked_append.mp h).2.2.1⟩

lemma of_split (h : ∀ l₁ x l₂, l = l₁ ++ x :: l₂ →
    previous x = l₁.getLast?.or before ∧ next x = l₂.head?.or after) :
    Linked next previous before l after := by
  induction l generalizing before with
  | nil => trivial
  | cons x l ih =>
    refine ⟨(h [] x l rfl).1,(h [] x l rfl).2,ih ?_⟩
    rintro l₁ y l₂ rfl
    have outer := h (x :: l₁) y l₂ rfl
    cases hl : l₁.getLast? <;> simpa [List.getLast?_cons,hl] using outer

section Update
variable [DecidableEq α]

/-- What comes behind a part is changed in its last element. -/
lemma setAfter (h : Linked next previous before l after) (nodup : l.Nodup)
    (hn : ∀ x ∈ l, next' x = if l.getLast? = some x then after' else next x)
    (hp : ∀ x ∈ l, previous' x = previous x) : Linked next' previous' before l after' := by
  apply of_split
  rintro l₁ x l₂ rfl
  rw [hn x (by simp),hp x (by simp)]
  refine ⟨h.at_split.1,?_⟩
  rcases List.eq_nil_or_concat' l₂ with rfl | ⟨l₃,y,rfl⟩
  · simp
  · have other : y ≠ x := by
      rintro rfl
      simp [List.nodup_append] at nodup
    have last : (l₁ ++ x :: (l₃ ++ [y])).getLast? = some y := by
      rw [← List.cons_append,← List.append_assoc]
      exact List.getLast?_concat
    rw [last,if_neg (by simpa using other),h.at_split.2]
    cases hl : (l₃ ++ [y]).head? with
    | none => simp at hl
    | some z => rfl

/-- What comes before a part is changed in its first element. -/
lemma setBefore (h : Linked next previous before l after) (nodup : l.Nodup)
    (hn : ∀ x ∈ l, next' x = next x)
    (hp : ∀ x ∈ l, previous' x = if l.head? = some x then before' else previous x) :
    Linked next' previous' before' l after := by
  apply of_split
  rintro l₁ x l₂ rfl
  rw [hn x (by simp),hp x (by simp)]
  refine ⟨?_,h.at_split.2⟩
  cases l₁ with
  | nil => simp
  | cons y l₁ =>
    have other : y ≠ x := by
      rintro rfl
      simp at nodup
    rw [List.cons_append,List.head?_cons,if_neg (by simpa using other),h.at_split.1]
    cases hl : (y :: l₁).getLast? with
    | none => simp at hl
    | some z => rfl

/-- A new element is put between two parts. -/
lemma insert (h : Linked next previous none (l₁ ++ l₂) none) (nodup : (l₁ ++ l₂).Nodup)
    (hn : ∀ y ∈ l₁ ++ l₂, next' y = if l₁.getLast? = some y then some x else next y)
    (hp : ∀ y ∈ l₁ ++ l₂, previous' y = if l₂.head? = some y then some x else previous y)
    (hx : next' x = l₂.head?) (hx' : previous' x = l₁.getLast?) :
    Linked next' previous' none (l₁ ++ x :: l₂) none := by
  obtain ⟨front,back⟩ := linked_append.mp h
  obtain ⟨nodup₁,nodup₂,apart⟩ := List.nodup_append.mp nodup
  refine linked_append.mpr ⟨front.setAfter nodup₁ ?_ ?_,?_,?_,back.setBefore nodup₂ ?_ ?_⟩
  · intro y hy
    exact hn y (List.mem_append_left _ hy)
  · intro y hy
    rw [hp y (List.mem_append_left _ hy),if_neg]
    exact fun head => apart y hy y (List.mem_of_mem_head? head) rfl
  · rw [hx',Option.or_none]
  · rw [hx,Option.or_none]
  · intro y hy
    rw [hn y (List.mem_append_right _ hy),if_neg]
    exact fun last => apart y (List.mem_of_getLast? last) y hy rfl
  · intro y hy
    exact hp y (List.mem_append_right _ hy)

/-- An element is taken out, and its neighbours are linked to each other. -/
lemma delete (h : Linked next previous none (l₁ ++ x :: l₂) none) (nodup : (l₁ ++ l₂).Nodup)
    (hn : ∀ y ∈ l₁ ++ l₂, next' y = if l₁.getLast? = some y then l₂.head? else next y)
    (hp : ∀ y ∈ l₁ ++ l₂, previous' y = if l₂.head? = some y then l₁.getLast? else previous y) :
    Linked next' previous' none (l₁ ++ l₂) none := by
  obtain ⟨front,-,-,back⟩ := linked_append.mp h
  obtain ⟨nodup₁,nodup₂,apart⟩ := List.nodup_append.mp nodup
  refine linked_append.mpr ⟨front.setAfter nodup₁ ?_ ?_,back.setBefore nodup₂ ?_ ?_⟩
  · intro y hy
    rw [hn y (List.mem_append_left _ hy),Option.or_none]
  · intro y hy
    rw [hp y (List.mem_append_left _ hy),if_neg]
    exact fun head => apart y hy y (List.mem_of_mem_head? head) rfl
  · intro y hy
    rw [hn y (List.mem_append_right _ hy),if_neg]
    exact fun last => apart y (List.mem_of_getLast? last) y hy rfl
  · intro y hy
    rw [hp y (List.mem_append_right _ hy),Option.or_none]

end Update

/-- The two links are inverse to each other. -/
lemma next_eq_iff (h : Linked next previous none l none) (hx : x ∈ l) (hy : y ∈ l) :
    next x = some y ↔ previous y = some x := by
  constructor
  · intro hn
    obtain ⟨l₁,l₂,rfl⟩ := List.append_of_mem hx
    rw [h.at_split.2,Option.or_none] at hn
    obtain ⟨l₃,rfl⟩ := List.head?_eq_some_iff.mp hn
    have moved : l₁ ++ x :: y :: l₃ = (l₁ ++ [x]) ++ y :: l₃ := by simp
    rw [moved] at h
    rw [h.at_split.1]
    simp
  · intro hp
    obtain ⟨l₁,l₂,rfl⟩ := List.append_of_mem hy
    rw [h.at_split.1,Option.or_none] at hp
    obtain ⟨l₀,rfl⟩ := List.getLast?_eq_some_iff.mp hp
    rw [List.append_assoc,List.singleton_append] at h
    rw [h.at_split.2]
    rfl

/-- The links do not lead out of the list. -/
lemma mem_of_next (h : Linked next previous none l none) (hx : x ∈ l) (hn : next x = some y) :
    y ∈ l := by
  obtain ⟨l₁,l₂,rfl⟩ := List.append_of_mem hx
  rw [h.at_split.2,Option.or_none] at hn
  exact List.mem_append_right _ (List.mem_cons_of_mem _ (List.mem_of_mem_head? hn))

lemma mem_of_previous (h : Linked next previous none l none) (hx : x ∈ l) (hp : previous x = some y) :
    y ∈ l := by
  obtain ⟨l₁,l₂,rfl⟩ := List.append_of_mem hx
  rw [h.at_split.1,Option.or_none] at hp
  exact List.mem_append_left _ (List.mem_of_getLast? hp)

end Linked

end LinkedList
