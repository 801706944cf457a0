import Mathlib.Algebra.Ring.Int.Defs
import Mathlib.Algebra.BigOperators.Group.List.Basic
import Mathlib.Data.List.Sort

/-! Concatenations of lists in a fixed order, some of them single markers that can be told from all
other elements. The markers cut the concatenation into stretches; within a stretch only the total
number of times that each element occurs is left. -/
namespace Concatenation
variable {α β σ : Type*}

/-- The concatenation of lists and markers. -/
def expand (f : β → List α) (g : σ → α) : List (β ⊕ σ) → List α
  | [] => []
  | .inl v :: s => f v ++ expand f g s
  | .inr m :: s => g m :: expand f g s

/-- The lists between the markers. -/
def stretches : List (β ⊕ σ) → List β × List (List β)
  | [] => ([],[])
  | .inl v :: s => (v :: (stretches s).1,(stretches s).2)
  | .inr _ :: s => ([],(stretches s).1 :: (stretches s).2)

def allStretches (s : List (β ⊕ σ)) : List (List β) := (stretches s).1 :: (stretches s).2

lemma mem_of_mem_allStretches {s : List (β ⊕ σ)} {r : List β} (hr : r ∈ allStretches s) {v : β}
    (hv : v ∈ r) : Sum.inl v ∈ s := by
  induction s generalizing r with
  | nil => simp_all [allStretches,stretches]
  | cons i s ih =>
    cases i with
    | inl u =>
      rcases List.mem_cons.mp hr with rfl | later
      · rcases List.mem_cons.mp hv with rfl | inside
        · exact List.mem_cons_self
        · exact List.mem_cons_of_mem _ (ih List.mem_cons_self inside)
      · exact List.mem_cons_of_mem _ (ih (List.mem_cons_of_mem _ later) hv)
    | inr m =>
      rcases List.mem_cons.mp hr with rfl | later
      · simp [stretches] at hv
      · exact List.mem_cons_of_mem _ (ih later hv)

section Stretches
variable {f f' : β → List α} {g g' : σ → α} {marker : α → Prop}

/-- The elements before the first marker are those of the first stretch. -/
lemma append_left_cancel_of_marker {a a' b b' : List α} {x x' : α} (ha : ∀ y ∈ a, ¬marker y)
    (ha' : ∀ y ∈ a', ¬marker y) (hx : marker x) (hx' : marker x')
    (h : a ++ x :: b = a' ++ x' :: b') : a=a' ∧ x=x' ∧ b=b' := by
  induction a generalizing a' with
  | nil =>
    cases a' with
    | nil => simpa using h
    | cons y a' =>
      obtain ⟨rfl,-⟩ := List.cons.inj h
      exact absurd hx (ha' x List.mem_cons_self)
  | cons y a ih =>
    cases a' with
    | nil =>
      obtain ⟨rfl,-⟩ := List.cons.inj h
      exact absurd hx' (ha y List.mem_cons_self)
    | cons z a' =>
      obtain ⟨rfl,tails⟩ := List.cons.inj h
      obtain ⟨rfl,rest⟩ := ih (fun w hw => ha w (List.mem_cons_of_mem y hw))
        (fun w hw => ha' w (List.mem_cons_of_mem y hw)) tails
      exact ⟨rfl,rest⟩

/-- What a concatenation determines: every stretch as a whole, and every marker. -/
theorem expand_eq_iff (s : List (β ⊕ σ)) (hf : ∀ v, ∀ x ∈ f v, ¬marker x)
    (hf' : ∀ v, ∀ x ∈ f' v, ¬marker x) (hg : ∀ m, marker (g m)) (hg' : ∀ m, marker (g' m)) :
    expand f g s = expand f' g' s ↔
      (∀ r ∈ allStretches s, r.flatMap f = r.flatMap f') ∧
        ∀ m, Sum.inr m ∈ s → g m = g' m := by
  -- the elements in front are those of a stretch that has already begun
  have general : ∀ a a' : List α, (∀ x ∈ a, ¬marker x) → (∀ x ∈ a', ¬marker x) →
      (a ++ expand f g s = a' ++ expand f' g' s ↔
        a ++ (stretches s).1.flatMap f = a' ++ (stretches s).1.flatMap f' ∧
          (∀ r ∈ (stretches s).2, r.flatMap f = r.flatMap f') ∧
            ∀ m, Sum.inr m ∈ s → g m = g' m) := by
    induction s with
    | nil => simp [expand,stretches]
    | cons i s ih =>
      intro a a' ha ha'
      cases i with
      | inl v =>
        have one := ih (a ++ f v) (a' ++ f' v)
          (fun x hx => (List.mem_append.mp hx).elim (ha x) (hf v x))
          (fun x hx => (List.mem_append.mp hx).elim (ha' x) (hf' v x))
        simp only [List.append_assoc] at one
        simpa [expand,stretches] using one
      | inr m =>
        have rest := ih [] [] (by simp) (by simp)
        simp only [List.nil_append] at rest
        simp only [expand,stretches,List.flatMap_nil,List.append_nil,List.mem_cons,
          forall_eq_or_imp]
        constructor
        · intro h
          obtain ⟨rfl,hm,h⟩ := append_left_cancel_of_marker ha ha' (hg m) (hg' m) h
          obtain ⟨first,later,markers⟩ := rest.mp h
          refine ⟨rfl,⟨first,later⟩,?_⟩
          rintro n (hn | hn)
          · cases hn
            exact hm
          · exact markers n hn
        · rintro ⟨rfl,⟨first,later⟩,markers⟩
          rw [markers m (Or.inl rfl),rest.mpr ⟨first,later,fun n hn => markers n (Or.inr hn)⟩]
  have whole := general [] [] (by simp) (by simp)
  simp only [List.nil_append] at whole
  rw [whole,allStretches,List.forall_mem_cons,and_assoc]

end Stretches

/-- The weights of the lists cancel in every stretch. -/
def Balanced (s : List (β ⊕ σ)) (w : β → ℤ) : Prop := ∀ r ∈ allStretches s, (r.map w).sum = 0

section Counting
variable {f f' : β → List α} {s : List (β ⊕ σ)}

/-- In equal concatenations the differences in the occurrences of an element cancel. -/
lemma balanced_count [DecidableEq α] (h : ∀ r ∈ allStretches s, r.flatMap f = r.flatMap f')
    (x : α) : Balanced s fun v => ((f v).count x : ℤ)-(f' v).count x := by
  have total (k : β → List α) (r : List β) :
      (r.map fun v => ((k v).count x : ℤ)).sum = (r.flatMap k).count x := by
    induction r with
    | nil => rfl
    | cons v r ih => simp [ih]
  have split (r : List β) : (r.map fun v => ((f v).count x : ℤ)-(f' v).count x).sum =
      (r.map fun v => ((f v).count x : ℤ)).sum-(r.map fun v => ((f' v).count x : ℤ)).sum := by
    induction r with
    | nil => rfl
    | cons v r ih =>
      simp only [List.map_cons,List.sum_cons,ih]
      omega
  intro r hr
  rw [split,total,total,h r hr,sub_self]

/-- Cancelling weights are realised by lists of a single element. -/
lemma flatMap_replicate_eq {w : β → ℤ} {r : List β} (h : (r.map w).sum = 0) (x : α) :
    (r.flatMap fun v => List.replicate (w v).toNat x) =
      r.flatMap fun v => List.replicate (-w v).toNat x := by
  have total (k : β → ℕ) (r : List β) : (r.flatMap fun v => List.replicate (k v) x) =
      List.replicate (r.map k).sum x := by
    induction r with
    | nil => rfl
    | cons v r ih => rw [List.flatMap_cons,ih,List.map_cons,List.sum_cons,List.replicate_add]
  have parts (r : List β) : (((r.map fun v => (w v).toNat).sum : ℕ) : ℤ)-
      ((r.map fun v => (-w v).toNat).sum : ℕ) = (r.map w).sum := by
    induction r with
    | nil => rfl
    | cons v r ih =>
      simp only [List.map_cons,List.sum_cons,Int.natCast_add]
      omega
  have same := parts r
  rw [h] at same
  rw [total,total]
  congr 1
  omega

/-- No weights but zero cancel in every stretch and belong to lists that can hold the same
element. -/
def Determined (can : β → α → Prop) (s : List (β ⊕ σ)) : Prop :=
  ∀ (w : β → ℤ) (x : α), Balanced s w → (∀ v, w v ≠ 0 → can v x) → ∀ v, Sum.inl v ∈ s → w v = 0

/-- Then the stretches determine each list up to its order. -/
theorem Determined.perm [DecidableEq α] {can : β → α → Prop} (h : Determined can s)
    (hf : ∀ v, ∀ x ∈ f v, can v x) (hf' : ∀ v, ∀ x ∈ f' v, can v x)
    (heq : ∀ r ∈ allStretches s, r.flatMap f = r.flatMap f') {v : β} (hv : Sum.inl v ∈ s) :
    (f v).Perm (f' v) := by
  rw [List.perm_iff_count]
  intro x
  have zero := h _ x (balanced_count heq x) (by
    intro u hu
    by_contra never
    have none : (f u).count x = 0 := List.count_eq_zero.mpr fun hx => never (hf u x hx)
    have none' : (f' u).count x = 0 := List.count_eq_zero.mpr fun hx => never (hf' u x hx)
    exact hu (by rw [none,none']; rfl)) v hv
  omega

end Counting

end Concatenation
