import Mathlib.Data.List.Basic
import Mathlib.Data.List.Perm.Basic
import Mathlib.Data.List.Nodup

/-! Lists that are distributed over buckets by a key and then read bucket by bucket. -/
namespace ProteanAmulet
variable {α β : Type*}

/-- The elements with the keys below `n`, by key. -/
def buckets (key : α → ℕ) (n : ℕ) (l : List α) : List α :=
  (List.range n).flatMap fun i => l.filter (key · = i)

namespace Buckets
variable {key : α → ℕ} {n : ℕ} {l : List α}

lemma succ (key : α → ℕ) (n : ℕ) (l : List α) :
    buckets key (n+1) l = buckets key n l ++ l.filter (key · = n) := by
  rw [buckets,buckets,List.range_succ,List.flatMap_append,List.flatMap_singleton]

lemma mem {x : α} : x ∈ buckets key n l ↔ x ∈ l ∧ key x<n := by
  simp only [buckets,List.mem_flatMap,List.mem_range,List.mem_filter,decide_eq_true_eq]
  constructor
  · rintro ⟨i,hi,hx,rfl⟩
    exact ⟨hx,hi⟩
  · rintro ⟨hx,hk⟩
    exact ⟨key x,hk,hx,rfl⟩

lemma filter (p : α → Bool) : (buckets key n l).filter p = buckets key n (l.filter p) := by
  rw [buckets,List.filter_flatMap]
  refine List.flatMap_congr fun i _ => ?_
  exact List.filter_comm ..

/-- Nothing is lost. -/
lemma perm (hk : ∀ x ∈ l, key x<n) : (buckets key n l).Perm l := by
  have below (n : ℕ) : (buckets key n l).Perm (l.filter (key · < n)) := by
    induction n with
    | zero =>
      rw [List.filter_eq_nil_iff.mpr (by simp)]
      exact .nil
    | succ n ih =>
      have parts := List.filter_append_perm (key · < n) (l.filter (key · < n+1))
      rw [List.filter_filter,List.filter_filter] at parts
      have low : (l.filter fun x => decide (key x<n) && decide (key x<n+1)) = l.filter (key · < n) := by
        refine List.filter_congr fun x _ => ?_
        rw [Bool.eq_iff_iff]
        simp only [Bool.and_eq_true,decide_eq_true_eq]
        omega
      have last : (l.filter fun x => !decide (key x<n) && decide (key x<n+1)) =
          l.filter (key · = n) := by
        refine List.filter_congr fun x _ => ?_
        rw [Bool.eq_iff_iff]
        simp only [Bool.and_eq_true,Bool.not_eq_true',decide_eq_false_iff_not,decide_eq_true_eq]
        omega
      rw [low,last] at parts
      rw [succ]
      exact (ih.append_right _).trans parts
  have all : l.filter (key · < n) = l := List.filter_eq_self.mpr fun x hx => decide_eq_true (hk x hx)
  have whole := below n
  rwa [all] at whole

/-- Buckets are read in the order of the keys. -/
lemma pairwise (key : α → ℕ) (n : ℕ) (l : List α) :
    (buckets key n l).Pairwise fun x y => key x ≤ key y := by
  induction n with
  | zero => exact .nil
  | succ n ih =>
    rw [succ]
    refine List.pairwise_append.mpr ⟨ih,?_,?_⟩
    · refine List.pairwise_of_forall_mem_list fun x hx y hy => ?_
      simp only [List.mem_filter,decide_eq_true_eq] at hx hy
      omega
    · intro x hx y hy
      have low := (mem.mp hx).2
      simp only [List.mem_filter,decide_eq_true_eq] at hy
      omega

lemma split (hl : l.Pairwise fun x y => key x ≤ key y) (hk : ∀ x ∈ l, key x<n+1) :
    l = l.filter (key · < n) ++ l.filter (key · = n) := by
  induction l with
  | nil => rfl
  | cons x l ih =>
    obtain ⟨first,rest⟩ := List.pairwise_cons.mp hl
    have keys := hk x List.mem_cons_self
    by_cases low : key x<n
    · rw [List.filter_cons_of_pos (by simpa using low),List.filter_cons_of_neg (by simp; omega),
        List.cons_append,← ih rest fun y hy => hk y (List.mem_cons_of_mem x hy)]
    · have last (y : α) (hy : y ∈ x :: l) : key y = n := by
        have high := hk y hy
        rcases List.mem_cons.mp hy with rfl | hy
        · omega
        · have above := first y hy
          omega
      have none : (x :: l).filter (key · < n) = [] := by
        refine List.filter_eq_nil_iff.mpr fun y hy => ?_
        rw [decide_eq_true_iff,last y hy]
        exact Nat.lt_irrefl n
      have all : (x :: l).filter (key · = n) = x :: l :=
        List.filter_eq_self.mpr fun y hy => decide_eq_true (last y hy)
      rw [none,all,List.nil_append]

/-- A list that is in the order of its keys is not changed. -/
theorem eq_self_iff (hk : ∀ x ∈ l, key x<n) :
    buckets key n l = l ↔ l.Pairwise fun x y => key x ≤ key y := by
  constructor
  · intro h
    have ordered := pairwise key n l
    rwa [h] at ordered
  · intro hl
    induction n generalizing l with
    | zero =>
      have empty : l = [] := List.eq_nil_iff_forall_not_mem.mpr fun x hx =>
        absurd (hk x hx) (Nat.not_lt_zero _)
      rw [empty]
      rfl
    | succ n ih =>
      have low : buckets key n (l.filter (key · < n)) = l.filter (key · < n) :=
        ih (fun x hx => by simpa using (List.mem_filter.mp hx).2) (hl.filter _)
      have same : buckets key n l = buckets key n (l.filter (key · < n)) := by
        refine List.flatMap_congr fun i hi => ?_
        rw [List.filter_filter]
        refine List.filter_congr fun x _ => ?_
        have bound := List.mem_range.mp hi
        rw [Bool.eq_iff_iff]
        simp only [Bool.and_eq_true,decide_eq_true_eq]
        omega
      rw [succ,same,low]
      exact (split hl hk).symm

/-- Lists with elements of one list that are told apart by their images. -/
lemma eq_of_map_eq {f : α → β} {a b : List α} (hf : ∀ x ∈ l, ∀ y ∈ l, f x = f y → x = y)
    (ha : a ⊆ l) (hb : b ⊆ l) (h : a.map f = b.map f) : a = b := by
  induction a generalizing b with
  | nil => exact (List.map_eq_nil_iff.mp h.symm).symm
  | cons x a ih =>
    cases b with
    | nil => cases h
    | cons y b =>
      obtain ⟨head,tail⟩ := List.cons.inj h
      rw [hf x (ha List.mem_cons_self) y (hb List.mem_cons_self) head,
        ih (List.subset_of_cons_subset ha) (List.subset_of_cons_subset hb) tail]

end Buckets

end ProteanAmulet
