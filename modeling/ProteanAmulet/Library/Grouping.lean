import Mathlib.Data.List.Sort
import Mathlib.Tactic.Basic

/-! Insertion-ordered grouping, as done by a loop over a dictionary of lists. -/
namespace Grouping
variable {κ α : Type*} [DecidableEq κ]

/-- Append `v` to the bucket of `k`; a missing bucket is opened at the end. -/
def push (k : κ) (v : α) : List (κ × List α) → List (κ × List α)
  | [] => [(k, [v])]
  | (k', vs) :: rest => if k' = k then (k', vs ++ [v]) :: rest else (k', vs) :: push k v rest

/-- One pass over `xs`, each element going to the bucket of its key. -/
def group (key : α → κ) (xs : List α) : List (κ × List α) :=
  xs.foldl (fun d x => push (key x) x d) []

lemma mem_keys_push (k : κ) (v : α) (d : List (κ × List α)) (k' : κ) :
    k' ∈ (push k v d).map Prod.fst ↔ k' = k ∨ k' ∈ d.map Prod.fst := by
  induction d with
  | nil => simp [push]
  | cons e d ih =>
    obtain ⟨l, vs⟩ := e
    by_cases h : l = k
    · subst h; simp [push]
    · simp only [push, h, if_false, List.map_cons, List.mem_cons, ih]
      tauto

lemma nodup_push (k : κ) (v : α) (d : List (κ × List α)) (hd : (d.map Prod.fst).Nodup) :
    ((push k v d).map Prod.fst).Nodup := by
  induction d with
  | nil => simp [push]
  | cons e d ih =>
    obtain ⟨l, vs⟩ := e
    rw [List.map_cons, List.nodup_cons] at hd
    by_cases h : l = k
    · simpa [push, h] using hd
    · rw [push, if_neg h, List.map_cons, List.nodup_cons, mem_keys_push]
      refine ⟨?_, ih hd.2⟩
      rintro (hl | hl)
      · exact h hl
      · exact hd.1 hl

/-- With distinct keys, a push changes the bucket of its key and no other. -/
lemma mem_push (k : κ) (v : α) (d : List (κ × List α)) (hd : (d.map Prod.fst).Nodup)
    (l : κ) (vs : List α) :
    (l, vs) ∈ push k v d ↔ (l ≠ k ∧ (l, vs) ∈ d) ∨
      (l = k ∧ ((∃ us, (k, us) ∈ d ∧ vs = us ++ [v]) ∨ (k ∉ d.map Prod.fst ∧ vs = [v]))) := by
  induction d with
  | nil => simp [push]
  | cons e d ih =>
    obtain ⟨m, us⟩ := e
    rw [List.map_cons, List.nodup_cons] at hd
    by_cases h : m = k
    · subst h
      have hk : ∀ us', (m, us') ∉ d := fun us' hu => hd.1 (List.mem_map.mpr ⟨_, hu, rfl⟩)
      rw [push, if_pos rfl, List.map_cons]
      simp only [List.mem_cons, Prod.mk.injEq]
      constructor
      · rintro (⟨rfl, rfl⟩ | hl)
        · exact Or.inr ⟨rfl, Or.inl ⟨us, Or.inl ⟨trivial, rfl⟩, rfl⟩⟩
        · refine Or.inl ⟨?_, Or.inr hl⟩
          rintro rfl
          exact hk _ hl
      · rintro (⟨hne, (⟨rfl, rfl⟩ | hl)⟩ | ⟨rfl, (⟨us', (⟨-, rfl⟩ | hu), rfl⟩ | ⟨hn, -⟩)⟩)
        · exact absurd rfl hne
        · exact Or.inr hl
        · exact Or.inl ⟨rfl, rfl⟩
        · exact absurd hu (hk _)
        · exact absurd (Or.inl trivial) hn
    · simp only [push, h, if_false, List.mem_cons, Prod.mk.injEq, ih hd.2, List.map_cons,
        not_or]
      constructor
      · rintro (⟨rfl, rfl⟩ | ⟨hne, hl⟩ | ⟨rfl, (⟨us', hu, rfl⟩ | ⟨hn, rfl⟩)⟩)
        · exact Or.inl ⟨h, Or.inl ⟨rfl, rfl⟩⟩
        · exact Or.inl ⟨hne, Or.inr hl⟩
        · exact Or.inr ⟨rfl, Or.inl ⟨us', Or.inr hu, rfl⟩⟩
        · exact Or.inr ⟨rfl, Or.inr ⟨⟨fun he => h he.symm, hn⟩, rfl⟩⟩
      · rintro (⟨hne, (⟨rfl, rfl⟩ | hl)⟩ | ⟨rfl, (⟨us', (⟨he, -⟩ | hu), rfl⟩ | ⟨⟨-, hn⟩, rfl⟩)⟩)
        · exact Or.inl ⟨rfl, rfl⟩
        · exact Or.inr (Or.inl ⟨hne, hl⟩)
        · exact absurd he.symm h
        · exact Or.inr (Or.inr ⟨rfl, Or.inl ⟨us', hu, rfl⟩⟩)
        · exact Or.inr (Or.inr ⟨rfl, Or.inr ⟨hn, rfl⟩⟩)

/-- A dictionary of buckets holds exactly the nonempty fibres of `key` over `xs`. -/
def Fibres (key : α → κ) (xs : List α) (d : List (κ × List α)) : Prop :=
  (d.map Prod.fst).Nodup ∧
    ∀ k vs, (k, vs) ∈ d ↔ vs ≠ [] ∧ vs = xs.filter (fun x => key x = k)

lemma Fibres.mem_keys {key : α → κ} {xs : List α} {d : List (κ × List α)}
    (h : Fibres key xs d) (k : κ) : k ∈ d.map Prod.fst ↔ ∃ x ∈ xs, key x = k := by
  constructor
  · intro hk
    obtain ⟨⟨k', vs⟩, hm, rfl⟩ := List.mem_map.mp hk
    obtain ⟨hne, rfl⟩ := (h.2 _ _).mp hm
    obtain ⟨x, hx⟩ := List.exists_mem_of_ne_nil _ hne
    have hf := List.mem_filter.mp hx
    exact ⟨x, hf.1, by simpa using hf.2⟩
  · rintro ⟨x, hx, rfl⟩
    refine List.mem_map.mpr ⟨(key x, xs.filter (fun y => key y = key x)), ?_, rfl⟩
    refine (h.2 _ _).mpr ⟨?_, rfl⟩
    exact List.ne_nil_of_mem (List.mem_filter.mpr ⟨hx, by simp⟩)

lemma Fibres.push {key : α → κ} {xs : List α} {d : List (κ × List α)}
    (h : Fibres key xs d) (x : α) : Fibres key (xs ++ [x]) (push (key x) x d) := by
  refine ⟨nodup_push _ _ _ h.1, fun k vs => ?_⟩
  rw [mem_push _ _ _ h.1]
  simp only [List.filter_append, List.filter_cons, List.filter_nil, decide_eq_true_eq]
  by_cases hk : k = key x
  · subst hk
    simp only [ne_eq, not_true, false_and, true_and, false_or, if_true]
    constructor
    · rintro (⟨us, hu, rfl⟩ | ⟨hn, rfl⟩)
      · exact ⟨by simp, by rw [← ((h.2 _ _).mp hu).2]⟩
      · have hf : xs.filter (fun y => key y = key x) = [] := by
          refine List.filter_eq_nil_iff.mpr fun y hy hyk => hn ?_
          exact (h.mem_keys _).mpr ⟨y, hy, by simpa using hyk⟩
        simp [hf]
    · rintro ⟨-, rfl⟩
      by_cases hf : xs.filter (fun y => key y = key x) = []
      · refine Or.inr ⟨fun hm => ?_, by simp [hf]⟩
        obtain ⟨y, hy, hyk⟩ := (h.mem_keys _).mp hm
        exact List.filter_eq_nil_iff.mp hf y hy (by simpa using hyk)
      · exact Or.inl ⟨_, (h.2 _ _).mpr ⟨hf, rfl⟩, rfl⟩
  · have hk' : key x ≠ k := fun he => hk he.symm
    simp [hk, hk', h.2]

lemma fibres_foldl (key : α → κ) (xs ys : List α) (d : List (κ × List α)) (h : Fibres key xs d) :
    Fibres key (xs ++ ys) (ys.foldl (fun d x => push (key x) x d) d) := by
  induction ys generalizing xs d with
  | nil => simpa using h
  | cons y ys ih =>
    have hp := ih _ _ (h.push y)
    simpa using hp

/-- The grouping loop loses and duplicates nothing. -/
theorem fibres_group (key : α → κ) (xs : List α) : Fibres key xs (group key xs) := by
  have h0 : Fibres key ([] : List α) [] := ⟨by simp, fun k vs => by simp⟩
  exact fibres_foldl key [] xs [] h0

/-- With distinct keys every entry is found under its key. -/
lemma lookup_of_mem {κ α : Type*} [BEq κ] [LawfulBEq κ] {d : List (κ × α)} (h : (d.map Prod.fst).Nodup)
    {k : κ} {v : α} (hd : (k, v) ∈ d) : d.lookup k = some v := by
  obtain ⟨d₁, d₂, rfl⟩ := List.append_of_mem hd
  refine List.lookup_eq_some_iff.mpr ⟨d₁, d₂, rfl, ?_⟩
  intro e he
  rw [List.map_append, List.nodup_append] at h
  exact bne_iff_ne.mpr (h.2.2 _ (List.mem_map_of_mem he) _ (by simp)).symm

end Grouping
