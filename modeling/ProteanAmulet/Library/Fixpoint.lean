import Mathlib.Order.Lattice
import Mathlib.Data.List.Pairwise
import Mathlib.Logic.Function.Basic
import Mathlib.Tactic.Basic

/-! Round-robin iteration of a system of monotone equations `x i = F i x`. One sweep visits
the unknowns of a list in order and replaces each by its right-hand side, in place. -/
namespace Fixpoint
variable {ι α : Type*} [DecidableEq ι]

/-- One in-place sweep over the unknowns of the list. -/
def sweep (F : ι → (ι → α) → α) : List ι → (ι → α) → ι → α
  | [], x => x
  | i :: l, x => sweep F l (Function.update x i (F i x))

lemma sweep_of_notMem (F : ι → (ι → α) → α) {l : List ι} (x : ι → α) {i : ι} (hi : i ∉ l) :
    sweep F l x i = x i := by
  induction l generalizing x with
  | nil => rfl
  | cons j l ih =>
    simp only [List.mem_cons,not_or] at hi
    rw [sweep,ih _ hi.2,Function.update_of_ne hi.1]

section Order
variable [PartialOrder α]

/-- A system of equations whose right-hand sides are monotone. -/
def Monotone (F : ι → (ι → α) → α) : Prop := ∀ i x y, (∀ j, x j ≤ y j) → F i x ≤ F i y

/-- The assignment lies below its own right-hand sides. -/
def Ascending (F : ι → (ι → α) → α) (x : ι → α) : Prop := ∀ i, x i ≤ F i x

variable {F : ι → (ι → α) → α}

lemma le_update {x : ι → α} (hx : Ascending F x) (i j : ι) :
    x j ≤ Function.update x i (F i x) j := by
  by_cases h : j=i
  · subst h
    rw [Function.update_self]
    exact hx j
  · rw [Function.update_of_ne h]

lemma Ascending.update (hF : Monotone F) {x : ι → α} (hx : Ascending F x) (i : ι) :
    Ascending F (Function.update x i (F i x)) := by
  intro j
  have grow : F j x ≤ F j (Function.update x i (F i x)) := hF _ _ _ (le_update hx i)
  by_cases h : j=i
  · subst h
    rw [Function.update_self]
    exact grow
  · rw [Function.update_of_ne h]
    exact (hx j).trans grow

lemma Ascending.sweep (hF : Monotone F) {x : ι → α} (hx : Ascending F x) (l : List ι) :
    Ascending F (sweep F l x) := by
  induction l generalizing x with
  | nil => exact hx
  | cons i l ih => exact ih (hx.update hF i)

lemma le_sweep (hF : Monotone F) {x : ι → α} (hx : Ascending F x) (l : List ι) (j : ι) :
    x j ≤ sweep F l x j := by
  induction l generalizing x with
  | nil => exact le_rfl
  | cons i l ih => exact (le_update hx i j).trans (ih (hx.update hF i))

/-- A sweep stays below every solution. -/
lemma sweep_le (hF : Monotone F) {l : List ι} {x y : ι → α} (hxy : ∀ j, x j ≤ y j)
    (hy : ∀ i ∈ l, F i y ≤ y i) (j : ι) : sweep F l x j ≤ y j := by
  induction l generalizing x with
  | nil => exact hxy j
  | cons i l ih =>
    refine ih ?_ fun k hk => hy k (List.mem_cons_of_mem i hk)
    intro k
    by_cases h : k=i
    · subst h
      rw [Function.update_self]
      exact (hF k x y hxy).trans (hy k List.mem_cons_self)
    · rw [Function.update_of_ne h]
      exact hxy k

/-- When a sweep changes nothing, the assignment solves the equations it visited. -/
lemma solves_of_sweep_eq (hF : Monotone F) {l : List ι} {x : ι → α} (hx : Ascending F x)
    (h : ∀ j, sweep F l x j = x j) : ∀ i ∈ l, F i x = x i := by
  induction l with
  | nil => simp
  | cons i l ih =>
    have same : Function.update x i (F i x) = x := by
      funext j
      refine le_antisymm ?_ (le_update hx i j)
      exact (le_sweep hF (hx.update hF i) l j).trans (h j).le
    intro k hk
    rw [sweep,same] at h
    rcases List.mem_cons.mp hk with rfl | hk
    · conv_rhs => rw [← same,Function.update_self]
    · exact ih h k hk

end Order

/-- When every right-hand side reads only unknowns visited earlier, one sweep solves the
equations. -/
lemma sweep_solves {F : ι → (ι → α) → α} {l : List ι}
    (hord : l.Pairwise fun i j => i ≠ j ∧ ∀ x v, F i (Function.update x j v) = F i x)
    (hself : ∀ i ∈ l, ∀ x v, F i (Function.update x i v) = F i x) (x : ι → α) :
    ∀ i ∈ l, F i (sweep F l x) = sweep F l x i := by
  have later : ∀ (i : ι) (l : List ι) (x : ι → α),
      (∀ j ∈ l, ∀ x v, F i (Function.update x j v) = F i x) → F i (sweep F l x) = F i x := by
    intro i l
    induction l with
    | nil => intro x _; rfl
    | cons j l ih =>
      intro x h
      rw [sweep,ih _ fun k hk => h k (List.mem_cons_of_mem j hk)]
      exact h j List.mem_cons_self x _
  induction l generalizing x with
  | nil => simp
  | cons i l ih =>
    have hi := List.pairwise_cons.mp hord
    intro k hk
    rcases List.mem_cons.mp hk with rfl | hk
    · have hn : k ∉ l := fun h => (hi.1 k h).1 rfl
      rw [sweep,sweep_of_notMem F _ hn,Function.update_self,
        later k l _ fun j hj => (hi.1 j hj).2]
      exact hself k List.mem_cons_self x _
    · exact ih hi.2 (fun j hj => hself j (List.mem_cons_of_mem i hj)) _ k hk

/-- A sweep over solved equations changes nothing. -/
lemma sweep_eq_self {F : ι → (ι → α) → α} {l : List ι} {x : ι → α}
    (h : ∀ i ∈ l, F i x = x i) : sweep F l x = x := by
  induction l with
  | nil => rfl
  | cons i l ih =>
    rw [sweep,h i List.mem_cons_self,Function.update_eq_self]
    exact ih fun k hk => h k (List.mem_cons_of_mem i hk)

end Fixpoint
