import Mathlib.Data.List.Basic
import Mathlib.Tactic.Common

/-! Pre- and postconditions for straight-line code in which every instruction has an obligation
to the state it is executed in. -/

/-- How instructions act on states, and what they are obliged to. -/
structure Straightline (ι σ : Type*) where
  Step : ι → σ → σ → Prop
  Obligation : ι → σ → Prop

namespace Straightline
variable {ι σ : Type*} (c : Straightline ι σ)

inductive Runs : List ι → σ → σ → Prop
  | nil (s : σ) : Runs [] s s
  | cons {i : ι} {l : List ι} {s s' s'' : σ} (step : c.Step i s s') (rest : Runs l s' s'') :
      Runs (i :: l) s s''

/-- Started in `P`, the code meets all obligations that it comes to and can only end in `Q`. -/
def Triple (P : σ → Prop) (l : List ι) (Q : σ → Prop) : Prop :=
  ∀ s, P s → (∀ a i b, l = a ++ i :: b → ∀ s', c.Runs a s s' → c.Obligation i s') ∧
    ∀ s', c.Runs l s s' → Q s'

variable {c}

namespace Triple
variable {P P' Q Q' R : σ → Prop} {l l' : List ι} {i : ι}

theorem nil (h : ∀ s, P s → Q s) : c.Triple P [] Q := by
  intro s hs
  refine ⟨by simp,fun s' run => ?_⟩
  cases run
  exact h s hs

theorem weaken (h : c.Triple P l Q) (hQ : ∀ s, Q s → R s) : c.Triple P l R :=
  fun s hs => ⟨(h s hs).1,fun s' run => hQ s' ((h s hs).2 s' run)⟩

/-- One instruction and then the rest. -/
theorem cons (obligation : ∀ s, P s → c.Obligation i s)
    (step : ∀ s s', P s → c.Step i s s' → Q s') (rest : c.Triple Q l R) :
    c.Triple P (i :: l) R := by
  intro s hs
  refine ⟨fun a j b hl s' run => ?_,fun s' run => ?_⟩
  · cases run with
    | nil =>
      obtain ⟨rfl,rfl⟩ := List.cons.inj hl
      exact obligation s hs
    | cons first run =>
      obtain ⟨rfl,rfl⟩ := List.cons.inj hl
      exact (rest _ (step s _ hs first)).1 _ j b rfl s' run
  · cases run with
    | cons first run => exact (rest _ (step s _ hs first)).2 s' run

theorem append (h : c.Triple P l Q) (h' : c.Triple Q l' R) : c.Triple P (l ++ l') R := by
  induction l generalizing P with
  | nil =>
    intro s hs
    exact h' s ((h s hs).2 s (.nil s))
  | cons i l ih =>
    refine cons (Q := fun s' => ∃ s, P s ∧ c.Step i s s')
      (fun s hs => (h s hs).1 [] i l rfl s (.nil s)) (fun s s' hs step => ⟨s,hs,step⟩) (ih ?_)
    rintro s' ⟨s,hs,step⟩
    refine ⟨fun a j b hl t run => ?_,fun t run => (h s hs).2 t (.cons step run)⟩
    exact (h s hs).1 (i :: a) j b (by simp [hl]) t (.cons step run)

/-- Pieces that all keep an invariant. -/
theorem flatMap {α : Type*} {f : α → List ι} {as : List α}
    (h : ∀ a ∈ as, c.Triple P (f a) P) : c.Triple P (as.flatMap f) P := by
  induction as with
  | nil => exact nil fun _ => id
  | cons a as ih =>
    rw [List.flatMap_cons]
    exact (h a (by simp)).append (ih fun b hb => h b (by simp [hb]))

end Triple

end Straightline
