import Mathlib.Data.List.Basic

/-! Runs of a machine whose steps are given by a function, with a condition that every step has to
meet in the state it starts from. -/
namespace Runs
variable {σ α : Type*} (step : σ → α → σ)

/-- The state after a list of operations. -/
abbrev after (s : σ) (ops : List α) : σ := ops.foldl step s

/-- Every operation is run in a state that allows it. -/
def Meets (allowed : σ → α → Prop) : σ → List α → Prop
  | _, [] => True
  | s, op :: ops => allowed s op ∧ Meets allowed (step s op) ops

variable {step} {allowed : σ → α → Prop} {s : σ} {ops pre post : List α} {op : α}

lemma Meets.of_append (h : Meets step allowed s (pre ++ op :: post)) :
    Meets step allowed s pre ∧ allowed (after step s pre) op := by
  induction pre generalizing s with
  | nil => exact ⟨trivial,h.1⟩
  | cons a pre ih =>
    obtain ⟨hpre,hop⟩ := ih h.2
    exact ⟨⟨h.1,hpre⟩,hop⟩

/-- What holds at first and is kept by every allowed step holds after the run. -/
theorem Meets.invariant {I : σ → Prop} (keeps : ∀ s op, I s → allowed s op → I (step s op))
    (h : Meets step allowed s ops) (hs : I s) : I (after step s ops) := by
  induction ops generalizing s with
  | nil => exact hs
  | cons a ops ih => exact ih h.2 (keeps s a hs h.1)

/-- The rule for what holds of every step of a run. -/
theorem Meets.always {I : σ → Prop} {Q : σ → α → Prop}
    (keeps : ∀ s op, I s → allowed s op → I (step s op))
    (sound : ∀ s op, I s → allowed s op → Q s op)
    (h : Meets step allowed s ops) (hs : I s) (he : ops = pre ++ op :: post) :
    Q (after step s pre) op := by
  subst he
  obtain ⟨hpre,hop⟩ := h.of_append
  exact sound _ op (hpre.invariant keeps hs) hop

end Runs
