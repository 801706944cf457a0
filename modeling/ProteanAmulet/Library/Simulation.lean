import Mathlib.Logic.Relation

/-! Machines whose steps are given by a function, and simulations that make progress: they carry
outcomes over in both directions. -/
namespace Simulation
open Relation

/-- What a step gives: another state, or the outcome of the run. -/
inductive Status (σ ω : Type*) where
  | running (s : σ)
  | stopped (o : ω)

variable {σ σ' τ ω : Type*}

/-- One step from a state to another. -/
def Next (step : σ → Status σ ω) (s t : σ) : Prop := step s = .running t

/-- The run from a state has an outcome. -/
def Ends (step : σ → Status σ ω) (s : σ) (o : ω) : Prop :=
  ∃ t, ReflTransGen (Next step) s t ∧ step t = .stopped o

/-- A relation that is kept when the first machine makes a step and the second at least one. -/
structure Simulates (step : σ → Status σ ω) (step' : σ' → Status σ' ω) (R : σ → σ' → Prop) : Prop where
  running : ∀ s s' t, R s s' → step s = .running t → ∃ t', TransGen (Next step') s' t' ∧ R t t'
  stopped : ∀ s s' o, R s s' → step s = .stopped o → Ends step' s' o

section
variable {step : σ → Status σ ω} {step' : σ' → Status σ' ω} {R : σ → σ' → Prop} {s t : σ} {s' : σ'}
  {o : ω}

lemma Ends.head (h : Next step s t) (ht : Ends step t o) : Ends step s o := by
  obtain ⟨u,hu,ho⟩ := ht
  exact ⟨u,.head h hu,ho⟩

lemma Ends.after (h : ReflTransGen (Next step) s t) (ht : Ends step t o) : Ends step s o := by
  obtain ⟨u,hu,ho⟩ := ht
  exact ⟨u,h.trans hu,ho⟩

lemma Ends.stop (h : step s = .stopped o) : Ends step s o := ⟨s,.refl,h⟩

/-- Steps are the same in all runs. -/
lemma Ends.next (h : Next step s t) (hs : Ends step s o) : Ends step t o := by
  obtain ⟨u,hu,ho⟩ := hs
  rcases hu.cases_head with rfl | ⟨v,hv,hu⟩
  · rw [Next,ho] at h
    cases h
  · rw [Next,h] at hv
    cases hv
    exact ⟨u,hu,ho⟩

lemma Ends.along (h : ReflTransGen (Next step) s t) (hs : Ends step s o) : Ends step t o := by
  induction h with
  | refl => exact hs
  | tail _ hxy ih => exact ih.next hxy

/-- A run has one outcome only. -/
lemma Ends.unique {o' : ω} (h : Ends step s o) (h' : Ends step s o') : o = o' := by
  obtain ⟨t,ht,ho⟩ := h
  obtain ⟨u,hu,ho'⟩ := h'.along ht
  rcases hu.cases_head with rfl | ⟨v,hv,-⟩
  · rw [ho] at ho'
    cases ho'
    rfl
  · rw [Next,ho] at hv
    cases hv

/-- A run with an outcome is finite. -/
lemma Ends.acc (h : Ends step s o) : Acc (fun y x => Next step x y) s := by
  obtain ⟨t,ht,ho⟩ := h
  induction ht using ReflTransGen.head_induction_on with
  | refl =>
    refine ⟨t,fun y hy => ?_⟩
    rw [Next,ho] at hy
    cases hy
  | @head x y hxy _ ih =>
    refine ⟨x,fun z hz => ?_⟩
    rw [Next,hxy] at hz
    cases hz
    exact ih

lemma Next.unique {u : σ} (h : Next step s t) (h' : Next step s u) : t = u := by
  rw [Next,h] at h'
  cases h'
  rfl

lemma rightUnique_next (step : σ → Status σ ω) : Relator.RightUnique (Next step) :=
  fun _ _ _ h h' => h.unique h'

/-- A machine whose steps cannot go on forever has an outcome. -/
lemma exists_ends (h : Acc (fun y x => Next step x y) s) : ∃ o, Ends step s o := by
  induction h with
  | intro x _ ih =>
    cases hstep : step x with
    | stopped o => exact ⟨o,.stop hstep⟩
    | running y =>
      obtain ⟨o,ho⟩ := ih y hstep
      exact ⟨o,ho.head hstep⟩

/-- A state that is reached is on the way to the last one. -/
lemma reaches_end {u : σ} (ht : ReflTransGen (Next step) s t) (ho : step t = .stopped o)
    (hu : ReflTransGen (Next step) s u) : ReflTransGen (Next step) u t := by
  rcases ReflTransGen.total_of_right_unique (rightUnique_next step) hu ht with h | h
  · exact h
  · rcases h.cases_head with rfl | ⟨v,hv,-⟩
    · exact .refl
    · rw [Next,ho] at hv
      cases hv

/-- What cannot come back held before. -/
lemma sticky {P : σ → Prop} (lost : ∀ x y, Next step x y → P y → P x)
    (h : ReflTransGen (Next step) s t) (ht : P t) : P s := by
  induction h using ReflTransGen.head_induction_on with
  | refl => exact ht
  | head hxy _ ih => exact lost _ _ hxy ih

namespace Simulates

/-- Every state that is reached is related to one that the second machine reaches. -/
lemma reaches (h : Simulates step step' R) (hR : R s s') (hs : ReflTransGen (Next step) s t) :
    ∃ t', ReflTransGen (Next step') s' t' ∧ R t t' := by
  induction hs with
  | refl => exact ⟨s',.refl,hR⟩
  | @tail x y _ hxy ih =>
    obtain ⟨x',hx',hRx⟩ := ih
    obtain ⟨y',hy',hRy⟩ := h.running x x' y hRx hxy
    exact ⟨y',hx'.trans hy'.to_reflTransGen,hRy⟩

lemma forward (h : Simulates step step' R) (hR : R s s') (hs : Ends step s o) : Ends step' s' o := by
  obtain ⟨t,ht,ho⟩ := hs
  obtain ⟨t',ht',hRt⟩ := h.reaches hR ht
  exact (h.stopped t t' o hRt ho).after ht'

/-- A run that never stops is simulated by one that never stops. -/
lemma backward (h : Simulates step step' R) (hR : R s s') (hs : Ends step' s' o) : Ends step s o := by
  -- every step of the first machine makes the rest of the second run shorter
  induction hs.acc.transGen generalizing s with
  | intro x _ ih =>
    cases hstep : step s with
    | stopped o' =>
      rw [← (h.stopped s x o' hR hstep).unique hs]
      exact .stop hstep
    | running t =>
      obtain ⟨t',ht',hRt⟩ := h.running s x t hR hstep
      have ends := ih t' (transGen_swap.mpr ht') hRt (hs.along ht'.to_reflTransGen)
      exact ends.head hstep

/-- Both machines have the same outcomes. -/
theorem ends_iff (h : Simulates step step' R) (hR : R s s') : Ends step s o ↔ Ends step' s' o :=
  ⟨h.forward hR,h.backward hR⟩

/-- Simulations can be chained. -/
lemma trans {step'' : τ → Status τ ω} {S : σ' → τ → Prop} (h : Simulates step step' R)
    (h' : Simulates step' step'' S) : Simulates step step'' fun s u => ∃ s', R s s' ∧ S s' u where
  running s u t hs hstep := by
    obtain ⟨s',hR,hS⟩ := hs
    obtain ⟨t',ht',hRt⟩ := h.running s s' t hR hstep
    suffices walk : ∃ u', TransGen (Next step'') u u' ∧ S t' u' by
      obtain ⟨u',hu',hSt⟩ := walk
      exact ⟨u',hu',t',hRt,hSt⟩
    clear hR hRt hstep
    induction ht' with
    | @single y hy => exact h'.running s' u y hS hy
    | @tail y z _ hyz ih =>
      obtain ⟨v,hv,hSv⟩ := ih
      obtain ⟨w,hw,hSw⟩ := h'.running y v z hSv hyz
      exact ⟨w,hv.trans hw,hSw⟩
  stopped s u o hs hstep := by
    obtain ⟨s',hR,hS⟩ := hs
    exact h'.forward hS (h.stopped s s' o hR hstep)

/-- A state of the second machine is on the way to one that is related, or behind one whose partner has
stopped. -/
lemma covers (h : Simulates step step' R) (hR : R s s') {x : σ'}
    (hx : ReflTransGen (Next step') s' x) :
    ∃ t t', ReflTransGen (Next step) s t ∧ R t t' ∧ ReflTransGen (Next step') s' t' ∧
      (ReflTransGen (Next step') x t' ∨
        ReflTransGen (Next step') t' x ∧ ∃ o, step t = .stopped o) := by
  induction hx with
  | refl => exact ⟨s,s',.refl,hR,.refl,.inl .refl⟩
  | @tail x y hx hxy ih =>
    obtain ⟨t,t',ht,hRt,ht',before | ⟨after,o,ho⟩⟩ := ih
    · rcases before.cases_head with rfl | ⟨z,hz,hzt⟩
      · cases hstep : step t with
        | stopped o => exact ⟨t,x,ht,hRt,ht',.inr ⟨.single hxy,o,hstep⟩⟩
        | running u =>
          obtain ⟨u',hu',hRu⟩ := h.running t x u hRt hstep
          obtain ⟨z,hz,hzu⟩ := TransGen.head'_iff.mp hu'
          rw [← hxy.unique hz] at hzu
          exact ⟨u,u',ht.tail hstep,hRu,ht'.trans hu'.to_reflTransGen,.inl hzu⟩
      · rw [← hxy.unique hz] at hzt
        exact ⟨t,t',ht,hRt,ht',.inl hzt⟩
    · exact ⟨t,t',ht,hRt,ht',.inr ⟨after.tail hxy,o,ho⟩⟩

/-- A property that is lost for good holds all along the second run, if it holds wherever the runs meet
and at the end. -/
lemma always (h : Simulates step step' R) {P : σ' → Prop}
    (lost : ∀ x y, Next step' x y → P y → P x)
    (meets : ∀ t t', ReflTransGen (Next step) s t → R t t' → P t')
    (stops : ∀ t t' o, ReflTransGen (Next step) s t → R t t' → step t = .stopped o →
      ∃ u, ReflTransGen (Next step') t' u ∧ step' u = .stopped o ∧ P u)
    (hR : R s s') {x : σ'} (hx : ReflTransGen (Next step') s' x) : P x := by
  obtain ⟨t,t',ht,hRt,-,before | ⟨after,o,ho⟩⟩ := h.covers hR hx
  · exact sticky lost before (meets t t' ht hRt)
  · obtain ⟨u,hu,hstop,hP⟩ := stops t t' o ht hRt ho
    exact sticky lost (reaches_end hu hstop after) hP

end Simulates

/-- Machines that make the same steps along a run have the same outcomes. -/
lemma ends_congr {second : σ → Status σ ω}
    (same : ∀ t, ReflTransGen (Next step) s t → second t = step t) :
    Ends step s o ↔ Ends second s o := by
  have simulates : Simulates step second fun x y => y = x ∧ ReflTransGen (Next step) s x := by
    constructor
    · rintro x _ y ⟨rfl,hx⟩ hxy
      exact ⟨y,.single ((same _ hx).trans hxy),rfl,hx.tail hxy⟩
    · rintro x _ o ⟨rfl,hx⟩ ho
      exact .stop ((same _ hx).trans ho)
  exact simulates.ends_iff ⟨rfl,.refl⟩

end

end Simulation
