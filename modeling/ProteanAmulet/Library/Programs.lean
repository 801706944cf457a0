import Mathlib.Tactic.Common

/-! Programs with a state and exceptions. There are rules for what a program preserves, also when it
ends with an exception, and for refinement: a program over one kind of state gives the results of a
program over another one, up to the first exception. -/

/-- A computation that returns a value or raises an exception. The state changes either way. -/
def Program (σ ε α : Type) := σ → Except ε α × σ

namespace Program
variable {σ τ ε α β : Type}

def raise (e : ε) : Program σ ε α := fun s => (.error e,s)

def andThen (p : Program σ ε α) (f : α → Program σ ε β) : Program σ ε β := fun s =>
  match p s with
  | (.ok a,s') => f a s'
  | (.error e,s') => (.error e,s')

instance instMonad : Monad (Program σ ε) where
  pure a := fun s => (.ok a,s)
  bind := andThen

/-- The program for every element of a list, in order. -/
def forEach (f : α → Program σ ε β) : List α → Program σ ε (List β)
  | [] => pure []
  | a :: as => do
    let b ← f a
    let bs ← forEach f as
    pure (b :: bs)

section Runs
variable {p : Program σ ε α} {f : α → Program σ ε β} {s s' : σ} {a : α} {e : ε}

lemma bind_ok (h : p s = (.ok a,s')) : (p >>= f) s = f a s' := by
  change andThen p f s = _
  rw [andThen,h]

lemma bind_error (h : p s = (.error e,s')) : (p >>= f) s = (.error e,s') := by
  change andThen p f s = _
  rw [andThen,h]

/-- A sequence returns if both parts do. -/
lemma bind_eq_ok {b : β} {s'' : σ} : (p >>= f) s = (.ok b,s'') ↔
    ∃ a s', p s = (.ok a,s') ∧ f a s' = (.ok b,s'') := by
  cases h : p s with
  | mk r s₁ =>
    cases r with
    | ok a =>
      rw [bind_ok h]
      constructor
      · intro hf
        exact ⟨a,s₁,rfl,hf⟩
      · rintro ⟨a',s₁',heq,hf⟩
        cases heq
        exact hf
    | error e =>
      rw [bind_error h]
      constructor
      · intro hf
        cases hf
      · rintro ⟨a',s₁',heq,-⟩
        cases heq

/-- Sequences give the same result if their parts do. -/
lemma bind_fst {q : Program τ ε α} {g : α → Program τ ε β} {t : τ} (first : (p s).1 = (q t).1)
    (later : ∀ a, (p s).1 = .ok a → (f a (p s).2).1 = (g a (q t).2).1) :
    ((p >>= f) s).1 = ((q >>= g) t).1 := by
  cases hp : p s with
  | mk r s₁ =>
    cases hq : q t with
    | mk r' t₁ =>
      rw [hp,hq] at first later
      cases first
      cases r with
      | ok a =>
        rw [bind_ok hp,bind_ok hq]
        exact later a rfl
      | error e => rw [bind_error hp,bind_error hq]

end Runs

/-- The program keeps an invariant, also where it raises an exception. -/
def Preserves (I : σ → Prop) (p : Program σ ε α) : Prop := ∀ s, I s → I (p s).2

namespace Preserves
variable {I : σ → Prop} {p q : Program σ ε α}

theorem pure (a : α) : Preserves I (pure a : Program σ ε α) := fun _ h => h

theorem raise (e : ε) : Preserves I (raise e : Program σ ε α) := fun _ h => h

theorem bind {f : α → Program σ ε β} (h : Preserves I p) (hf : ∀ a, Preserves I (f a)) :
    Preserves I (p >>= f) := by
  intro s hs
  have hp := h s hs
  cases he : p s with
  | mk r s₁ =>
    rw [he] at hp
    cases r with
    | ok a =>
      rw [bind_ok he]
      exact hf a s₁ hp
    | error e =>
      rw [bind_error he]
      exact hp

theorem ite {c : Prop} [Decidable c] (h : Preserves I p) (h' : Preserves I q) :
    Preserves I (if c then p else q) := by
  split
  · exact h
  · exact h'

theorem forEach {f : α → Program σ ε β} (h : ∀ a, Preserves I (f a)) (as : List α) :
    Preserves I (Program.forEach f as) := by
  induction as with
  | nil => exact pure []
  | cons a as ih => exact (h a).bind fun b => ih.bind fun bs => pure (b :: bs)

end Preserves

/-- From related states the programs give the same result, and after a value the states are
related again. -/
def Refines (R : σ → τ → Prop) (p : Program σ ε α) (q : Program τ ε α) : Prop :=
  ∀ s t, R s t → (p s).1 = (q t).1 ∧ ∀ a, (p s).1 = .ok a → R (p s).2 (q t).2

namespace Refines
variable {R : σ → τ → Prop} {p : Program σ ε α} {q : Program τ ε α}

theorem pure (a : α) : Refines R (pure a : Program σ ε α) (pure a : Program τ ε α) :=
  fun _ _ h => ⟨rfl,fun _ _ => h⟩

theorem raise (e : ε) : Refines R (raise e : Program σ ε α) (raise e : Program τ ε α) :=
  fun _ _ _ => ⟨rfl,nofun⟩

/-- A sequence whose first part is known to agree from two states. -/
theorem bind_at {f : α → Program σ ε β} {g : α → Program τ ε β} {s : σ} {t : τ}
    (h : (p s).1 = (q t).1 ∧ ∀ a, (p s).1 = .ok a → R (p s).2 (q t).2)
    (hf : ∀ a, Refines R (f a) (g a)) :
    ((p >>= f) s).1 = ((q >>= g) t).1 ∧
      ∀ b, ((p >>= f) s).1 = .ok b → R ((p >>= f) s).2 ((q >>= g) t).2 := by
  obtain ⟨hres,hrel⟩ := h
  cases hp : p s with
  | mk r s₁ =>
    cases hq : q t with
    | mk r' t₁ =>
      rw [hp,hq] at hres hrel
      cases hres
      cases r with
      | ok a =>
        rw [bind_ok hp,bind_ok hq]
        exact hf a s₁ t₁ (hrel a rfl)
      | error e =>
        rw [bind_error hp,bind_error hq]
        exact ⟨rfl,nofun⟩

theorem bind {f : α → Program σ ε β} {g : α → Program τ ε β} (h : Refines R p q)
    (hf : ∀ a, Refines R (f a) (g a)) : Refines R (p >>= f) (q >>= g) :=
  fun s t hR => bind_at (h s t hR) hf

theorem ite {c : Prop} [Decidable c] {p' : Program σ ε α} {q' : Program τ ε α}
    (h : c → Refines R p q) (h' : ¬c → Refines R p' q') :
    Refines R (if c then p else p') (if c then q else q') := by
  split
  · exact h ‹_›
  · exact h' ‹_›

theorem forEach {f : α → Program σ ε β} {g : α → Program τ ε β} {as : List α}
    (h : ∀ a ∈ as, Refines R (f a) (g a)) : Refines R (forEach f as) (Program.forEach g as) := by
  induction as with
  | nil => exact pure []
  | cons a as ih =>
    rw [List.forall_mem_cons] at h
    exact h.1.bind fun b => (ih h.2).bind fun bs => pure (b :: bs)

end Refines

section Lists
variable {f : α → Program σ ε β} {s s' : σ}

/-- A list that is gone through returns one result for each element, and the results of the first
ones do not depend on the later ones. -/
lemma forEach_append {as as' : List α} {bs : List β}
    (h : forEach f (as ++ as') s = (.ok bs,s')) :
    ∃ s₁, forEach f as s = (.ok (bs.take as.length),s₁) ∧
      forEach f as' s₁ = (.ok (bs.drop as.length),s') := by
  induction as generalizing s bs with
  | nil => exact ⟨s,rfl,h⟩
  | cons a as ih =>
    obtain ⟨b,s₁,ha,h⟩ := bind_eq_ok.mp h
    obtain ⟨bs',s₂,hrest,h⟩ := bind_eq_ok.mp h
    cases h
    obtain ⟨s₃,hfirst,hlater⟩ := ih hrest
    refine ⟨s₃,?_,hlater⟩
    rw [forEach,bind_ok ha,bind_ok hfirst]
    rfl

lemma forEach_length {as : List α} {bs : List β} (h : forEach f as s = (.ok bs,s')) :
    bs.length = as.length := by
  induction as generalizing s bs with
  | nil =>
    cases h
    rfl
  | cons a as ih =>
    obtain ⟨b,s₁,ha,h⟩ := bind_eq_ok.mp h
    obtain ⟨bs',s₂,hrest,h⟩ := bind_eq_ok.mp h
    cases h
    rw [List.length_cons,List.length_cons,ih hrest]

/-- The result of a list is made of those of its first element and of the others. -/
lemma forEach_cons_fst {γ : Type} {g : γ → Program τ ε β} {a : α} {c : γ} {as : List α} {cs : List γ}
    {t : τ} (first : (f a s).1 = (g c t).1)
    (later : ∀ b, (f a s).1 = .ok b → (forEach f as (f a s).2).1 = (forEach g cs (g c t).2).1) :
    (forEach f (a :: as) s).1 = (forEach g (c :: cs) t).1 :=
  bind_fst first fun b hb => bind_fst (later b hb) fun _ _ => rfl

/-- If every element is worked on without an exception, then the list is. -/
lemma forEach_ok {I : σ → Prop} (hf : ∀ a s, I s → ∃ b s', f a s = (.ok b,s') ∧ I s') (as : List α)
    {s : σ} (hs : I s) : ∃ bs s', forEach f as s = (.ok bs,s') ∧ I s' := by
  induction as generalizing s with
  | nil => exact ⟨[],s,rfl,hs⟩
  | cons a as ih =>
    obtain ⟨b,s₁,ha,h₁⟩ := hf a s hs
    obtain ⟨bs,s₂,hrest,h₂⟩ := ih h₁
    refine ⟨b :: bs,s₂,?_,h₂⟩
    rw [forEach,bind_ok ha,bind_ok hrest]
    rfl

/-- Programs for lists with a common beginning have results with a common beginning. -/
lemma forEach_take {as as' : List α} {bs bs' : List β} {s₁ s₂ : σ} {n : ℕ}
    (h : forEach f as s = (.ok bs,s₁)) (h' : forEach f as' s = (.ok bs',s₂))
    (heq : as.take n = as'.take n) : bs.take n = bs'.take n := by
  have first : ∀ {as : List α} {bs : List β} {s₁ : σ}, forEach f as s = (.ok bs,s₁) →
      ∃ s₂, forEach f (as.take n) s = (.ok (bs.take n),s₂) := by
    intro as bs s₁ h
    have hlen := forEach_length h
    rw [← List.take_append_drop n as] at h
    obtain ⟨s₂,h₂,-⟩ := forEach_append h
    have short : bs.take (as.take n).length = bs.take n := by
      rw [List.length_take,← hlen,List.take_eq_take_iff]
      omega
    refine ⟨s₂,?_⟩
    rw [h₂,short]
  obtain ⟨t,ht⟩ := first h
  obtain ⟨t',ht'⟩ := first h'
  rw [heq,ht'] at ht
  exact (Except.ok.inj (congrArg Prod.fst ht)).symm

end Lists

end Program
