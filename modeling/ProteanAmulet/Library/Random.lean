import Mathlib.Data.Stream.Init

/-! Computations that draw numbers from a tape and may raise an exception, with a rule for each
way to build one. A statement about every tape is a statement about every random choice. -/

abbrev Drawing (ε α : Type) := StateT (Stream' ℕ) (Except ε) α

namespace Drawing
variable {ε α β : Type}

def draw : Drawing ε ℕ := fun t => .ok (t.head,t.tail)

/-- One of the elements, or the exception `e` when there is none. -/
def choice (e : ε) (l : List α) : Drawing ε α := do
  match l[(← draw) % l.length]? with
  | some a => pure a
  | none => throw e

/-- A number from `a` to `b`, or the exception `e` when there is none. -/
def randint (e : ε) (a b : ℤ) : Drawing ε ℤ := do
  let k ← draw
  if a ≤ b then pure (a+k % (b-a+1)) else throw e

/-- On every tape, the result satisfies `P` or the exception satisfies `E`. -/
def Outcome (x : Drawing ε α) (P : α → Prop) (E : ε → Prop) : Prop :=
  ∀ t, match x t with
    | .ok (a,_) => P a
    | .error e => E e

/-- Every result satisfies `P`. -/
abbrev Ensures (x : Drawing ε α) (P : α → Prop) : Prop := Outcome x P fun _ => True

namespace Outcome
variable {P Q : α → Prop} {E F : ε → Prop}

theorem ok {x : Drawing ε α} (h : Outcome x P E) {t t' : Stream' ℕ} {a : α} (hx : x t = .ok (a,t')) :
    P a := by
  simpa [hx] using h t

theorem error {x : Drawing ε α} (h : Outcome x P E) {t : Stream' ℕ} {e : ε} (hx : x t = .error e) :
    E e := by
  simpa [hx] using h t

theorem mono {x : Drawing ε α} (h : Outcome x P E) (hP : ∀ a, P a → Q a) (hE : ∀ e, E e → F e) :
    Outcome x Q F := by
  intro t
  have := h t
  cases hx : x t with
  | ok a => exact hP _ (by simpa [hx] using this)
  | error e => exact hE _ (by simpa [hx] using this)

theorem weaken {x : Drawing ε α} (h : Outcome x P E) (hP : ∀ a, P a → Q a) : Outcome x Q E :=
  h.mono hP fun _ => id

theorem pure {a : α} (h : P a) : Outcome (Pure.pure a : Drawing ε α) P E := fun _ => h

theorem throw {e : ε} (h : E e) : Outcome (MonadExcept.throw e : Drawing ε α) P E := fun _ => h

theorem bind {x : Drawing ε α} {f : α → Drawing ε β} {Q : β → Prop} (hx : Outcome x P E)
    (hf : ∀ a, P a → Outcome (f a) Q E) : Outcome (x >>= f) Q E := by
  intro t
  have first := hx t
  simp only [Bind.bind,StateT.bind,Except.bind]
  cases hxt : x t with
  | error e => simpa [hxt] using first
  | ok r => exact hf r.1 (by simpa [hxt] using first) r.2

/-- A computation without random choices. -/
theorem lift {x : Except ε α} (hP : ∀ a, x = .ok a → P a) (hE : ∀ e, x = .error e → E e) :
    Outcome (liftM x : Drawing ε α) P E := by
  cases x with
  | ok a => exact fun _ => hP a rfl
  | error e => exact fun _ => hE e rfl

theorem map {x : Drawing ε α} {f : α → β} {Q : β → Prop} (h : Outcome x (fun a => Q (f a)) E) :
    Outcome (f <$> x) Q E := by
  rw [← bind_pure_comp]
  exact h.bind fun a ha => pure ha

theorem draw : Outcome (Drawing.draw : Drawing ε ℕ) (fun _ => True) E := fun _ => trivial

theorem choice {e : ε} (he : E e) (l : List α) : Outcome (Drawing.choice e l) (· ∈ l) E := by
  refine draw.bind fun k _ => ?_
  cases h : l[k % l.length]? with
  | none => exact throw he
  | some a => exact pure (List.mem_of_getElem? h)

/-- A choice among some elements never fails. -/
theorem choice_of_ne_nil {e : ε} {l : List α} (h : l ≠ []) :
    Outcome (Drawing.choice e l) (· ∈ l) E := by
  refine draw.bind fun k _ => ?_
  have small := Nat.mod_lt k (List.length_pos_iff.mpr h)
  rw [List.getElem?_eq_getElem small]
  exact pure (List.getElem_mem small)

/-- A number of some range is always found. -/
theorem randint_of_le {e : ε} {a b : ℤ} (h : a ≤ b) :
    Outcome (Drawing.randint e a b) (fun v => a ≤ v ∧ v ≤ b) E := by
  refine draw.bind fun k _ => ?_
  rw [if_pos h]
  have := Int.emod_nonneg k (show b-a+1 ≠ 0 by omega)
  have := Int.emod_lt_of_pos k (show 0<b-a+1 by omega)
  exact pure ⟨by omega,by omega⟩

theorem randint {e : ε} (he : E e) (a b : ℤ) :
    Outcome (Drawing.randint e a b) (fun v => a ≤ v ∧ v ≤ b) E := by
  by_cases h : a ≤ b
  · exact randint_of_le h
  · refine draw.bind fun k _ => ?_
    rw [if_neg h]
    exact throw he

/-- A list treated element by element. -/
theorem mapM {f : α → Drawing ε β} {R : α → β → Prop} {l : List α}
    (h : ∀ a ∈ l, Outcome (f a) (R a) E) : Outcome (l.mapM f) (List.Forall₂ R l) E := by
  induction l with
  | nil => exact pure .nil
  | cons a l ih =>
    rw [List.mapM_cons]
    refine (h a (by simp)).bind fun b hb => ?_
    exact (ih fun c hc => h c (by simp [hc])).bind fun bs hbs => pure (List.Forall₂.cons hb hbs)

theorem mapM_all {f : α → Drawing ε β} {Q : β → Prop} {l : List α}
    (h : ∀ a ∈ l, Outcome (f a) Q E) : Outcome (l.mapM f) (fun bs => ∀ b ∈ bs, Q b) E := by
  refine (mapM h).weaken fun bs hbs => ?_
  induction hbs with
  | nil => simp
  | cons hd _ ih => exact List.forall_mem_cons.mpr ⟨hd,ih fun a ha => h a (by simp [ha])⟩

/-- Nothing is said of the result. -/
theorem any {x : Drawing ε α} : Ensures x fun _ => True := fun t => by split <;> trivial

end Outcome

/-- No exception on any tape, and every result satisfies `P`. -/
abbrev Always (x : Drawing ε α) (P : α → Prop) : Prop := Outcome x P fun _ => False

theorem always_iff {x : Drawing ε α} {P : α → Prop} :
    Always x P ↔ ∀ t, ∃ a t', x t = .ok (a,t') ∧ P a := by
  refine forall_congr' fun t => ?_
  cases x t with
  | error e => simp
  | ok r => exact ⟨fun h => ⟨r.1,r.2,rfl,h⟩,by rintro ⟨a,t',h,ha⟩; cases h; exact ha⟩

theorem bind_eq_ok {x : Drawing ε α} {f : α → Drawing ε β} {t : Stream' ℕ} {r : β × Stream' ℕ} :
    (x >>= f) t = .ok r ↔ ∃ a t', x t = .ok (a,t') ∧ f a t' = .ok r := by
  simp only [Bind.bind,StateT.bind,Except.bind]
  cases x t with
  | error e => simp
  | ok p => exact ⟨fun h => ⟨p.1,p.2,rfl,h⟩,by rintro ⟨a,t',h,h'⟩; cases h; exact h'⟩

theorem lift_eq_ok {x : Except ε α} {t : Stream' ℕ} {r : α × Stream' ℕ} :
    (liftM x : Drawing ε α) t = .ok r ↔ x = .ok r.1 ∧ r.2 = t := by
  cases x with
  | error e =>
    constructor
    · intro h
      cases h
    · rintro ⟨h,-⟩
      cases h
  | ok a =>
    constructor
    · intro h
      cases h
      exact ⟨rfl,rfl⟩
    · rintro ⟨h,rfl⟩
      cases h
      rfl

theorem choice_eq_ok {e : ε} {l : List α} {t : Stream' ℕ} {r : α × Stream' ℕ}
    (h : choice e l t = .ok r) : l ≠ [] := by
  rintro rfl
  obtain ⟨k,t',-,h⟩ := bind_eq_ok.mp h
  cases h

theorem randint_eq_ok {e : ε} {a b : ℤ} {t : Stream' ℕ} {r : ℤ × Stream' ℕ}
    (h : randint e a b t = .ok r) : a ≤ b := by
  obtain ⟨k,t',-,h⟩ := bind_eq_ok.mp h
  by_contra hab
  rw [if_neg hab] at h
  cases h

end Drawing

namespace Except
variable {ε α β : Type}

lemma bind_eq_ok {x : Except ε α} {f : α → Except ε β} {b : β} :
    x >>= f = .ok b ↔ ∃ a, x = .ok a ∧ f a = .ok b := by
  cases x <;> simp [bind,Except.bind]

lemma exists_of_mapM {f : α → Except ε β} {l : List α} {l' : List β} (h : l.mapM f = .ok l') :
    ∀ b ∈ l', ∃ a ∈ l, f a = .ok b := by
  induction l generalizing l' with
  | nil =>
    cases h
    simp
  | cons a l ih =>
    rw [List.mapM_cons,bind_eq_ok] at h
    obtain ⟨b,hb,h⟩ := h
    obtain ⟨bs,hbs,h⟩ := bind_eq_ok.mp h
    cases h
    refine List.forall_mem_cons.mpr ⟨⟨a,by simp,hb⟩,fun c hc => ?_⟩
    obtain ⟨a',ha',h⟩ := ih hbs c hc
    exact ⟨a',by simp [ha'],h⟩

lemma image_of_mapM {f : α → Except ε β} {l : List α} {l' : List β} (h : l.mapM f = .ok l') :
    ∀ a ∈ l, ∃ b ∈ l', f a = .ok b := by
  induction l generalizing l' with
  | nil => simp
  | cons a l ih =>
    rw [List.mapM_cons,bind_eq_ok] at h
    obtain ⟨b,hb,h⟩ := h
    obtain ⟨bs,hbs,h⟩ := bind_eq_ok.mp h
    cases h
    refine List.forall_mem_cons.mpr ⟨⟨b,by simp,hb⟩,fun c hc => ?_⟩
    obtain ⟨b',hb',h⟩ := ih hbs c hc
    exact ⟨b',by simp [hb'],h⟩

end Except
