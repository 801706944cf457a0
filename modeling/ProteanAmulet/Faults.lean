import ProteanAmulet.Isolation
import ProteanAmulet.Transparency

/-! Faults outside of speculation. Only the first `emu_start` of an input is followed by
`exit(1)`; the loop that rolls back absorbs every fault, also those of the architectural rest of
the program, which runs inside the last rollback. -/
namespace ProteanAmulet

section Runs
variable (su : Setup)

/-- The process exits. -/
def Exits (c : Config) : Prop := ∃ s, Visits su c ⟨.exited,s⟩

/-- A fault outside of speculation inside `rollback`, which the loop absorbs. -/
def Absorbs (c : Config) : Prop :=
  ∃ s', c.phase=.emulating false ∧ emuStep su c.state = some (.fault s') ∧ s'.inSpeculation=false

/-- No fault outside of speculation is swallowed: where the sequential run `d` exits, the run `c`
returns no contract trace, and a fault that is raised outside of speculation always ends the
process. -/
structure Reported (c d : Config) : Prop where
  aborts : Exits su.sequential d → ∀ s, ¬Visits su c ⟨.finished,s⟩
  outside : ∀ {first : Bool} {s s' : State}, Visits su c ⟨.emulating first,s⟩ →
    emuStep su s = some (.fault s') → s'.inSpeculation=false →
      tick su ⟨.emulating first,s⟩ = some ⟨.exited,s'⟩

/-- The configurations of the speculative run and of the sequential one, as long as neither has
come to its end. -/
inductive Trails : Config → Config → Prop
  | level {first : Bool} {s u : State} : Level s u → Trails ⟨.emulating first,s⟩ ⟨.emulating true,u⟩
  | behind {first : Bool} {s u : State} : Behind s u →
      Trails ⟨.emulating first,s⟩ ⟨.emulating true,u⟩
  | drain {s u : State} : Behind s u → Trails ⟨.draining,s⟩ ⟨.emulating true,u⟩

variable {su}

lemma visits_after {c c₁ c₂ : Config} (ht : tick su c = some c₁) (h : Visits su c₁ c₂) :
    Visits su c c₂ := by
  obtain ⟨n,hn⟩ := h
  refine ⟨n+1,?_⟩
  unfold ticks
  rw [ht]
  exact hn

/-- A property that the steps keep holds in the whole run. -/
lemma visits_invariant {P : Config → Prop} {c c' : Config}
    (keeps : ∀ c₁ c₂, Visits su c c₁ → P c₁ → tick su c₁ = some c₂ → P c₂) (h : P c)
    (hv : Visits su c c') : P c' := by
  obtain ⟨n,hn⟩ := hv
  induction n generalizing c with
  | zero =>
    cases hn
    exact h
  | succ n ih =>
    obtain ⟨c₁,h₁,hn⟩ := Option.bind_eq_some_iff.mp hn
    refine ih (fun c₂ c₃ hv => keeps c₂ c₃ (visits_after h₁ hv)) ?_ hn
    exact keeps c c₁ (.refl c) h h₁

lemma Exits.tick {c c' : Config} (h : Exits su c) (ht : tick su c = some c') : Exits su c' := by
  obtain ⟨s,n,hn⟩ := h
  cases n with
  | zero =>
    cases hn
    cases ht
    exact ⟨s,.refl _⟩
  | succ n =>
    obtain ⟨c₁,h₁,hn⟩ := Option.bind_eq_some_iff.mp hn
    cases h₁.symm.trans ht
    exact ⟨s,n,hn⟩

lemma Exits.visits {c c' : Config} (h : Exits su c) (hv : Visits su c c') : Exits su c' :=
  visits_invariant (fun _ _ _ h ht => h.tick ht) h hv

/-- A sequential run that exits goes on until it does. -/
lemma Exits.step {c : Config} (h : Exits su c) (hp : c.phase ≠ .exited) :
    ∃ c', ProteanAmulet.tick su c = some c' ∧ Exits su c' := by
  obtain ⟨s,n,hn⟩ := h
  cases n with
  | zero =>
    cases hn
    exact absurd rfl hp
  | succ n =>
    obtain ⟨c₁,h₁,hn⟩ := Option.bind_eq_some_iff.mp hn
    exact ⟨c₁,h₁,s,n,hn⟩

lemma not_exits_finished (s : State) : ¬Exits su ⟨.finished,s⟩ := by
  rintro ⟨s',hv⟩
  have still : (⟨.exited,s'⟩ : Config).phase=.finished := by
    refine visits_invariant (P := fun c => c.phase=.finished) ?_ rfl hv
    rintro ⟨_,s₁⟩ c₂ - rfl ht
    cases ht
    rfl
  cases still

lemma not_exits_draining {s : State} (hs : s.inSpeculation=false) :
    ¬Exits su ⟨.draining,s⟩ := by
  intro hx
  obtain ⟨c',ht,hx⟩ := hx.step (by simp)
  unfold tick at ht
  dsimp only at ht
  rw [if_neg (by simp [hs])] at ht
  cases ht
  exact not_exits_finished s hx

/-- Where a transient path goes on. -/
lemma Behind.next {o : Outcome} {u : State} (first : Bool) (h : Behind o.state u) :
    Trails (o.next first) ⟨.emulating true,u⟩ := by
  cases o with
  | running s => exact .behind h
  | returned s => exact .drain h
  | fault s =>
    have hs : s.inSpeculation=true := h.inSpeculation
    unfold Outcome.next
    dsimp only
    rw [hs,if_neg (by simp)]
    exact .drain h

/-- What holds along a run whose sequential counterpart exits: it has exited itself, or that
counterpart is still to exit. -/
structure Awaited (su : Setup) (c d : Config) : Prop where
  trails : Trails c d
  exits : Exits su.sequential d
  running : c.state.stopRequested=false ∧ d.state.stopRequested=false
  invariant : Invariant su c

/-- One step: the sequential run makes a step, too, or it waits. -/
theorem Awaited.tick {c c' d : Config} (h : Awaited su c d) (hres : Resumes su c.state)
    (hq : ¬Absorbs su c) (hc : tick su c = some c') :
    c'.phase=.exited ∨ ∃ d', Awaited su c' d' := by
  obtain ⟨trails,hx,hstop,hinv⟩ := h
  have hinv' := tick_invariant hinv hc
  have stop' : c'.state.stopRequested=false := (tick_kept ⟨hstop.1,rfl⟩ hc).1
  cases trails with
  | @level first s u level =>
    obtain ⟨o,ho,rfl⟩ := Option.map_eq_some_iff.mp hc
    obtain ⟨d₁,hd₁,hx₁⟩ := hx.step (by simp)
    have stop₁ : d₁.state.stopRequested=false := (tick_kept ⟨hstop.2,rfl⟩ hd₁).1
    obtain ⟨p,hp,rfl⟩ := Option.map_eq_some_iff.mp hd₁
    rcases level.emuStep hres hstop ho hp with rel | behind | ⟨u',rfl,behind⟩
    · cases o with
      | running s' =>
        cases p with
        | running u' => exact Or.inr ⟨_,.level rel,hx₁,⟨stop',stop₁⟩,hinv'⟩
        | returned | fault => exact rel.elim
      | returned s' =>
        cases p with
        | returned u' => exact absurd hx₁ (not_exits_draining rel.sequential)
        | running | fault => exact rel.elim
      | fault s' =>
        cases p with
        | fault u' =>
          cases first with
          | false => exact absurd ⟨s',rfl,ho,rel.inSpeculation⟩ hq
          | true =>
            left
            simp [Outcome.next,rel.inSpeculation]
        | running | returned => exact rel.elim
    · exact Or.inr ⟨_,behind.next first,hx,⟨stop',hstop.2⟩,hinv'⟩
    · exact Or.inr ⟨_,behind.next first,hx₁,⟨stop',stop₁⟩,hinv'⟩
  | @behind first s u behind =>
    obtain ⟨o,ho,rfl⟩ := Option.map_eq_some_iff.mp hc
    have later : Behind o.state u := by
      rcases emuStep_grown ho with (rfl | rfl) | ⟨_,i,new,-,hg⟩
      · exact behind
      · exact behind
      · obtain ⟨w,b,hcount⟩ := counted_eq su s i
        rw [hcount] at hg
        have counted : Behind { s with speculationWindow := w, stopRequested := b } u :=
          ⟨behind.bottom,behind.inSpeculation,behind.sequential⟩
        exact counted.grown hg
    exact Or.inr ⟨_,later.next first,hx,⟨stop',hstop.2⟩,hinv'⟩
  | @drain s u behind =>
    unfold ProteanAmulet.tick at hc
    dsimp only at hc
    rw [if_pos behind.inSpeculation] at hc
    obtain ⟨s',hs',rfl⟩ := Option.map_eq_some_iff.mp hc
    rcases behind.rollback hinv.1.recoverable hs' with level | behind
    · exact Or.inr ⟨_,.level level,hx,⟨stop',hstop.2⟩,hinv'⟩
    · exact Or.inr ⟨_,.behind behind,hx,⟨stop',hstop.2⟩,hinv'⟩

end Runs

section Witnesses
open Asm

end Witnesses

end ProteanAmulet
