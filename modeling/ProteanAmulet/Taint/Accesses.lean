import ProteanAmulet.Taint.Step

/-! The accesses of one instruction, tracked in the first run and followed by the second. -/
namespace ProteanAmulet
open Dependency (All)

/-- The flows of an instruction after a list of accesses. -/
def Flows.trackAll (sandboxBase : ℕ) (fl : Flows) (as : List Access) : Flows :=
  as.foldl (Flows.track sandboxBase) fl

namespace Flows
variable {base : ℕ} {fl : Flows} {as : List Access}

lemma trackAll_grows : fl.Grows (trackAll base fl as) := by
  induction as generalizing fl with
  | nil => exact Grows.refl fl
  | cons a as ih => exact (Grows.track base fl a).trans ih

lemma track_load {a : Access} (hw : a.isWrite=false) :
    ∀ b ∈ blocks base a.address a.size, b ∈ (fl.track base a).srcMems := by
  intro b hb
  unfold track
  rw [hw]
  exact List.mem_append_right _ hb

lemma trackAll_load {a : Access} (ha : a ∈ as) (hw : a.isWrite=false) :
    ∀ b ∈ blocks base a.address a.size, b ∈ (trackAll base fl as).srcMems := by
  induction as generalizing fl with
  | nil => cases ha
  | cons a' as ih =>
    rcases List.mem_cons.mp ha with rfl | ha
    · have h : (fl.track base a).Grows (trackAll base (fl.track base a) as) := trackAll_grows
      exact fun b hb => h.srcMems b (track_load hw b hb)
    · exact ih ha

lemma trackAll_store {a : Access} (ha : a ∈ as) (hw : a.isWrite=true) :
    ∀ b ∈ blocks base a.address a.size, b ∈ (trackAll base fl as).destMems := by
  induction as generalizing fl with
  | nil => cases ha
  | cons a' as ih =>
    rcases List.mem_cons.mp ha with rfl | ha
    · intro b hb
      have h : (fl.track base a).Grows (trackAll base (fl.track base a) as) := trackAll_grows
      refine h.destMems b ?_
      unfold track
      rw [hw]
      exact List.mem_append_right _ hb
    · exact ih ha

end Flows

/-- Every load in the list is the last access of it. -/
def LoadsLast : List Access → Prop
  | [] => True
  | a :: as => (a.isWrite=false → as=[]) ∧ LoadsLast as

/-- The loads of the instruction in flight are injected with zeros. -/
def Injecting (su : Setup) (s : State) : Prop :=
  su.clause=.null ∧ s.checkpoints.length<s.nesting ∧
    s.instructionAddress ≠ s.latestRollbackAddress

lemma Injecting.traced (su : Setup) {s s' : State} (h : Traced s s') :
    Injecting su s' ↔ Injecting su s := by
  obtain ⟨_,_,rfl⟩ := h
  exact Iff.rfl

section Tracked
variable {su : Setup} {s s' : State} {t : TaintTracker} {i : Instruction} {insn : Insn}
  {a : Access}

/-- The tracker with one more access noted. -/
def TaintTracker.noted (su : Setup) (insn : Insn) (i : Instruction) (inSpeculation : Bool)
    (t : TaintTracker) (a : Access) : TaintTracker :=
  { t with
    flows := t.flows.track t.sandboxBase a
    pendingTaint := t.pendingTaint ++ (su.tracer.accessExposes inSpeculation insn a).flatMap
      (Expose.labels i (t.flows.track t.sandboxBase a)) }

/-- The tracker after the memory hook. A load that is injected with zeros settles it. -/
theorem traceMemAccess_tracker {value : ℤ} (ht : s.taintTracker = some t)
    (hi : t.instruction = some i) (h : traceMemAccess su s insn a value = some s') :
    s'.taintTracker = some (t.noted su insn i s.inSpeculation a) ∧
        (Injecting su s' ↔ Injecting su s) ∨
      a.isWrite=false ∧ Injecting su s ∧
        s'.taintTracker = some (t.noted su insn i s.inSpeculation a).checkpoint := by
  rw [traceMemAccess_eq] at h
  obtain ⟨s₁,h₁,h⟩ := Option.bind_eq_some_iff.mp h
  obtain ⟨l,hl⟩ := logged_eq su s a
  rw [hl] at h₁
  have ht₁ := seqTraceMemAccess_tracker (t := t) (by exact ht) hi h₁
  have hinj := Injecting.traced su (seqTraceMemAccess_traced h₁)
  cases hw : a.isWrite with
  | true =>
    rw [speculateMemAccess_store su _ insn value hw] at h
    cases h
    exact Or.inl (by split <;> exact ⟨ht₁,hinj⟩)
  | false =>
    rw [speculateMemAccess_load su _ insn value hw] at h
    cases h
    split
    · rename_i hc
      refine Or.inr ⟨rfl,hinj.mp ⟨hc.1,hc.2.1,hc.2.2.2⟩,?_⟩
      change s₁.taintTracker.map TaintTracker.checkpoint = _
      rw [ht₁]
      rfl
    · exact Or.inl ⟨ht₁,hinj⟩

/-- The labels that are pending, or that one of the accesses makes pending. -/
def Raised (su : Setup) (insn : Insn) (t : TaintTracker) (as : List Access) (p : Label) : Prop :=
  p ∈ t.pendingTaint ∨
  (∃ ℓ ∈ t.flows.memAddressRegs, p = .reg ℓ ∧ ∃ a ∈ as, ∀ b,
    .addr a.address ∈ su.tracer.accessExposes b insn a) ∨
  ∃ a ∈ as, a.isWrite=false ∧
    (∀ b, .mem a.address a.size ∈ su.tracer.accessExposes b insn a) ∧
      ∃ x ∈ blocks t.sandboxBase a.address a.size, p = .mem x

/-- The first access makes its labels pending; the others are left to the rest of the list. -/
lemma Raised.noted {as : List Access} {p : Label} (b : Bool)
    (h : Raised su insn t (a :: as) p) : Raised su insn (t.noted su insn i b a) as p := by
  rcases h with hp | ⟨ℓ,hℓ,rfl,a',ha',hex⟩ | ⟨a',ha',hw,hex,x,hx,rfl⟩
  · exact Or.inl (List.mem_append_left _ hp)
  · have hℓ' : ℓ ∈ (t.flows.track t.sandboxBase a).memAddressRegs := by
      rw [(Flows.Grows.track t.sandboxBase t.flows a).memAddressRegs]
      exact hℓ
    rcases List.mem_cons.mp ha' with rfl | ha'
    · refine Or.inl (List.mem_append_right _ (List.mem_flatMap.mpr ⟨_,hex b,?_⟩))
      exact List.mem_map_of_mem hℓ'
    · exact Or.inr (Or.inl ⟨ℓ,hℓ',rfl,a',ha',hex⟩)
  · rcases List.mem_cons.mp ha' with rfl | ha'
    · refine Or.inl (List.mem_append_right _ (List.mem_flatMap.mpr ⟨_,hex b,?_⟩))
      exact List.mem_map_of_mem (Flows.track_load hw x hx)
    · exact Or.inr (Or.inr ⟨a',ha',hw,hex,x,hx,rfl⟩)

/-- What is raised on the way is reached with the dependencies of the end. -/
theorem runAccesses_reach {c : Cpu} {as : List Access} {seen seen' : List (List Byte)}
    (ht : s.taintTracker = some t) (hi : t.instruction = some i)
    (hlast : Injecting su s → LoadsLast as)
    (h : runAccesses su insn c as seen s = some (seen',s')) {p : Label}
    (hp : Raised su insn t as p) :
    ((Flows.trackAll t.sandboxBase t.flows as).propagate t.deps).ofLabel p ⊆ s'.reach := by
  induction as generalizing seen s t with
  | nil =>
    cases h
    obtain hp | ⟨_,_,_,_,ha,_⟩ | ⟨_,ha,_⟩ := hp
    · simp only [State.reach,ht]
      exact TaintTracker.ofLabel_subset_reach (by rw [hi]; rfl) hp
    · cases ha
    · cases ha
  | cons a as ih =>
    -- The value of a store and the memory it changes do not matter to the tracker.
    have key : ∀ {value : ℤ} {s₁ s₂ : State} {seen₁ : List (List Byte)},
        traceMemAccess su s insn a value = some s₁ → s₂.taintTracker = s₁.taintTracker →
        (Injecting su s₂ ↔ Injecting su s₁) →
        runAccesses su insn c as seen₁ s₂ = some (seen',s') →
        ((Flows.trackAll t.sandboxBase t.flows (a :: as)).propagate t.deps).ofLabel p ⊆
          s'.reach := by
      intro value s₁ s₂ seen₁ h₁ h₂ hinj₂ hrun
      have hr := hp.noted (i := i) s.inSpeculation
      rcases traceMemAccess_tracker ht hi h₁ with ⟨ht₁,hinj⟩ | ⟨hw,hinj,ht₁⟩
      · exact ih (t := t.noted su insn i s.inSpeculation a) (h₂.trans ht₁) hi
          (fun hs => (hlast (hinj.mp (hinj₂.mp hs))).2) hrun hr
      · obtain rfl := (hlast hinj).1 hw
        cases hrun
        obtain hp | ⟨_,_,_,_,ha,_⟩ | ⟨_,ha,_⟩ := hr
        · simp only [State.reach,h₂,ht₁,Option.elim_some,TaintTracker.reach_checkpoint]
          exact TaintTracker.ofLabel_subset_reach (t := t.noted su insn i s.inSpeculation a)
            (by change t.instruction.isSome = true; rw [hi]; rfl) hp
        · cases ha
        · cases ha
    unfold runAccesses at h
    split at h <;> obtain ⟨s₁,h₁,h⟩ := Option.bind_eq_some_iff.mp h
    · exact key h₁ (by rfl) (by exact Iff.rfl) h
    · exact key h₁ rfl Iff.rfl h

end Tracked

lemma accessExposes_noReg {k : Tracer} {b : Bool} {insn : Insn} {a : Access} {e : Expose}
    (he : e ∈ k.accessExposes b insn a) : ∀ r, e ≠ .reg r := by
  rintro r rfl
  cases k <;> simp only [Tracer.accessExposes] at he <;> revert he <;> (try split) <;> simp

/-- The runs inside an instruction of which the accesses `as` are still to be made. `D` are the
dependencies before the instruction, and `F` are its flows with all accesses noted. -/
structure Underway (su : Setup) (Tr : Label → Prop) (D : Deps) (F : Flows) (i : Instruction)
    (as : List Access) (t : TaintTracker) (s u : State) : Prop where
  tracker : s.taintTracker = some t
  inFlight : t.instruction = some i
  base : t.sandboxBase = su.sandboxBase
  deps : t.deps = D
  flows : Flows.trackAll su.sandboxBase t.flows as = F
  pair : Pair (trusted su Tr (F.propagate D)) (t.checkpoints.map (trusted su Tr)) s u
  ready : Ready su s u
  last : Injecting su s → LoadsLast as

/-- The runs after the last access: the tracker has the dependencies of the end, once it is
settled. -/
def Settled (su : Setup) (Tr : Label → Prop) (D : Deps) (F : Flows) (s u : State) : Prop :=
  ∃ t, s.taintTracker = some t ∧ t.sandboxBase = su.sandboxBase ∧
    t.settle.deps = F.propagate D ∧
    Pair (trusted su Tr (F.propagate D)) (t.settle.checkpoints.map (trusted su Tr)) s u

section Locked
variable {su : Setup} {Tr : Label → Prop} {D : Deps} {F : Flows} {i : Instruction}
  {also : Gpr → Prop} {insn : Insn} {c c' : Cpu} {a : Access} {as : List Access}
  {t : TaintTracker} {s s₁ u : State}

namespace Underway

lemma settled (h : Underway su Tr D F i [] t s u) : Settled su Tr D F s u := by
  obtain rfl : t.flows = F := h.flows
  refine ⟨t,h.tracker,h.base,?_,?_⟩
  · simp only [TaintTracker.settle,h.inFlight,TaintTracker.finalizeInstruction,h.deps]
  · rw [TaintTracker.settle_checkpoints]
    exact h.pair

lemma flows_noted (h : Underway su Tr D F i (a :: as) t s u) (b : Bool) :
    Flows.trackAll su.sandboxBase (t.noted su insn i b a).flows as = F := by
  rw [← h.flows,← h.base]
  rfl

lemma shown (h : Underway su Tr D F i (a :: as) t s u)
    (hshown : ∀ b address size, .mem address size ∈ su.tracer.accessExposes b insn a →
      ∀ x, address ≤ x → x<address+size → (trusted su Tr (F.propagate D)).mem x) :
    ∀ e ∈ su.tracer.accessExposes s.inSpeculation insn a, Shown s u e := by
  intro e he
  cases e with
  | pc address => trivial
  | addr address => trivial
  | reg r => exact absurd rfl (accessExposes_noReg he r)
  | mem address size => exact h.pair.mems.read (hshown _ _ _ he)

/-- A byte of a store that is still trusted was computed from trusted sources. -/
lemma sources_of_store (h : Underway su Tr D F i (a :: as) t s u) (hw : a.isWrite=true)
    (hsize : 8*su.conf.dataSize<2^64)
    (hin : ∀ x, a.address ≤ x → x<a.address+a.size → InData su x) {x : ℕ}
    (hx : (trusted su Tr (F.propagate D)).mem x) (h₁ : a.address ≤ x) (h₂ : x<a.address+a.size) :
    All Tr (F.srcLabels D) := by
  have hb := blockOf_mem_blocks hsize hin h₁ h₂
  refine srcLabels_of_destMem ?_ hx.2
  rw [← h.flows]
  exact Flows.trackAll_store List.mem_cons_self hw _ hb

/-- Trusted sources include the bytes of a load. -/
lemma trusted_of_load (h : Underway su Tr D F i (a :: as) t s u) (hw : a.isWrite=false)
    (hsize : 8*su.conf.dataSize<2^64)
    (hin : ∀ x, a.address ≤ x → x<a.address+a.size → InData su x)
    (hsrc : All Tr (F.srcLabels D)) {x : ℕ} (h₁ : a.address ≤ x) (h₂ : x<a.address+a.size) :
    (trusted su Tr (F.propagate D)).mem x := by
  refine ⟨hin x h₁ h₂,trusted_propagate_mem hsrc (all_srcLabels_mem hsrc ?_)⟩
  rw [← h.flows]
  exact Flows.trackAll_load List.mem_cons_self hw _ (blockOf_mem_blocks hsize hin h₁ h₂)

/-- A store: the stored values agree where the view still shows them. -/
theorem store (hk : su.tracer ≠ .prot) (h : Underway su Tr D F i (a :: as) t s u)
    (hw : a.isWrite=true)
    (hes : ∀ e ∈ su.tracer.accessExposes s.inSpeculation insn a, Shown s u e) {value value' : ℤ}
    (hval : ∀ x, (trusted su Tr (F.propagate D)).mem x → a.address ≤ x →
      x<a.address+a.size → value=value')
    (hfits : su.clause.bypasses → (toBytes value' a.size).isSome)
    (h₁ : traceMemAccess su s insn a value = some s₁) :
    ∃ u₁, traceMemAccess su u insn a value' = some u₁ ∧
      Underway su Tr D F i as (t.noted su insn i s.inSpeculation a)
        { s₁ with mem := Memory.write s₁.mem a.address (leBytes value a.size) }
        { u₁ with mem := Memory.write u₁.mem a.address (leBytes value' a.size) } := by
  obtain ⟨-,u₁,-,hu₁,-,-,-,hready,hp⟩ := Pair.store hk h.pair (View.le_refl _) h.ready hw hes hval
    (fun hb _ => hfits hb) h₁
  obtain ⟨ht₁,hinj⟩ : s₁.taintTracker = some (t.noted su insn i s.inSpeculation a) ∧
      (Injecting su s₁ ↔ Injecting su s) := by
    rcases traceMemAccess_tracker h.tracker h.inFlight h₁ with h | ⟨hl,-⟩
    · exact h
    · exact absurd hl (by simp [hw])
  exact ⟨u₁,hu₁,ht₁,h.inFlight,h.base,h.deps,h.flows_noted _,hp,
    ⟨hready.recordable,hready.address⟩,fun hi => (h.last (hinj.mp hi)).2⟩

/-- A load: it goes on with the other accesses, or the load is injected with zeros, which settles
the tracker, and is the last access. -/
theorem load (hk : su.tracer ≠ .prot) (h : Underway su Tr D F i (a :: as) t s u)
    (hw : a.isWrite=false)
    (hes : ∀ e ∈ su.tracer.accessExposes s.inSpeculation insn a, Shown s u e)
    (hbytes : All Tr (F.srcLabels D) → ∀ x, a.address ≤ x → x<a.address+a.size →
      (trusted su Tr (F.propagate D)).mem x)
    (h₁ : traceMemAccess su s insn a 0 = some s₁) :
    ∃ u₁, traceMemAccess su u insn a 0 = some u₁ ∧
      (All Tr (F.srcLabels D) →
        Memory.read s₁.mem a.address a.size = Memory.read u₁.mem a.address a.size) ∧
      (Underway su Tr D F i as (t.noted su insn i s.inSpeculation a) s₁ u₁ ∨
        as=[] ∧ Settled su Tr D F s₁ u₁) := by
  obtain ⟨s₂,u₁,n,hs₂,hu₁,hf,hready,-,-,hmem,hn⟩ :=
    Pair.load hk h.pair (View.le_refl _) h.ready hw hes h₁
  have ht₂ : s₂.taintTracker = some (t.noted su insn i s.inSpeculation a) :=
    seqTraceMemAccess_tracker h.tracker h.inFlight hs₂
  have ht₁ := hf.tracker
  rw [ht₂,Option.map_some] at ht₁
  refine ⟨u₁,hu₁,fun hsrc => ?_,?_⟩
  · rcases hmem with ⟨hm,hm'⟩ | hm
    · rw [hm,hm']
      exact h.pair.mems.read (hbytes hsrc)
    · exact hm
  rcases hn with rfl | ⟨rfl,hcl,hinj⟩
  · have hinj : Injecting su s₁ → Injecting su s := by
      rcases traceMemAccess_tracker h.tracker h.inFlight h₁ with ⟨-,h⟩ | ⟨-,h,-⟩
      · exact h.mp
      · exact fun _ => h
    exact Or.inl ⟨ht₁,h.inFlight,h.base,h.deps,h.flows_noted _,hf.pair,hready,
      fun hi => (h.last (hinj hi)).2⟩
  · have hinj' : Injecting su s :=
      (Injecting.traced su (seqTraceMemAccess_traced hs₂)).mp ⟨hcl,hinj.1,hinj.2.2⟩
    obtain rfl := (h.last hinj').1 hw
    have hset : (t.noted su insn i s.inSpeculation a).settle.deps = F.propagate D := by
      have hi : (t.noted su insn i s.inSpeculation a).instruction = some i := h.inFlight
      have hfl : (t.noted su insn i s.inSpeculation a).flows = F := h.flows_noted _
      have hde : (t.noted su insn i s.inSpeculation a).deps = D := h.deps
      simp only [TaintTracker.settle,hi,TaintTracker.finalizeInstruction,hfl,hde]
    refine Or.inr ⟨rfl,_,ht₁,?_,(iterate_checkpoint _ 1).1.trans hset,?_⟩
    · exact (iterate_checkpoint (t.noted su insn i s.inSpeculation a) 1).2.2.1.trans h.base
    · rw [(iterate_checkpoint _ 1).2.1,hset,List.map_append,List.map_replicate]
      exact hf.pair

end Underway

/-- The accesses of an instruction in both runs. The destinations are out of the view unless
the sources are trusted, and then the loaded bytes and the stored values agree. -/
theorem runAccesses_locked (hk : su.tracer ≠ .prot) (hd : Declared i also insn)
    (hsame : All Tr (F.srcLabels D) → SameSources i also c c')
    (hsize : 8*su.conf.dataSize<2^64)
    (hfits : su.clause.bypasses → ∀ a ∈ as, a.isWrite=true →
      ∀ seen, (toBytes (insn.storeValue c' seen) a.size).isSome)
    (hin : ∀ a ∈ as, ∀ x, a.address ≤ x → x<a.address+a.size → InData su x)
    (hshown : ∀ a ∈ as, ∀ b address size,
      .mem address size ∈ su.tracer.accessExposes b insn a → ∀ x, address ≤ x →
        x<address+size → (trusted su Tr (F.propagate D)).mem x)
    {s' : State} {seen seenu seen' : List (List Byte)} (h : Underway su Tr D F i as t s u)
    (hseen : All Tr (F.srcLabels D) → seen = seenu)
    (hs : runAccesses su insn c as seen s = some (seen',s')) :
    ∃ seenu' u', runAccesses su insn c' as seenu u = some (seenu',u') ∧
      (All Tr (F.srcLabels D) → seen' = seenu') ∧ Settled su Tr D F s' u' := by
  induction as generalizing s u t seen seenu with
  | nil =>
    cases hs
    exact ⟨seenu,u,rfl,hseen,h.settled⟩
  | cons a as ih =>
    have hes := h.shown (hshown a List.mem_cons_self)
    have hin₀ := hin a List.mem_cons_self
    have hfits' := fun hb b hb' => hfits hb b (List.mem_cons_of_mem _ hb')
    have hin' := fun b hb => hin b (List.mem_cons_of_mem _ hb)
    have hshown' := fun b hb => hshown b (List.mem_cons_of_mem _ hb)
    unfold runAccesses at hs ⊢
    cases hw : a.isWrite with
    | true =>
      rw [hw,if_pos rfl] at hs
      obtain ⟨s₁,h₁,hs⟩ := Option.bind_eq_some_iff.mp hs
      have hval : ∀ x, (trusted su Tr (F.propagate D)).mem x → a.address ≤ x →
          x<a.address+a.size → insn.storeValue c seen = insn.storeValue c' seenu := by
        intro x hx h₁ h₂
        have hsrc := h.sources_of_store hw hsize hin₀ hx h₁ h₂
        rw [hseen hsrc]
        exact hd.storeValue seenu (hsame hsrc)
      obtain ⟨u₁,hu₁,h'⟩ := h.store hk hw hes hval
        (fun hb => hfits hb a List.mem_cons_self hw seenu) h₁
      simp only [if_true,Option.bind_eq_bind]
      rw [hu₁,Option.bind_some]
      exact ih hfits' hin' hshown' h' hseen hs
    | false =>
      rw [hw,if_neg (by simp)] at hs
      obtain ⟨s₁,h₁,hs⟩ := Option.bind_eq_some_iff.mp hs
      obtain ⟨u₁,hu₁,hread,h'⟩ := h.load hk hw hes
        (fun hsrc _ h₁ h₂ => h.trusted_of_load hw hsize hin₀ hsrc h₁ h₂) h₁
      have hseen₁ : All Tr (F.srcLabels D) →
          seen ++ [Memory.read s₁.mem a.address a.size] =
            seenu ++ [Memory.read u₁.mem a.address a.size] := by
        intro hsrc
        rw [hseen hsrc,hread hsrc]
      simp only [Bool.false_eq_true,if_false,Option.bind_eq_bind]
      rw [hu₁,Option.bind_some]
      rcases h' with h' | ⟨rfl,hset⟩
      · exact ih hfits' hin' hshown' h' hseen₁ hs
      · cases hs
        exact ⟨_,u₁,rfl,hseen₁,hset⟩

end Locked

end ProteanAmulet
