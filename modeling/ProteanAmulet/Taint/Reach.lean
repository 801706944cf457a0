import ProteanAmulet.Rollback

/-! The labels that the tracker will have tainted once the instruction in flight is finalised.
They only ever grow, along the hooks of an instruction and along whole runs. -/
namespace ProteanAmulet

section Propagation
variable (fl : Flows) (d : Deps)

lemma Flows.propagate_ofReg (r : RegLabel) : (fl.propagate d).ofReg r =
    if r ∈ fl.destRegs then d.ofReg r ∪ fl.srcLabels d else d.ofReg r :=
  Dependency.get_absorbAll _ _ _ _ _

lemma Flows.propagate_ofFlag (f : Flag) : (fl.propagate d).ofFlag f =
    if f ∈ fl.destFlags then d.ofFlag f ∪ fl.srcLabels d else d.ofFlag f :=
  Dependency.get_absorbAll _ _ _ _ _

lemma Flows.propagate_ofMem (a : ℕ) : (fl.propagate d).ofMem a =
    if a ∈ fl.destMems then d.ofMem a ∪ fl.srcLabels d else d.ofMem a :=
  Dependency.get_absorbAll _ _ _ _ _

lemma Flows.mem_srcLabels (ℓ : Label) : ℓ ∈ fl.srcLabels d ↔
    (∃ r ∈ fl.srcRegs, ℓ ∈ d.ofReg r) ∨ (∃ f ∈ fl.srcFlags, ℓ ∈ d.ofFlag f) ∨
      ∃ a ∈ fl.srcMems, ℓ ∈ d.ofMem a := by
  simp only [srcLabels,Finset.mem_union,Dependency.mem_gather,or_assoc]
  rfl

end Propagation

/-- The flows of an access are added to those of the instruction. -/
def Flows.track (sandboxBase : ℕ) (fl : Flows) (a : Access) : Flows :=
  if a.isWrite then { fl with destMems := fl.destMems ++ blocks sandboxBase a.address a.size }
  else { fl with srcMems := fl.srcMems ++ blocks sandboxBase a.address a.size }

/-- The flows grow in the memory blocks only. -/
structure Flows.Grows (fl fl' : Flows) : Prop where
  srcRegs : fl'.srcRegs = fl.srcRegs
  srcFlags : fl'.srcFlags = fl.srcFlags
  destRegs : fl'.destRegs = fl.destRegs
  destFlags : fl'.destFlags = fl.destFlags
  memAddressRegs : fl'.memAddressRegs = fl.memAddressRegs
  srcMems : ∀ a ∈ fl.srcMems, a ∈ fl'.srcMems
  destMems : ∀ a ∈ fl.destMems, a ∈ fl'.destMems

namespace Flows.Grows
variable {fl fl' fl'' : Flows}

lemma refl (fl : Flows) : fl.Grows fl := ⟨rfl,rfl,rfl,rfl,rfl,fun _ h => h,fun _ h => h⟩

lemma trans (h : fl.Grows fl') (h' : fl'.Grows fl'') : fl.Grows fl'' :=
  ⟨h'.1.trans h.1,h'.2.trans h.2,h'.3.trans h.3,h'.4.trans h.4,h'.5.trans h.5,
    fun a ha => h'.6 a (h.6 a ha),fun a ha => h'.7 a (h.7 a ha)⟩

lemma track (sandboxBase : ℕ) (fl : Flows) (a : Access) : fl.Grows (fl.track sandboxBase a) := by
  unfold Flows.track
  split <;> exact ⟨rfl,rfl,rfl,rfl,rfl,by simp +contextual,by simp +contextual⟩

lemma srcLabels (h : fl.Grows fl') (d : Deps) : fl.srcLabels d ⊆ fl'.srcLabels d := by
  intro ℓ hℓ
  rw [Flows.mem_srcLabels] at hℓ ⊢
  rw [h.srcRegs,h.srcFlags]
  rcases hℓ with hℓ | hℓ | ⟨a,ha,hℓ⟩
  · exact Or.inl hℓ
  · exact Or.inr (Or.inl hℓ)
  · exact Or.inr (Or.inr ⟨a,h.srcMems a ha,hℓ⟩)

/-- The propagated dependencies grow with the flows. -/
lemma propagate (h : fl.Grows fl') (d : Deps) (p : Label) :
    (fl.propagate d).ofLabel p ⊆ (fl'.propagate d).ofLabel p := by
  have hsrc := h.srcLabels d
  cases p with
  | flag f => exact Finset.Subset.refl _
  | reg r =>
    simp only [Deps.ofLabel,Flows.propagate_ofReg,h.destRegs]
    split
    · exact Finset.union_subset_union_right hsrc
    · exact Finset.Subset.refl _
  | mem a =>
    simp only [Deps.ofLabel,Flows.propagate_ofMem]
    by_cases ha : a ∈ fl.destMems
    · rw [if_pos ha,if_pos (h.destMems a ha)]
      exact Finset.union_subset_union_right hsrc
    · rw [if_neg ha]
      split
      · exact Finset.subset_union_left
      · exact Finset.Subset.refl _

end Flows.Grows

namespace TaintTracker
variable (t : TaintTracker)

/-- What is tainted when the instruction in flight is finalised as it stands. -/
def reach : Finset Label := t.settle.taintedLabels

lemma mem_foldl_ofLabel (d : Deps) (ps : List Label) (s : Finset Label) (ℓ : Label) :
    ℓ ∈ ps.foldl (fun s p => s ∪ d.ofLabel p) s ↔ ℓ ∈ s ∨ ∃ p ∈ ps, ℓ ∈ d.ofLabel p := by
  induction ps generalizing s with
  | nil => simp
  | cons p ps ih =>
    rw [List.foldl_cons,ih]
    simp only [Finset.mem_union,List.mem_cons,or_assoc]
    constructor
    · rintro (h | h | ⟨q,hq,h⟩)
      · exact Or.inl h
      · exact Or.inr ⟨p,Or.inl rfl,h⟩
      · exact Or.inr ⟨q,Or.inr hq,h⟩
    · rintro (h | ⟨q,rfl | hq,h⟩)
      · exact Or.inl h
      · exact Or.inr (Or.inl h)
      · exact Or.inr (Or.inr ⟨q,hq,h⟩)

lemma mem_reach (ℓ : Label) : ℓ ∈ t.reach ↔ ℓ ∈ t.taintedLabels ∨
    t.instruction.isSome ∧ ∃ p ∈ t.pendingTaint, ℓ ∈ (t.flows.propagate t.deps).ofLabel p := by
  unfold reach settle
  cases hi : t.instruction with
  | none => simp
  | some i =>
    simp only [finalizeInstruction,Option.isSome_some,true_and]
    exact mem_foldl_ofLabel _ _ _ _

@[simp] lemma settle_instruction : t.settle.instruction = none := by
  unfold settle
  split
  · rfl
  · assumption

@[simp] lemma settle_settle : t.settle.settle = t.settle := by
  have h := t.settle_instruction
  unfold settle at h ⊢
  split
  · rename_i heq
    exact absurd (h.symm.trans heq) (by simp)
  · rfl

@[simp] lemma settle_checkpoints : t.settle.checkpoints = t.checkpoints := by
  unfold settle
  split <;> rfl

@[simp] lemma settle_sandboxBase : t.settle.sandboxBase = t.sandboxBase := by
  unfold settle
  split <;> rfl

variable {t} {t' : TaintTracker}

lemma startInstruction_eq {i : Instruction} (h : t.startInstruction i = some t') :
    ∃ fl, Flows.ofInstruction i = some fl ∧
      t' = { t.settle with instruction := some i, flows := fl, pendingTaint := [] } := by
  obtain ⟨fl,hfl,h⟩ := Option.bind_eq_some_iff.mp h
  cases h
  exact ⟨fl,hfl,rfl⟩

lemma reach_startInstruction {i : Instruction} (h : t.startInstruction i = some t') :
    t.reach ⊆ t'.reach := by
  obtain ⟨fl,-,rfl⟩ := startInstruction_eq h
  intro ℓ hℓ
  rw [mem_reach]
  exact Or.inl hℓ

lemma trackMemoryAccess_eq (t : TaintTracker) (a : Access) :
    t.trackMemoryAccess a.address a.size a.isWrite =
      { t with flows := t.flows.track t.sandboxBase a } := by
  unfold trackMemoryAccess Flows.track
  split <;> rfl

/-- More flows and more pending labels reach more. -/
lemma reach_mono {fl : Flows} {ps : List Label} (hfl : t.flows.Grows fl)
    (hps : ∀ p ∈ t.pendingTaint, p ∈ ps) :
    t.reach ⊆ TaintTracker.reach { t with flows := fl, pendingTaint := ps } := by
  intro ℓ hℓ
  rw [mem_reach] at hℓ ⊢
  rcases hℓ with hℓ | ⟨hi,p,hp,hℓ⟩
  · exact Or.inl hℓ
  · exact Or.inr ⟨hi,p,hps p hp,hfl.propagate _ _ hℓ⟩

lemma reach_pending (ps : List Label) :
    t.reach ⊆ TaintTracker.reach { t with pendingTaint := t.pendingTaint ++ ps } :=
  reach_mono (Flows.Grows.refl _) (by simp +contextual)

/-- A pending label brings what it depends on. -/
lemma ofLabel_subset_reach {p : Label} (hi : t.instruction.isSome) (hp : p ∈ t.pendingTaint) :
    (t.flows.propagate t.deps).ofLabel p ⊆ t.reach := by
  intro ℓ hℓ
  rw [mem_reach]
  exact Or.inr ⟨hi,p,hp,hℓ⟩

lemma checkpoint_settle (t : TaintTracker) : t.checkpoint.settle = t.checkpoint := by
  have h : t.checkpoint.instruction = none := t.settle_instruction
  unfold settle
  rw [h]

lemma reach_checkpoint (t : TaintTracker) : t.checkpoint.reach = t.reach := by
  unfold reach
  rw [checkpoint_settle]
  rfl

lemma rollback_eq (h : t.rollback = some t') : ∃ d ds, t.checkpoints = d :: ds ∧
    t' = { t.settle with deps := d, checkpoints := ds } ∧ t'.settle = t' := by
  unfold rollback at h
  split at h
  · cases h
  · rename_i d ds hc
    cases h
    refine ⟨d,ds,hc,rfl,?_⟩
    have h : ({ t.settle with deps := d, checkpoints := ds } : TaintTracker).instruction = none :=
      t.settle_instruction
    unfold settle at h ⊢
    rw [h]

lemma reach_rollback (h : t.rollback = some t') : t.reach ⊆ t'.reach := by
  obtain ⟨d,ds,-,rfl,hs⟩ := rollback_eq h
  unfold reach
  rw [hs]

end TaintTracker

/-- What the tracker of the state reaches. -/
def State.reach (s : State) : Finset Label := s.taintTracker.elim ∅ TaintTracker.reach

section Runs
variable {su : Setup} {s s' : State}

lemma reach_track {f : TaintTracker → Option TaintTracker}
    (hf : ∀ t t', f t = some t' → t.reach ⊆ t'.reach) (h : s.track f = some s') :
    s.reach ⊆ s'.reach := by
  obtain ⟨tt,rfl,⟨hs,rfl⟩ | ⟨t,t',hs,ht,rfl⟩⟩ := track_cases h
  · simp only [State.reach,hs]
    exact Finset.Subset.refl _
  · simp only [State.reach,hs]
    exact hf t t' ht

lemma reach_congr (h : s'.taintTracker = s.taintTracker) : s.reach ⊆ s'.reach := by
  unfold State.reach
  rw [h]

lemma reach_map_checkpoint (h : s'.taintTracker = s.taintTracker.map .checkpoint) :
    s.reach ⊆ s'.reach := by
  unfold State.reach
  rw [h]
  cases s.taintTracker with
  | none => exact Finset.Subset.refl _
  | some t =>
    simp only [Option.map_some,Option.elim_some,TaintTracker.reach_checkpoint]
    exact Finset.Subset.refl _

theorem reach_expose {k : Tracer} {e : Expose} (h : s.expose k e = some s') :
    s.reach ⊆ s'.reach := by
  cases e with
  | pc address =>
    refine Finset.Subset.trans ?_ (reach_track ?_ h)
    · exact reach_congr rfl
    · rintro t t' ht
      cases ht
      unfold TaintTracker.taintPc
      split
      · split
        · exact TaintTracker.reach_pending _
        · exact Finset.Subset.refl _
      · exact Finset.Subset.refl _
  | addr address =>
    refine Finset.Subset.trans ?_ (reach_track ?_ h)
    · exact reach_congr rfl
    · rintro t t' ht
      cases ht
      exact TaintTracker.reach_pending _
  | reg r =>
    refine Finset.Subset.trans ?_ (reach_track ?_ h)
    · exact reach_congr rfl
    · rintro t t' ht
      obtain ⟨o,-,rfl⟩ := Option.map_eq_some_iff.mp ht
      cases o with
      | none => exact Finset.Subset.refl _
      | some ℓ => exact TaintTracker.reach_pending _
  | mem address size =>
    refine Finset.Subset.trans ?_ (reach_track ?_ h)
    · exact reach_congr rfl
    · rintro t t' ht
      cases ht
      exact TaintTracker.reach_pending _

theorem reach_exposeAll {k : Tracer} {es : List Expose} (h : s.exposeAll k es = some s') :
    s.reach ⊆ s'.reach := by
  induction es generalizing s with
  | nil =>
    cases h
    exact Finset.Subset.refl _
  | cons e es ih =>
    obtain ⟨s₁,h₁,h₂⟩ := Option.bind_eq_some_iff.mp h
    exact (reach_expose h₁).trans (ih h₂)

theorem reach_observeInstruction {address : ℕ} {insn : Insn}
    (h : observeInstruction su s address insn = some s') : s.reach ⊆ s'.reach := by
  obtain ⟨tr,-,h⟩ := Option.bind_eq_some_iff.mp h
  obtain ⟨s₁,h₁,h⟩ := Option.bind_eq_some_iff.mp h
  have h₀ := reach_exposeAll h₁
  dsimp only at h
  split at h <;> cases h <;> exact h₀.trans (reach_congr rfl)

theorem reach_observeMemAccess {insn : Insn} {a : Access} {value : ℤ}
    (h : observeMemAccess su s insn a value = some s') : s.reach ⊆ s'.reach := by
  obtain ⟨s₁,h₁,h⟩ := Option.bind_eq_some_iff.mp h
  have h₀ := reach_exposeAll h₁
  split at h
  · split at h
    · cases h
      exact h₀
    · obtain ⟨tr,-,h⟩ := Option.bind_eq_some_iff.mp h
      cases h
      exact h₀.trans (reach_congr rfl)
  · cases h

theorem reach_seqTraceInstruction {i : Instruction} {address : ℕ} {insn : Insn}
    (h : seqTraceInstruction su s i address insn = some s') : s.reach ⊆ s'.reach := by
  obtain ⟨s₁,h₁,h₂⟩ := Option.bind_eq_some_iff.mp h
  exact (reach_track (fun _ _ => TaintTracker.reach_startInstruction) h₁).trans
    (reach_observeInstruction h₂)

theorem reach_seqTraceMemAccess {insn : Insn} {a : Access} {value : ℤ}
    (h : seqTraceMemAccess su s insn a value = some s') : s.reach ⊆ s'.reach := by
  obtain ⟨s₁,h₁,h₂⟩ := Option.bind_eq_some_iff.mp h
  refine (reach_track (fun t t' ht => ?_) h₁).trans (reach_observeMemAccess h₂)
  cases ht
  rw [TaintTracker.trackMemoryAccess_eq]
  exact TaintTracker.reach_mono (Flows.Grows.track _ _ a) fun _ h => h

lemma reach_cond {address : ℕ} {insn : Insn}
    (h : X86UnicornCond.speculateInstruction s address insn = some s') : s.reach ⊆ s'.reach := by
  rw [X86UnicornCond.speculateInstruction_eq] at h
  split at h
  · cases h
    exact Finset.Subset.refl _
  · obtain ⟨⟨target,willJump,isLoop⟩,-,rfl⟩ := Option.map_eq_some_iff.mp h
    split
    · exact Finset.Subset.refl _
    · cases isLoop <;> exact reach_map_checkpoint rfl

lemma reach_bpas {address : ℕ} (h : X86UnicornBpas.speculateInstruction s address = some s') :
    s.reach ⊆ s'.reach := by
  rw [X86UnicornBpas.speculateInstruction_eq] at h
  split at h
  · cases h
    exact Finset.Subset.refl _
  · split at h
    · cases h
      exact reach_congr rfl
    · obtain ⟨bs,-,rfl⟩ := Option.map_eq_some_iff.mp h
      exact reach_map_checkpoint rfl

theorem reach_speculateInstruction {address : ℕ} {insn : Insn}
    (h : speculateInstruction su s address insn = some s') : s.reach ⊆ s'.reach := by
  unfold speculateInstruction at h
  cases hcl : su.clause <;> rw [hcl] at h
  case seq | null =>
    cases h
    exact reach_congr rfl
  case cond => exact reach_cond h
  case bpas => exact reach_bpas h
  case condBpas =>
    obtain ⟨s₁,h₁,h⟩ := Option.bind_eq_some_iff.mp h
    exact (reach_cond h₁).trans (reach_bpas h)

theorem reach_instructionHook {address : ℕ} {insn : Insn}
    (h : instructionHook su s address insn = some s') : s.reach ⊆ s'.reach := by
  rw [instructionHook_eq] at h
  obtain ⟨i,-,h⟩ := Option.bind_eq_some_iff.mp h
  obtain ⟨s₁,h₁,h⟩ := Option.bind_eq_some_iff.mp h
  obtain ⟨w,b,hc⟩ := counted_eq su s i
  rw [hc] at h₁
  exact Finset.Subset.trans (reach_congr rfl)
    ((reach_seqTraceInstruction h₁).trans (reach_speculateInstruction h))

theorem reach_traceMemAccess {insn : Insn} {a : Access} {value : ℤ}
    (h : traceMemAccess su s insn a value = some s') : s.reach ⊆ s'.reach := by
  rw [traceMemAccess_eq] at h
  obtain ⟨s₁,h₁,h⟩ := Option.bind_eq_some_iff.mp h
  obtain ⟨l,hl⟩ := logged_eq su s a
  rw [hl] at h₁
  refine Finset.Subset.trans (reach_congr rfl) ((reach_seqTraceMemAccess h₁).trans ?_)
  cases hw : a.isWrite with
  | true =>
    rw [speculateMemAccess_store su _ insn value hw] at h
    cases h
    split <;> exact reach_congr rfl
  | false =>
    rw [speculateMemAccess_load su _ insn value hw] at h
    cases h
    split
    · exact reach_map_checkpoint rfl
    · exact Finset.Subset.refl _

theorem reach_runAccesses {insn : Insn} {c : Cpu} {as : List Access}
    {seen seen' : List (List Byte)} (h : runAccesses su insn c as seen s = some (seen',s')) :
    s.reach ⊆ s'.reach := by
  induction as generalizing seen s with
  | nil =>
    cases h
    exact Finset.Subset.refl _
  | cons a as ih =>
    unfold runAccesses at h
    split at h <;> obtain ⟨s₁,h₁,h⟩ := Option.bind_eq_some_iff.mp h
    · have h' := ih h
      exact (reach_traceMemAccess h₁).trans h'
    · exact (reach_traceMemAccess h₁).trans (ih h)

theorem reach_execute {insn : Insn} {address : ℕ} {o : Outcome}
    (h : execute su insn address s = some o) : s.reach ⊆ o.state.reach := by
  unfold execute at h
  split at h
  · cases h
    exact reach_congr rfl
  · split at h
    · cases h
      exact Finset.Subset.refl _
    · obtain ⟨⟨seen,s₁⟩,h₁,h⟩ := Option.bind_eq_some_iff.mp h
      dsimp only at h
      split at h <;> cases h <;> exact (reach_runAccesses h₁).trans (reach_congr rfl)

theorem reach_emuStep {o : Outcome} (h : emuStep su s = some o) : s.reach ⊆ o.state.reach := by
  unfold emuStep at h
  split at h
  · cases h
    exact Finset.Subset.refl _
  · split at h
    · cases h
      exact Finset.Subset.refl _
    · obtain ⟨s₁,h₁,h⟩ := Option.bind_eq_some_iff.mp h
      exact (reach_instructionHook h₁).trans (reach_execute h)

theorem reach_tick {c c' : Config} (h : tick su c = some c') :
    c.state.reach ⊆ c'.state.reach := by
  obtain ⟨phase,s⟩ := c
  cases phase with
  | emulating first =>
    obtain ⟨o,ho,rfl⟩ := Option.map_eq_some_iff.mp h
    have h' := reach_emuStep ho
    cases o <;> exact h'
  | draining =>
    unfold tick at h
    dsimp only at h
    split at h
    · obtain ⟨s',hs',rfl⟩ := Option.map_eq_some_iff.mp h
      obtain ⟨s₁,h₁,rfl⟩ := Option.map_eq_some_iff.mp hs'
      obtain ⟨_,_,_,_,tt,-,-,rfl,⟨hs,rfl⟩ | ⟨t,t',hs,ht,rfl⟩⟩ := restore_cases h₁
      · simp [State.reach,hs]
      · simp only [State.reach,hs]
        exact TaintTracker.reach_rollback ht
    · cases h
      exact Finset.Subset.refl _
  | finished =>
    cases h
    exact Finset.Subset.refl _
  | exited =>
    cases h
    exact Finset.Subset.refl _

/-- Whatever is tainted on the way is tainted at the end. -/
theorem reach_run {fuel : ℕ} {c : Config} (h : run su fuel c = some s) :
    c.state.reach ⊆ s.reach := by
  induction fuel generalizing c with
  | zero => cases h
  | succ fuel ih =>
    unfold run at h
    split at h
    · cases h
      exact Finset.Subset.refl _
    · cases h
    · obtain ⟨c',hc',h⟩ := Option.bind_eq_some_iff.mp h
      exact (reach_tick hc').trans (ih h)

end Runs

end ProteanAmulet
