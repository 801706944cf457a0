import ProteanAmulet.Lockstep
import ProteanAmulet.Taint.Declared
import ProteanAmulet.Taint.Reach

/-! One step of a tracked run and of a run on another input. The inputs agree on the words of
the trusted labels, and the two runs agree on whatever depends on trusted labels only. -/
namespace ProteanAmulet
open Dependency (All)

/-- The bytes that the tracked words of an input initialise. -/
def InData (su : Setup) (x : ℕ) : Prop :=
  su.sandboxBase ≤ x ∧ x<su.sandboxBase+8*su.conf.dataSize

/-- The block that holds a byte of the sandbox. -/
def blockOf (su : Setup) (x : ℕ) : ℕ := (x-su.sandboxBase)/8*8

/-- What depends on trusted labels only. The base pointer has no label and is never written. -/
def trusted (su : Setup) (Tr : Label → Prop) (d : Deps) : View where
  reg r := r=.BP ∨ All Tr (d.ofReg r.key)
  flag f := All Tr (d.ofFlag f)
  rest := True
  mem x := InData su x ∧ All Tr (d.ofMem (blockOf su x))

lemma maskBlock_natCast {n : ℕ} (h : n<2^64) : maskBlock (n : ℤ) = n/8*8 := by
  unfold maskBlock
  have h' : ((n : ℤ) % 2^64).toNat = n := by omega
  rw [h']

/-- The tracker notes the block of every byte of an access. -/
lemma blockOf_mem_blocks {su : Setup} (hsize : 8*su.conf.dataSize<2^64) {address size : ℕ}
    (hin : ∀ x, address ≤ x → x<address+size → InData su x) {x : ℕ} (hx : address ≤ x)
    (hx' : x<address+size) : blockOf su x ∈ blocks su.sandboxBase address size := by
  have h₁ := hin address le_rfl (by omega)
  have h₂ := hin (address+size-1) (by omega) (by omega)
  unfold InData at h₁ h₂
  have e₁ : ((address : ℤ)-su.sandboxBase) = ((address-su.sandboxBase : ℕ) : ℤ) := by omega
  have e₂ : ((address : ℤ)-su.sandboxBase+(size-1)) =
      ((address+size-1-su.sandboxBase : ℕ) : ℤ) := by omega
  unfold blocks blockOf
  dsimp only
  rw [e₂,e₁,maskBlock_natCast (by omega),maskBlock_natCast (by omega)]
  refine List.mem_range'.mpr ⟨(x-su.sandboxBase)/8-(address-su.sandboxBase)/8,?_,?_⟩ <;> omega

section Views
variable {su : Setup} {Tr : Label → Prop} {fl : Flows} {d : Deps}

/-- Propagation only takes trust away. -/
lemma trusted_propagate_le : trusted su Tr (fl.propagate d) ≤ trusted su Tr d := by
  refine ⟨fun r hr => hr.imp_right fun h => h.mono ?_,fun f h => h.mono ?_,id,
    fun x hx => ⟨hx.1,hx.2.mono ?_⟩⟩
  · exact Dependency.get_subset_absorbAll _ _ _ _ _
  · exact Dependency.get_subset_absorbAll _ _ _ _ _
  · exact Dependency.get_subset_absorbAll _ _ _ _ _

lemma all_union {s t : Finset Label} (hs : All Tr s) (ht : All Tr t) : All Tr (s ∪ t) := by
  intro ℓ hℓ
  rcases Finset.mem_union.mp hℓ with h | h
  · exact hs ℓ h
  · exact ht ℓ h

lemma all_srcLabels_reg (h : All Tr (fl.srcLabels d)) {r : RegLabel} (hr : r ∈ fl.srcRegs) :
    All Tr (d.ofReg r) :=
  fun ℓ hℓ => h ℓ ((fl.mem_srcLabels d ℓ).mpr (Or.inl ⟨r,hr,hℓ⟩))

lemma all_srcLabels_flag (h : All Tr (fl.srcLabels d)) {f : Flag} (hf : f ∈ fl.srcFlags) :
    All Tr (d.ofFlag f) :=
  fun ℓ hℓ => h ℓ ((fl.mem_srcLabels d ℓ).mpr (Or.inr (Or.inl ⟨f,hf,hℓ⟩)))

lemma all_srcLabels_mem (h : All Tr (fl.srcLabels d)) {a : ℕ} (ha : a ∈ fl.srcMems) :
    All Tr (d.ofMem a) :=
  fun ℓ hℓ => h ℓ ((fl.mem_srcLabels d ℓ).mpr (Or.inr (Or.inr ⟨a,ha,hℓ⟩)))

/-- A trusted destination had trusted sources. -/
lemma srcLabels_of_destReg {r : RegLabel} (hr : r ∈ fl.destRegs)
    (h : All Tr ((fl.propagate d).ofReg r)) : All Tr (fl.srcLabels d) := by
  rw [fl.propagate_ofReg d,if_pos hr] at h
  exact h.mono Finset.subset_union_right

lemma srcLabels_of_destFlag {f : Flag} (hf : f ∈ fl.destFlags)
    (h : All Tr ((fl.propagate d).ofFlag f)) : All Tr (fl.srcLabels d) := by
  rw [fl.propagate_ofFlag d,if_pos hf] at h
  exact h.mono Finset.subset_union_right

lemma srcLabels_of_destMem {a : ℕ} (ha : a ∈ fl.destMems)
    (h : All Tr ((fl.propagate d).ofMem a)) : All Tr (fl.srcLabels d) := by
  rw [fl.propagate_ofMem d,if_pos ha] at h
  exact h.mono Finset.subset_union_right

/-- Trusted sources leave everything that was trusted trusted. -/
lemma trusted_propagate_reg (h : All Tr (fl.srcLabels d)) {r : RegLabel}
    (hr : All Tr (d.ofReg r)) : All Tr ((fl.propagate d).ofReg r) := by
  rw [fl.propagate_ofReg d]
  split
  · exact all_union hr h
  · exact hr

lemma trusted_propagate_mem (h : All Tr (fl.srcLabels d)) {a : ℕ}
    (ha : All Tr (d.ofMem a)) : All Tr ((fl.propagate d).ofMem a) := by
  rw [fl.propagate_ofMem d]
  split
  · exact all_union ha h
  · exact ha

end Views

/-- The labels that an exposure makes pending while the instruction is in flight. -/
def Expose.labels (i : Instruction) (fl : Flows) : Expose → List Label
  | .pc _ => if i.controlFlow then [.reg .RIP] else []
  | .addr _ => fl.memAddressRegs.map .reg
  | .reg r => ((TaintTracker.taintRegLabel r).join.map .reg).toList
  | .mem _ _ => fl.srcMems.map .mem

section Tracking
variable {su : Setup} {s s' : State} {t : TaintTracker} {i : Instruction}

/-- A call that goes to the tracker. -/
lemma track_tracked {f : TaintTracker → Option TaintTracker} (ht : s.taintTracker = some t)
    (h : s.track f = some s') : ∃ t', f t = some t' ∧ s' = { s with taintTracker := some t' } := by
  unfold State.track at h
  rw [ht] at h
  obtain ⟨t',ht',rfl⟩ := Option.map_eq_some_iff.mp h
  exact ⟨t',ht',rfl⟩

/-- The tracker after an exposure. -/
lemma expose_tracker {k : Tracer} {e : Expose} (ht : s.taintTracker = some t)
    (hi : t.instruction = some i) (h : s.expose k e = some s') :
    s'.taintTracker =
      some { t with pendingTaint := t.pendingTaint ++ e.labels i t.flows } := by
  cases e with
  | pc address =>
    obtain ⟨t',hf,rfl⟩ := track_tracked (s := s.push (.pc address)) ht h
    cases hf
    obtain ⟨_,_,_,_,_,_,_⟩ := t
    cases hi
    cases hc : i.controlFlow <;> simp [TaintTracker.taintPc,Expose.labels,hc]
  | addr address =>
    obtain ⟨t',hf,rfl⟩ := track_tracked (t := t) (by exact ht) h
    cases hf
    rfl
  | reg r =>
    obtain ⟨t',hf,rfl⟩ := track_tracked (s := s.push (.reg (s.cpu.read r))) ht h
    obtain ⟨o,ho,rfl⟩ := Option.map_eq_some_iff.mp hf
    cases o <;> simp [Expose.labels,ho]
  | mem address size =>
    obtain ⟨t',hf,rfl⟩ := track_tracked (t := t) (by exact ht) h
    cases hf
    rfl

lemma exposeAll_tracker {k : Tracer} {es : List Expose} (ht : s.taintTracker = some t)
    (hi : t.instruction = some i) (h : s.exposeAll k es = some s') :
    s'.taintTracker =
      some { t with pendingTaint := t.pendingTaint ++ es.flatMap (Expose.labels i t.flows) } := by
  induction es generalizing s t with
  | nil =>
    cases h
    rw [ht]
    simp
  | cons e es ih =>
    obtain ⟨s₁,h₁,h₂⟩ := Option.bind_eq_some_iff.mp h
    have hr := ih (expose_tracker ht hi h₁) hi h₂
    rw [hr]
    simp

/-- The tracker after the tracing part of the instruction hook: the instruction is in flight,
its exposures are pending. -/
theorem seqTraceInstruction_tracker {address : ℕ} {insn : Insn} (ht : s.taintTracker = some t)
    (h : seqTraceInstruction su s i address insn = some s') :
    ∃ fl tr, Flows.ofInstruction i = some fl ∧
      su.tracer.analyze su.testCase s.tracer address = some tr ∧
      s'.taintTracker = some { t.settle with
        instruction := some i
        flows := fl
        pendingTaint :=
          (su.tracer.instructionExposes tr address insn).flatMap (Expose.labels i fl) } := by
  obtain ⟨s₁,h₁,h⟩ := Option.bind_eq_some_iff.mp h
  obtain ⟨t',hf,rfl⟩ := track_tracked ht h₁
  obtain ⟨fl,hfl,rfl⟩ := TaintTracker.startInstruction_eq hf
  obtain ⟨tr,htr,h⟩ := Option.bind_eq_some_iff.mp h
  obtain ⟨s₂,h₂,h⟩ := Option.bind_eq_some_iff.mp h
  have h' := exposeAll_tracker (i := i) rfl rfl h₂
  refine ⟨fl,tr,hfl,htr,?_⟩
  dsimp only at h
  split at h <;> cases h <;> rw [h'] <;> simp

/-- The tracker after the tracing part of the memory hook. -/
theorem seqTraceMemAccess_tracker {insn : Insn} {a : Access} {value : ℤ}
    (ht : s.taintTracker = some t) (hi : t.instruction = some i)
    (h : seqTraceMemAccess su s insn a value = some s') :
    s'.taintTracker = some { t with
      flows := t.flows.track t.sandboxBase a
      pendingTaint := t.pendingTaint ++ (su.tracer.accessExposes s.inSpeculation insn a).flatMap
        (Expose.labels i (t.flows.track t.sandboxBase a)) } := by
  obtain ⟨s₁,h₁,h⟩ := Option.bind_eq_some_iff.mp h
  obtain ⟨t',hf,rfl⟩ := track_tracked ht h₁
  cases hf
  obtain ⟨s₂,h₂,h⟩ := Option.bind_eq_some_iff.mp h
  have hi' : (t.trackMemoryAccess a.address a.size a.isWrite).instruction = some i := by
    rw [TaintTracker.trackMemoryAccess_eq]
    exact hi
  have h' := exposeAll_tracker rfl hi' h₂
  rw [TaintTracker.trackMemoryAccess_eq] at h'
  split at h
  · split at h
    · cases h
      exact h'
    · obtain ⟨tr,-,h⟩ := Option.bind_eq_some_iff.mp h
      cases h
      exact h'
  · cases h

/-- Checkpoints settle the tracker and keep the dependencies. -/
lemma iterate_checkpoint (t : TaintTracker) (n : ℕ) :
    (TaintTracker.checkpoint^[n] t).settle.deps = t.settle.deps ∧
    (TaintTracker.checkpoint^[n] t).settle.checkpoints =
      List.replicate n t.settle.deps ++ t.checkpoints ∧
    (TaintTracker.checkpoint^[n] t).sandboxBase = t.sandboxBase ∧
    (TaintTracker.checkpoint^[n] t).reach = t.reach := by
  induction n with
  | zero => exact ⟨rfl,by simp,rfl,rfl⟩
  | succ n ih =>
    obtain ⟨h₁,h₂,h₃,h₄⟩ := ih
    rw [Function.iterate_succ_apply']
    refine ⟨?_,?_,?_,(TaintTracker.reach_checkpoint _).trans h₄⟩
    · rw [TaintTracker.checkpoint_settle]
      exact h₁
    · rw [TaintTracker.checkpoint_settle]
      change _ :: _ = _
      rw [h₁,h₂,List.replicate_succ,List.cons_append]
    · rw [← h₃]
      exact TaintTracker.settle_sandboxBase _

end Tracking

end ProteanAmulet
