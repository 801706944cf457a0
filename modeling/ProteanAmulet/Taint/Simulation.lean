import ProteanAmulet.Taint.Accesses

/-! The tracked run and the run on the other input, step by step and as a whole. -/
namespace ProteanAmulet
open Dependency (All)

/-- The declared operands cover the instructions of the test case. With branch prediction,
the branches that the model decodes are declared as such; with store bypass, the reported
values fit into the store. -/
structure DeclaredProgram (su : Setup) : Prop where
  declared : ∀ {address insn i}, su.testCase.fetch address = some insn →
    su.testCase.addressMap ((address : ℤ)-su.codeStart) = some i →
    Declared i (fun _ => False) insn
  branch : su.clause=.cond ∨ su.clause=.condBpas → ∀ {address insn i},
    su.testCase.fetch address = some insn →
    su.testCase.addressMap ((address : ℤ)-su.codeStart) = some i → ∀ {c : Cpu} {d},
    X86UnicornCond.decode insn.bytes c.eflags (c.reg .C) = some d → d.1 ≠ 0 →
      i.controlFlow=true ∧ (d.2.2 = true → i.ReadsReg .C) ∧
      ∀ c', SameSources i (fun _ => False) c c' →
        X86UnicornCond.decode insn.bytes c'.eflags (c'.reg .C) = some d
  fits : su.clause.bypasses → ∀ {address insn}, su.testCase.fetch address = some insn →
    ∀ c seen, ∀ a ∈ insn.accesses c, a.isWrite=true →
      (toBytes (insn.storeValue c seen) a.size).isSome

/-- The accesses of the instruction executed next are to the data of the input. -/
def AccessesInData (su : Setup) (s : State) : Prop :=
  ∀ insn s', Executes su s insn s' → ∀ a ∈ insn.accesses s'.cpu,
    ∀ x, a.address ≤ x → x<a.address+a.size → InData su x

/-- The instruction executed next makes no access after its tracking was finalised: it makes
none at all if it is the one at which a store is bypassed, and a load that is injected with
zeros is its last access. -/
def Quiet (su : Setup) (s : State) : Prop :=
  ∀ insn s', Executes su s insn s' → s.checkpoints.length<s.nesting →
    (su.clause.bypasses → s.previousStore.address ≠ 0 → insn.accesses s'.cpu = []) ∧
    (su.clause=.null → s.cpu.rip ≠ s.latestRollbackAddress → LoadsLast (insn.accesses s'.cpu))

/-- The dependencies that the tracker keeps for a register name. -/
def RegName.DependsOn (r : RegName) (d : Deps) (ℓ : Label) : Prop :=
  match r with
  | .gpr _ g | .high g => ℓ ∈ d.ofReg g.key
  | .flags => ∃ f, ℓ ∈ d.ofFlag f
  | .rip | .seg _ => False

/-- The registers exposed next are tainted under a name whose dependencies stand for all the
input words that the dependencies of the register stand for. -/
def Named (su : Setup) (s : State) : Prop :=
  ∀ insn tr t, su.testCase.fetch s.cpu.rip = some insn →
    su.tracer.analyze su.testCase s.tracer s.cpu.rip = some tr → s.taintTracker = some t →
    ∀ r, .reg r ∈ su.tracer.instructionExposes tr s.cpu.rip insn →
    ∀ ℓ₀, TaintTracker.taintRegLabel r = some (some ℓ₀) → ∀ ℓ, r.DependsOn t.settle.deps ℓ →
    ∀ k, TaintTracker.inputOffset su.conf ℓ = some k →
      ∃ ℓ' ∈ t.settle.deps.ofReg ℓ₀, TaintTracker.inputOffset su.conf ℓ' = some k

/-- Trust is a matter of the input word that a label stands for. -/
def Trust (su : Setup) (Tr : Label → Prop) : Prop :=
  ∀ ℓ, (∀ k, TaintTracker.inputOffset su.conf ℓ = some k →
    ∃ ℓ', Tr ℓ' ∧ TaintTracker.inputOffset su.conf ℓ' = some k) → Tr ℓ

section Tracers
variable {k : Tracer}

lemma instructionExposes_noMem {tr : TracerState} {address a n : ℕ} {insn : Insn} :
    .mem a n ∉ k.instructionExposes tr address insn := by
  cases k <;> simp [Tracer.instructionExposes]

end Tracers

section Finish
variable {su : Setup} {Tr : Label → Prop} {D : Deps} {fl F : Flows} {i : Instruction}
  {insn : Insn} {c c' : Cpu}

/-- Trusted sources agree. -/
lemma sameSources_of_trusted (hcov : fl.Covers i) (hgrow : fl.Grows F)
    (hc : (trusted su Tr D).Cpus c c') (h : All Tr (F.srcLabels D)) :
    SameSources i (fun _ => False) c c' := by
  refine ⟨hc.rip,fun r hr => hc.reg r (Or.inr ?_),fun f hf => hc.flag f ?_⟩
  · refine all_srcLabels_reg h ?_
    rw [hgrow.srcRegs]
    exact hcov.src r (hr.resolve_right id)
  · refine all_srcLabels_flag h ?_
    rw [hgrow.srcFlags]
    exact hcov.srcFlag f hf

/-- The processors after the instruction agree on what is then trusted. -/
theorem finish_trusted {also : Gpr → Prop} (hd : Declared i also insn) (hcov : fl.Covers i)
    (hgrow : fl.Grows F) (hc : (trusted su Tr D).Cpus c c')
    (hsame : All Tr (F.srcLabels D) → SameSources i also c c')
    (hcf : i.controlFlow=true → All Tr (F.srcLabels D)) {seen seen' : List (List Byte)}
    (hseen : All Tr (F.srcLabels D) → seen = seen') :
    (trusted su Tr (F.propagate D)).Cpus (insn.finish c seen) (insn.finish c' seen') := by
  have hle : trusted su Tr (F.propagate D) ≤ trusted su Tr D := trusted_propagate_le
  refine ⟨?_,fun r hr => ?_,fun f hf => ?_,fun _ k hk => ?_⟩
  · cases hi : i.controlFlow with
    | false => rw [hd.fallsThrough hi,hd.fallsThrough hi,hc.rip]
    | true =>
      rw [hseen (hcf hi)]
      exact hd.successor seen' (hsame (hcf hi))
  · by_cases hw : i.WritesReg r
    · have hr' : All Tr ((F.propagate D).ofReg r.key) := by
        rcases hr with rfl | hr
        · exact absurd hw hcov.notBP
        · exact hr
      have hsrc : All Tr (F.srcLabels D) := by
        refine srcLabels_of_destReg ?_ hr'
        rw [hgrow.destRegs]
        exact hcov.dest r hw
      rw [hseen hsrc]
      exact hd.reg seen' (hsame hsrc) hw (hc.reg r (hle.1 r hr))
    · rw [hd.frameReg seen hw,hd.frameReg seen' hw]
      exact hc.reg r (hle.1 r hr)
  · by_cases hw : i.WritesFlag f
    · have hsrc : All Tr (F.srcLabels D) := by
        refine srcLabels_of_destFlag ?_ hf
        rw [hgrow.destFlags]
        exact hcov.destFlag f hw
      rw [hseen hsrc]
      exact hd.flag seen' (hsame hsrc) hw (hc.flag f (hle.2.1 f hf))
    · have hne : ∀ g, i.WritesFlag g → g.bit ≠ f.bit := by
        intro g hg hgf
        refine hw ?_
        rwa [show f = g from by cases f <;> cases g <;> first | rfl | cases hgf]
      rw [hd.frameFlag seen hne,hd.frameFlag seen' hne]
      exact hc.flag f (hle.2.1 f hf)
  · rw [hd.frameFlag seen fun f _ => hk f,hd.frameFlag seen' fun f _ => hk f]
    exact hc.rest trivial k hk

end Finish

section Speculation
variable {su : Setup} {s s' : State}

lemma cond_tracker {address : ℕ} {insn : Insn}
    (h : X86UnicornCond.speculateInstruction s address insn = some s') :
    s'=s ∨ s'.taintTracker = s.taintTracker.map .checkpoint ∧ address<s'.cpu.rip := by
  rw [X86UnicornCond.speculateInstruction_eq] at h
  split at h
  · cases h
    exact Or.inl rfl
  · obtain ⟨⟨target,willJump,isLoop⟩,-,rfl⟩ := Option.map_eq_some_iff.mp h
    have hsize := insn.size_pos
    split
    · exact Or.inl rfl
    · refine Or.inr ⟨by cases isLoop <;> rfl,?_⟩
      cases willJump <;> cases isLoop <;>
        simp only [X86UnicornCond.mispredicted,if_true,Bool.false_eq_true,if_false] <;> omega

lemma bpas_tracker {address : ℕ} (h : X86UnicornBpas.speculateInstruction s address = some s') :
    s'.cpu = s.cpu ∧ (s'.taintTracker = s.taintTracker ∨
      s'.taintTracker = s.taintTracker.map .checkpoint ∧ s.checkpoints.length<s.nesting ∧
        s.previousStore.address ≠ 0) := by
  rw [X86UnicornBpas.speculateInstruction_eq] at h
  split at h
  · cases h
    exact ⟨rfl,Or.inl rfl⟩
  · split at h
    · cases h
      exact ⟨rfl,Or.inl rfl⟩
    · obtain ⟨bs,-,rfl⟩ := Option.map_eq_some_iff.mp h
      exact ⟨rfl,Or.inr ⟨rfl,by omega,‹_›⟩⟩

/-- The tracker after the speculating part of the instruction hook: an instruction that is
still to be executed is settled only where a store is bypassed. -/
theorem speculateInstruction_tracker {address : ℕ} {insn : Insn}
    (h : speculateInstruction su s address insn = some s') :
    ∃ n, s'.taintTracker = s.taintTracker.map (TaintTracker.checkpoint^[n]) ∧
      (n=0 ∨ address<s'.cpu.rip ∨ su.clause.bypasses ∧ s.checkpoints.length<s.nesting ∧
        s.previousStore.address ≠ 0) := by
  have hid : s.taintTracker.map (TaintTracker.checkpoint^[0]) = s.taintTracker := by
    cases s.taintTracker <;> rfl
  unfold speculateInstruction at h
  cases hcl : su.clause <;> rw [hcl] at h
  case seq | null =>
    cases h
    exact ⟨0,hid.symm,Or.inl rfl⟩
  case cond =>
    rcases cond_tracker h with rfl | ⟨ht,hr⟩
    · exact ⟨0,hid.symm,Or.inl rfl⟩
    · exact ⟨1,ht,Or.inr (Or.inl hr)⟩
  case bpas =>
    rcases (bpas_tracker h).2 with ht | ⟨ht,hp⟩
    · exact ⟨0,by rw [hid,ht],Or.inl rfl⟩
    · exact ⟨1,ht,Or.inr (Or.inr ⟨rfl,hp⟩)⟩
  case condBpas =>
    obtain ⟨s₁,h₁,h⟩ := Option.bind_eq_some_iff.mp h
    obtain ⟨hcpu,hb⟩ := bpas_tracker h
    rcases cond_tracker h₁ with rfl | ⟨ht₁,hr⟩
    · rcases hb with ht | ⟨ht,hp⟩
      · exact ⟨0,by rw [hid,ht],Or.inl rfl⟩
      · exact ⟨1,ht,Or.inr (Or.inr ⟨rfl,hp⟩)⟩
    · rw [← hcpu] at hr
      rcases hb with ht | ⟨ht,-⟩
      · exact ⟨1,ht.trans ht₁,Or.inr (Or.inl hr)⟩
      · refine ⟨2,?_,Or.inr (Or.inl hr)⟩
        rw [ht,ht₁,Option.map_map]
        rfl

end Speculation

/-- The runs agree on what the tracker of the first one trusts, now and at the open
checkpoints. -/
def Lock (su : Setup) (Tr : Label → Prop) (s u : State) : Prop :=
  ∃ t, s.taintTracker = some t ∧ t.sandboxBase = su.sandboxBase ∧
    Pair (trusted su Tr t.settle.deps) (t.settle.checkpoints.map (trusted su Tr)) s u

section Steps
variable {su : Setup} {Tr : Label → Prop} {s u : State}

/-- The hook and the accesses of a step that executes an instruction. -/
lemma emuStep_executes {insn : Insn} {s' : State} {o : Outcome} (hex : Executes su s insn s')
    (ho : emuStep su s = some o) : ∃ seen s'',
      runAccesses su insn s'.cpu (insn.accesses s'.cpu) [] s' = some (seen,s'') ∧
        o.state.reach = s''.reach := by
  unfold emuStep at ho
  rw [if_neg hex.running,hex.fetch] at ho
  dsimp only at ho
  rw [hex.hook,Option.bind_eq_bind,Option.bind_some] at ho
  unfold execute at ho
  rw [if_neg (by simp [hex.goes]),if_neg (by simp [hex.stays])] at ho
  obtain ⟨⟨seen,s''⟩,h,ho⟩ := Option.bind_eq_some_iff.mp ho
  refine ⟨seen,s'',h,?_⟩
  dsimp only at ho
  split at ho <;> cases ho <;> rfl

lemma emuStep_hook {insn : Insn} {s' : State} {o : Outcome}
    (hf : su.testCase.fetch s.cpu.rip = some insn) (hend : s.cpu.rip ≠ su.codeEnd)
    (hs : instructionHook su s s.cpu.rip insn = some s') (ho : emuStep su s = some o) :
    s'.reach ⊆ o.state.reach := by
  unfold emuStep at ho
  rw [if_neg hend,hf] at ho
  dsimp only at ho
  rw [hs,Option.bind_eq_bind,Option.bind_some] at ho
  exact reach_execute ho

/-- An exposed register agrees if the name that its taint went to is trusted. -/
lemma shown_reg {D : Deps} (hTr : Trust su Tr) {r : RegName}
    (hc : (trusted su Tr D).Cpus s.cpu u.cpu)
    (hlabel : ∀ ℓ₀, TaintTracker.taintRegLabel r = some (some ℓ₀) → All Tr (D.ofReg ℓ₀))
    (hname : ∀ ℓ₀, TaintTracker.taintRegLabel r = some (some ℓ₀) → ∀ ℓ, r.DependsOn D ℓ →
      ∀ k, TaintTracker.inputOffset su.conf ℓ = some k →
        ∃ ℓ' ∈ D.ofReg ℓ₀, TaintTracker.inputOffset su.conf ℓ' = some k) :
    s.cpu.read r = u.cpu.read r := by
  have hdep : ∀ ℓ₀, TaintTracker.taintRegLabel r = some (some ℓ₀) →
      ∀ ℓ, r.DependsOn D ℓ → Tr ℓ := by
    intro ℓ₀ h₀ ℓ hℓ
    refine hTr ℓ fun k hk => ?_
    obtain ⟨ℓ',hℓ',hk'⟩ := hname ℓ₀ h₀ ℓ hℓ k hk
    exact ⟨ℓ',hlabel ℓ₀ h₀ ℓ' hℓ',hk'⟩
  cases r with
  | gpr w g =>
    have h := hc.reg g (Or.inr (hdep _ rfl))
    cases w <;> simp only [Cpu.read,h]
  | high g =>
    have h := hc.reg g (Or.inr (hdep _ rfl))
    simp only [Cpu.read,h]
  | flags =>
    have h := hc.eflags_eq (fun f ℓ hℓ => hdep _ rfl ℓ ⟨f,hℓ⟩) trivial
    simp only [Cpu.read,h]
  | rip => exact hc.rip
  | seg s => rfl

/-- The tracker once the instruction hook has traced the instruction. -/
def TaintTracker.inFlight (su : Setup) (t : TaintTracker) (address : ℕ) (insn : Insn)
    (i : Instruction) (fl : Flows) (tr : TracerState) : TaintTracker :=
  { t.settle with
    instruction := some i
    flows := fl
    pendingTaint :=
      (su.tracer.instructionExposes tr address insn).flatMap (Expose.labels i fl) }

/-- The hook tracks the instruction, and after that it may open a checkpoint. -/
lemma instructionHook_tracked {s' : State} {t : TaintTracker} {insn : Insn}
    (ht : s.taintTracker = some t) (hs : instructionHook su s s.cpu.rip insn = some s') :
    ∃ i fl tr s₁ w b, su.testCase.addressMap ((s.cpu.rip : ℤ)-su.codeStart) = some i ∧
      Flows.ofInstruction i = some fl ∧
      su.tracer.analyze su.testCase s.tracer s.cpu.rip = some tr ∧
      seqTraceInstruction su (counted su s i) i s.cpu.rip insn = some s₁ ∧
      Traced { s with speculationWindow := w, stopRequested := b } s₁ ∧
      s₁.taintTracker = some (t.inFlight su s.cpu.rip insn i fl tr) ∧
      speculateInstruction su s₁ s.cpu.rip insn = some s' := by
  rw [instructionHook_eq] at hs
  obtain ⟨i,hi,hs⟩ := Option.bind_eq_some_iff.mp hs
  obtain ⟨s₁,h₁,hs⟩ := Option.bind_eq_some_iff.mp hs
  obtain ⟨w,b,hc⟩ := counted_eq su s i
  have htraced := seqTraceInstruction_traced h₁
  obtain ⟨fl,tr,hfl,htr,ht₁⟩ := seqTraceInstruction_tracker (t := t) (by rw [hc]; exact ht) h₁
  rw [hc] at htr htraced
  exact ⟨i,fl,tr,s₁,w,b,hi,hfl,htr,h₁,htraced,ht₁,hs⟩

section Hook
variable {s₁ s' : State} {insn : Insn} {w : ℕ} {b : Bool}

/-- Where accesses follow, no checkpoint has finalised the instruction. -/
lemma Executes.inFlight {t : TaintTracker} (hex : Executes su s insn s') (hquiet : Quiet su s)
    (htraced : Traced { s with speculationWindow := w, stopRequested := b } s₁)
    (ht₁ : s₁.taintTracker = some t) (hs : speculateInstruction su s₁ s.cpu.rip insn = some s')
    (has : insn.accesses s'.cpu ≠ []) : s'.taintTracker = some t := by
  obtain ⟨n,htn,hn⟩ := speculateInstruction_tracker hs
  rcases hn with rfl | hmoved | ⟨hby,hlt,hp⟩
  · rw [htn,ht₁]
    rfl
  · rw [hex.stays] at hmoved
    exact absurd hmoved (lt_irrefl _)
  · obtain ⟨_,_,rfl⟩ := htraced
    exact absurd ((hquiet insn s' hex hlt).1 hby hp) has

/-- A load that is injected with zeros is the last access. -/
lemma Executes.loadsLast (hex : Executes su s insn s') (hquiet : Quiet su s)
    (htraced : Traced { s with speculationWindow := w, stopRequested := b } s₁)
    (hs : speculateInstruction su s₁ s.cpu.rip insn = some s') (hinjects : Injecting su s') :
    LoadsLast (insn.accesses s'.cpu) := by
  obtain ⟨hcl,hlt,hne⟩ := hinjects
  have hs' : s' = { s₁ with instructionAddress := s.cpu.rip } := by
    unfold speculateInstruction at hs
    rw [hcl] at hs
    exact (Option.some.inj hs).symm
  obtain ⟨_,_,rfl⟩ := htraced
  rw [hs'] at hlt hne
  exact (hquiet insn s' hex hlt).2 hcl hne

end Hook

/-- What the first run alone tells about a step: the accesses that are tracked, and what is
reached at its end. -/
theorem emuStep_tracked {s' : State} {t : TaintTracker} {insn : Insn} {o : Outcome}
    (ht : s.taintTracker = some t) (hquiet : Quiet su s) (hend : s.cpu.rip ≠ su.codeEnd)
    (hf : su.testCase.fetch s.cpu.rip = some insn)
    (hs : instructionHook su s s.cpu.rip insn = some s') (ho : emuStep su s = some o) :
    ∃ i fl tr s₁ as, su.testCase.addressMap ((s.cpu.rip : ℤ)-su.codeStart) = some i ∧
      Flows.ofInstruction i = some fl ∧
      su.tracer.analyze su.testCase s.tracer s.cpu.rip = some tr ∧
      seqTraceInstruction su (counted su s i) i s.cpu.rip insn = some s₁ ∧
      s₁.taintTracker = some (t.inFlight su s.cpu.rip insn i fl tr) ∧
      (Executes su s insn s' → as = insn.accesses s'.cpu) ∧
      (¬ Executes su s insn s' → as = []) ∧
      (as ≠ [] → s'.taintTracker = some (t.inFlight su s.cpu.rip insn i fl tr) ∧
        (Injecting su s' → LoadsLast as)) ∧
      ∀ p, Raised su insn (t.inFlight su s.cpu.rip insn i fl tr) as p →
        ((Flows.trackAll t.sandboxBase fl as).propagate t.settle.deps).ofLabel p ⊆
          o.state.reach := by
  obtain ⟨i,fl,tr,s₁,w,b,hi,hfl,htr,h₁,htraced,ht₁,hspec⟩ := instructionHook_tracked ht hs
  have hreach : s'.reach = (t.inFlight su s.cpu.rip insn i fl tr).reach := by
    obtain ⟨n,htn,-⟩ := speculateInstruction_tracker hspec
    simp only [State.reach,htn,ht₁,Option.map_some,Option.elim_some]
    exact (iterate_checkpoint _ n).2.2.2
  have hsub := emuStep_hook hf hend hs ho
  -- Without accesses the tracker is settled as it is after the hook.
  have hnil : ∀ p, Raised su insn (t.inFlight su s.cpu.rip insn i fl tr) [] p →
      ((Flows.trackAll t.sandboxBase fl []).propagate t.settle.deps).ofLabel p ⊆
        o.state.reach := by
    intro p hp
    refine Finset.Subset.trans ?_ hsub
    rw [hreach]
    obtain hp | ⟨_,_,_,_,ha,_⟩ | ⟨_,ha,_⟩ := hp
    · exact TaintTracker.ofLabel_subset_reach
        (t := t.inFlight su s.cpu.rip insn i fl tr) rfl hp
    · cases ha
    · cases ha
  by_cases hex : Executes su s insn s'
  · by_cases has : insn.accesses s'.cpu = []
    · exact ⟨i,fl,tr,s₁,[],hi,hfl,htr,h₁,ht₁,fun _ => has.symm,fun _ => rfl,
        fun h => absurd rfl h,hnil⟩
    · have ht' := hex.inFlight hquiet htraced ht₁ hspec has
      have hlast := hex.loadsLast hquiet htraced hspec
      obtain ⟨seen,s'',hacc,hr⟩ := emuStep_executes hex ho
      refine ⟨i,fl,tr,s₁,_,hi,hfl,htr,h₁,ht₁,fun _ => rfl,fun h => absurd hex h,
        fun _ => ⟨ht',hlast⟩,fun p hp => ?_⟩
      rw [hr]
      have h := runAccesses_reach (i := i) ht' rfl hlast hacc hp
      rw [show (t.inFlight su s.cpu.rip insn i fl tr).sandboxBase = t.sandboxBase from
        t.settle_sandboxBase] at h
      exact h
  · exact ⟨i,fl,tr,s₁,[],hi,hfl,htr,h₁,ht₁,fun h => absurd h hex,fun _ => rfl,
      fun h => absurd rfl h,hnil⟩

lemma Lock.resumed (h : Lock su Tr s u) :
    Lock su Tr { s with stopRequested := false } { u with stopRequested := false } := by
  obtain ⟨t,ht,hb,hp⟩ := h
  exact ⟨t,ht,hb,hp.resumed⟩

lemma Settled.lock {F : Flows} {D : Deps} (h : Settled su Tr D F s u) : Lock su Tr s u := by
  obtain ⟨t,ht,hb,hdeps,hp⟩ := h
  exact ⟨t,ht,hb,hdeps ▸ hp⟩

lemma Settled.setCpu {F : Flows} {D : Deps} (h : Settled su Tr D F s u) {c c' : Cpu}
    (hc : (trusted su Tr (F.propagate D)).Cpus c c') :
    Lock su Tr { s with cpu := c } { u with cpu := c' } := by
  obtain ⟨t,ht,hb,hdeps,hp⟩ := h
  refine ⟨t,ht,hb,?_⟩
  rw [hdeps]
  exact hp.setCpu (View.le_refl _) hc

/-- The states before an instruction: what it declares, what the tracker knows of it, and that
everything that it raises with the accesses `as` is trusted at the end of the step. -/
structure Noted (su : Setup) (Tr : Label → Prop) (also : Instruction → Gpr → Prop) (s u : State)
    (t : TaintTracker) (insn : Insn) (i : Instruction) (fl : Flows) (tr : TracerState)
    (as : List Access) (F : Flows) : Prop where
  mapped : su.testCase.addressMap ((s.cpu.rip : ℤ)-su.codeStart) = some i
  collected : Flows.ofInstruction i = some fl
  declared : Declared i (also i) insn
  covers : fl.Covers i
  tracker : s.taintTracker = some t
  base : t.sandboxBase = su.sandboxBase
  flows : Flows.trackAll su.sandboxBase fl as = F
  cpus : (trusted su Tr t.settle.deps).Cpus s.cpu u.cpu
  raised : ∀ p, Raised su insn (t.inFlight su s.cpu.rip insn i fl tr) as p →
    All Tr ((F.propagate t.settle.deps).ofLabel p)

/-- An instruction that the first run executes. -/
structure Flight (su : Setup) (Tr : Label → Prop) (also : Instruction → Gpr → Prop)
    (s u s' : State) (t : TaintTracker) (insn : Insn) (i : Instruction) (fl : Flows)
    (tr : TracerState) (F : Flows) : Prop
    extends Noted su Tr also s u t insn i fl tr (insn.accesses s.cpu) F where
  executes : Executes su s insn s'

/-- The states after the instruction hook, if the instruction makes an access. -/
structure Hooked (su : Setup) (Tr : Label → Prop) (s s' u' : State) (t : TaintTracker)
    (insn : Insn) (i : Instruction) (fl : Flows) (tr : TracerState) (F : Flows) : Prop where
  cpu : s'.cpu = s.cpu
  inFlight : s'.taintTracker = some (t.inFlight su s.cpu.rip insn i fl tr)
  last : Injecting su s' → LoadsLast (insn.accesses s.cpu)
  pair : Pair (trusted su Tr (F.propagate t.settle.deps))
    (t.settle.checkpoints.map (trusted su Tr)) s' u'
  ready : Ready su s' u'

/-- The second run makes its accesses, too. -/
def Accessed (su : Setup) (Tr : Label → Prop) (D : Deps) (F : Flows) (insn : Insn) (c' : Cpu)
    (seen : List (List Byte)) (s'' u' : State) : Prop :=
  ∃ seenu u'', runAccesses su insn c' (insn.accesses c') [] u' = some (seenu,u'') ∧
    (All Tr (F.srcLabels D) → seen = seenu) ∧ Settled su Tr D F s'' u''

/-- The instruction executed next faults in both states or in none, unless everything is trusted
and the states have the same registers anyway. -/
def FaultsAlike (su : Setup) (Tr : Label → Prop) (s u : State) : Prop :=
  (∀ ℓ, Tr ℓ) ∨ (FaultsNext su s ↔ FaultsNext su u)

lemma FaultsAlike.faults {D : Deps} {F : Flows} {insn : Insn} {s' s'' u' u'' : State}
    {seen seenu : List (List Byte)} (h : FaultsAlike su Tr s u) (hex : Executes su s insn s')
    (hexu : Executes su u insn u') (hc : (trusted su Tr D).Cpus s'.cpu u'.cpu)
    (hseen : All Tr (F.srcLabels D) → seen = seenu)
    (hacc : runAccesses su insn s'.cpu (insn.accesses s'.cpu) [] s' = some (seen,s''))
    (haccu : runAccesses su insn u'.cpu (insn.accesses u'.cpu) [] u' = some (seenu,u'')) :
    insn.faults s'.cpu seen = insn.faults u'.cpu seenu := by
  rcases h with hall | hiff
  · have hcpu : s'.cpu = u'.cpu := by
      refine Cpu.ext (funext fun r => hc.reg r (Or.inr fun ℓ _ => hall ℓ)) ?_ hc.rip
      exact hc.eflags_eq (fun f ℓ _ => hall ℓ) trivial
    rw [hcpu,hseen fun ℓ _ => hall ℓ]
  · rw [Bool.eq_iff_iff,← hex.faultsNext hacc,← hexu.faultsNext haccu]
    exact hiff

section Noted
variable {also : Instruction → Gpr → Prop} {t : TaintTracker} {insn : Insn} {i : Instruction}
  {fl : Flows} {tr : TracerState} {as : List Access} {F : Flows}

namespace Noted

lemma grows (h : Noted su Tr also s u t insn i fl tr as F) : fl.Grows F :=
  h.flows ▸ Flows.trackAll_grows

/-- The successor of a control-flow instruction is tainted with all its sources. -/
lemma controlFlow (h : Noted su Tr also s u t insn i fl tr as F)
    (hpc : .pc s.cpu.rip ∈ su.tracer.instructionExposes tr s.cpu.rip insn)
    (hc : i.controlFlow=true) : All Tr (F.srcLabels t.settle.deps) := by
  obtain ⟨src,hrip⟩ := h.declared.declaresRip hc
  refine srcLabels_of_destReg (r := .RIP) ?_ (h.raised (.reg .RIP) (Or.inl ?_))
  · rw [h.grows.destRegs]
    exact h.covers.rip src hrip
  · refine List.mem_flatMap.mpr ⟨_,hpc,?_⟩
    simp [Expose.labels,hc]

/-- What the instruction hook shows is the same in both runs. -/
lemma shown (h : Noted su Tr also s u t insn i fl tr as F) (hTr : Trust su Tr)
    (hnamed : Named su s) (hf : su.testCase.fetch s.cpu.rip = some insn)
    (htr : su.tracer.analyze su.testCase s.tracer s.cpu.rip = some tr) :
    ∀ e ∈ su.tracer.instructionExposes tr s.cpu.rip insn, Shown s u e := by
  intro e he
  cases e with
  | pc address => trivial
  | addr address => trivial
  | mem address size => exact absurd he instructionExposes_noMem
  | reg r =>
    refine shown_reg hTr h.cpus (fun ℓ₀ h₀ => ?_) (hnamed insn tr t hf htr h.tracker r he)
    refine (h.raised (.reg ℓ₀) (Or.inl ?_)).mono (Dependency.get_subset_absorbAll _ _ _ _ _)
    exact List.mem_flatMap.mpr ⟨_,he,by simp [Expose.labels,h₀]⟩

/-- A branch that the model decodes is decoded in the same way in both runs. -/
lemma sameBranch (h : Noted su Tr also s u t insn i fl tr as F)
    (hpc : .pc s.cpu.rip ∈ su.tracer.instructionExposes tr s.cpu.rip insn)
    (hf : su.testCase.fetch s.cpu.rip = some insn) (hprog : DeclaredProgram su)
    (hcl : su.clause=.cond ∨ su.clause=.condBpas) :
    SameBranch (trusted su Tr (F.propagate t.settle.deps)) insn s u := by
  intro _ d hdec hz
  obtain ⟨hc,hC,hbr⟩ := hprog.branch hcl hf h.mapped hdec hz
  have hsrc := h.controlFlow hpc hc
  refine ⟨hbr _ (sameSources_of_trusted h.covers h.grows h.cpus hsrc),fun hl => Or.inr ?_⟩
  refine trusted_propagate_reg hsrc (all_srcLabels_reg hsrc ?_)
  rw [h.grows.srcRegs]
  exact h.covers.src .C (hC hl)

end Noted

namespace Flight
variable {s' u' s'' : State} {seen : List (List Byte)}

/-- An instruction without accesses: the hook has already settled what is to be settled. -/
lemma ends_quiet (hf : Flight su Tr also s u s' t insn i fl tr F)
    (hquiet : insn.accesses s.cpu = []) (hset : Settled su Tr t.settle.deps F s' u')
    (hs : runAccesses su insn s.cpu (insn.accesses s.cpu) [] s' = some (seen,s'')) :
    Accessed su Tr t.settle.deps F insn u.cpu seen s'' u' := by
  rw [hquiet] at hs
  cases hs
  refine ⟨[],u',?_,fun _ => rfl,hset⟩
  rw [hf.declared.quiet hquiet]
  rfl

/-- The end of an instruction after its accesses. -/
lemma ends (hf : Flight su Tr also s u s' t insn i fl tr F) (hex' : Executes su u insn u')
    (hcpu : s'.cpu = s.cpu ∧ u'.cpu = u.cpu) (halike : FaultsAlike su Tr s u)
    (hpc : .pc s.cpu.rip ∈ su.tracer.instructionExposes tr s.cpu.rip insn)
    (hsame : All Tr (F.srcLabels t.settle.deps) → SameSources i (also i) s.cpu u.cpu)
    (hs : runAccesses su insn s.cpu (insn.accesses s.cpu) [] s' = some (seen,s''))
    (h : Accessed su Tr t.settle.deps F insn u.cpu seen s'' u') :
    ∃ seenu u'', runAccesses su insn u.cpu (insn.accesses u.cpu) [] u' = some (seenu,u'') ∧
      insn.faults s.cpu seen = insn.faults u.cpu seenu ∧ Lock su Tr s'' u'' ∧
      Lock su Tr { s'' with cpu := insn.finish s.cpu seen }
        { u'' with cpu := insn.finish u.cpu seenu } := by
  obtain ⟨seenu,u'',hu,hseen,hset⟩ := h
  refine ⟨seenu,u'',hu,?_,hset.lock,hset.setCpu ?_⟩
  · have hfa := halike.faults (F := F) hf.executes hex'
      (by rw [hcpu.1,hcpu.2]; exact hf.cpus) hseen (by rw [hcpu.1]; exact hs)
      (by rw [hcpu.2]; exact hu)
    rwa [hcpu.1,hcpu.2] at hfa
  · exact finish_trusted hf.declared hf.covers hf.grows hf.cpus hsame (hf.controlFlow hpc) hseen

end Flight

/-- A tracker in flight has opened no checkpoint. -/
lemma checkpoints_inFlight {n : ℕ} (hi : t.instruction.isSome)
    (h : TaintTracker.checkpoint^[n] t = t) : n=0 := by
  cases n with
  | zero => rfl
  | succ n =>
    rw [Function.iterate_succ_apply'] at h
    have h' := congrArg TaintTracker.instruction h
    rw [show (TaintTracker.checkpoint _).instruction = none from
      TaintTracker.settle_instruction _] at h'
    rw [← h'] at hi
    cases hi

end Noted

/-- One step of the emulator in both runs, if everything that is reached at its end is
trusted. How the sources come to agree and how the accesses are made is left open. -/
theorem emuStep_locked (also : Instruction → Gpr → Prop) (hk : su.tracer ≠ .prot)
    (hpc : ∀ tr address insn, .pc address ∈ su.tracer.instructionExposes tr address insn)
    (hdecl : ∀ {address insn i}, su.testCase.fetch address = some insn →
      su.testCase.addressMap ((address : ℤ)-su.codeStart) = some i → Declared i (also i) insn)
    (hbranch : su.clause=.cond ∨ su.clause=.condBpas → DeclaredProgram su) (hTr : Trust su Tr)
    {o : Outcome} (hlock : Lock su Tr s u) (halike : FaultsAlike su Tr s u) (hquiet : Quiet su s)
    (hnamed : Named su s)
    (hsame : ∀ {s' t insn i fl tr F}, Flight su Tr also s u s' t insn i fl tr F →
      All Tr (F.srcLabels t.settle.deps) → SameSources i (also i) s.cpu u.cpu)
    (haccess : ∀ {s' u' t insn i fl tr F}, Flight su Tr also s u s' t insn i fl tr F →
      Hooked su Tr s s' u' t insn i fl tr F → insn.accesses s.cpu ≠ [] → ∀ seen s'',
      runAccesses su insn s.cpu (insn.accesses s.cpu) [] s' = some (seen,s'') →
        Accessed su Tr t.settle.deps F insn u.cpu seen s'' u')
    (ho : emuStep su s = some o) (hmark : All Tr o.state.reach) :
    ∃ o', emuStep su u = some o' ∧ o.Rel (Lock su Tr) o' := by
  have hlock₀ := hlock
  obtain ⟨t,ht,hbase,hp⟩ := hlock
  refine emuStep_rel hlock₀ hp.cpus.rip ?_ ho
  intro insn s' hend hf hs
  obtain ⟨i,fl,tr,s₁,as,hi,hfl,htr,h₁,ht₁,hexas,hnexas,hne,hraised⟩ :=
    emuStep_tracked ht hquiet hend hf hs ho
  rw [hbase] at hraised
  generalize hF : Flows.trackAll su.sandboxBase fl as = F at hraised
  have hd := hdecl hf hi
  have hnoted : Noted su Tr also s u t insn i fl tr as F :=
    ⟨hi,hfl,hd,Flows.ofInstruction_covers hd.flagsOnce hfl,ht,hbase,hF,hp.cpus,
      fun p hp => hmark.mono (hraised p hp)⟩
  have hshown : ∀ tr', su.tracer.analyze su.testCase s.tracer s.cpu.rip = some tr' →
      ∀ e ∈ su.tracer.instructionExposes tr' s.cpu.rip insn, Shown s u e := by
    intro tr' htr'
    obtain rfl : tr=tr' := Option.some.inj (htr.symm.trans htr')
    exact hnoted.shown hTr hnamed hf htr
  obtain ⟨i',s₁',u',n,hi',h₁',hu',hp',hready,htt,hcpu⟩ :=
    Pair.instructionHook hk hp trusted_propagate_le hshown
      (fun hcl => hnoted.sameBranch (hpc _ _ _) hf (hbranch hcl) hcl) hs
  obtain rfl : i=i' := Option.some.inj (hi.symm.trans hi')
  obtain rfl : s₁=s₁' := Option.some.inj (h₁.symm.trans h₁')
  rw [ht₁,Option.map_some] at htt
  have hsettled : as=[] → Settled su Tr t.settle.deps F s' u' := by
    rintro rfl
    subst hF
    obtain ⟨hdeps,hcps,hb,-⟩ := iterate_checkpoint (t.inFlight su s.cpu.rip insn i fl tr) n
    refine ⟨_,htt,hb.trans (t.settle_sandboxBase.trans hbase),hdeps,?_⟩
    rw [hcps,List.map_append,List.map_replicate]
    exact hp'
  rw [hp.cpus.rip] at hu'
  refine ⟨u',hu',hp'.stopRequested,hp'.cpus.rip,fun hstop => ?_,fun _ hmoved => ?_,?_⟩
  · exact (hsettled (hnexas fun hex => absurd hex.goes (by simp [hstop]))).lock.resumed
  · exact (hsettled (hnexas fun hex => hmoved hex.stays)).lock
  intro hex hexu seen s'' hacc
  have hcpus : s'.cpu = s.cpu ∧ u'.cpu = u.cpu :=
    hcpu.resolve_right fun h => absurd hex.stays (Nat.ne_of_gt h)
  rw [hcpus.1] at hacc ⊢
  rw [hcpus.2]
  obtain rfl : as = insn.accesses s.cpu := by rw [hexas hex,hcpus.1]
  have hflight : Flight su Tr also s u s' t insn i fl tr F := ⟨hnoted,hex⟩
  refine hflight.ends hexu hcpus halike (hpc _ _ _) (hsame hflight) hacc ?_
  by_cases hnil : insn.accesses s.cpu = []
  · exact hflight.ends_quiet hnil (hsettled hnil) hacc
  · obtain ⟨ht',hlast⟩ := hne hnil
    obtain rfl : n=0 := checkpoints_inFlight rfl (Option.some.inj (htt.symm.trans ht'))
    exact haccess hflight ⟨hcpus.1,ht',hlast,hp',hready⟩ hnil seen s'' hacc

/-- If the registers that form the addresses agree, the accesses are the same. -/
theorem Flight.accessed {also : Instruction → Gpr → Prop} {s' u' : State} {t : TaintTracker}
    {insn : Insn} {i : Instruction} {fl : Flows} {tr : TracerState} {F : Flows}
    (hf : Flight su Tr also s u s' t insn i fl tr F)
    (hh : Hooked su Tr s s' u' t insn i fl tr F) (hk : su.tracer ≠ .prot)
    (hsize : 8*su.conf.dataSize<2^64)
    (hfits : su.clause.bypasses → ∀ c seen, ∀ a ∈ insn.accesses c, a.isWrite=true →
      (toBytes (insn.storeValue c seen) a.size).isSome)
    (hsame : All Tr (F.srcLabels t.settle.deps) → SameSources i (also i) s.cpu u.cpu)
    (hin : ∀ a ∈ insn.accesses s.cpu, ∀ x, a.address ≤ x → x<a.address+a.size → InData su x)
    (hshown : ∀ a ∈ insn.accesses s.cpu, ∀ b address size,
      .mem address size ∈ su.tracer.accessExposes b insn a → ∀ x, address ≤ x →
        x<address+size → (trusted su Tr (F.propagate t.settle.deps)).mem x)
    (haddr : ∀ r, i.AddressReg r → s.cpu.reg r = u.cpu.reg r) {seen : List (List Byte)}
    {s'' : State} (hacc : runAccesses su insn s.cpu (insn.accesses s.cpu) [] s' = some (seen,s'')) :
    Accessed su Tr t.settle.deps F insn u.cpu seen s'' u' := by
  have heq : insn.accesses s.cpu = insn.accesses u.cpu := hf.declared.accesses hf.cpus.rip haddr
  rw [Accessed,← heq]
  refine runAccesses_locked hk hf.declared hsame hsize (fun hb a ha hw seen => ?_) hin hshown
    ⟨hh.inFlight,rfl,t.settle_sandboxBase.trans hf.base,rfl,hf.flows,hh.pair,hh.ready,hh.last⟩
    (fun _ => rfl) hacc
  exact hfits hb u.cpu seen a (heq ▸ ha) hw

lemma AccessesInData.flight (hin : AccessesInData su s) {s' : State} {insn : Insn}
    (hex : Executes su s insn s') (hcpu : s'.cpu = s.cpu) :
    ∀ a ∈ insn.accesses s.cpu, ∀ x, a.address ≤ x → x<a.address+a.size → InData su x := by
  have h := hin insn s' hex
  rwa [hcpu] at h

/-- The steps of the first run that keep the lock. -/
def Tracks (su : Setup) (Tr : Label → Prop) (s : State) : Prop :=
  ∀ u o, Lock su Tr s u → FaultsAlike su Tr s u → emuStep su s = some o → All Tr o.state.reach →
    ∃ o', emuStep su u = some o' ∧ o.Rel (Lock su Tr) o'

/-- After the same number of steps, the instruction that one run executes next faults if and only
if the one of the other run does; in particular if neither run faults. -/
def SameFaults (su : Setup) (c₀ d₀ : Config) : Prop :=
  ∀ n c d first, ticks su n c₀ = some c → ticks su n d₀ = some d → c.phase = .emulating first →
    d.phase = .emulating first → (FaultsNext su c.state ↔ FaultsNext su d.state)

/-- The configurations of the two runs correspond. -/
structure Locked (su : Setup) (Tr : Label → Prop) (c₀ d₀ : Config) (s₁ : State) (c d : Config) :
    Prop where
  phase : c.phase = d.phase
  lock : Lock su Tr c.state d.state
  left : Invariant su c
  right : Invariant su d
  steps : ∃ n, ticks su n c₀ = some c ∧ ticks su n d₀ = some d
  ends : ∃ fuel, run su fuel c = some s₁

lemma run_tick {c c' : Config} {s₁ : State} (h : ∃ fuel, run su fuel c = some s₁)
    (ht : tick su c = some c') : ∃ fuel, run su fuel c' = some s₁ := by
  obtain ⟨fuel,h⟩ := h
  cases fuel with
  | zero => cases h
  | succ fuel =>
    obtain ⟨phase,s⟩ := c
    unfold run at h
    cases phase with
    | finished =>
      cases ht
      exact ⟨1,h⟩
    | exited => cases h
    | emulating first =>
      dsimp only at h
      rw [ht] at h
      exact ⟨fuel,h⟩
    | draining =>
      dsimp only at h
      rw [ht] at h
      exact ⟨fuel,h⟩

theorem tick_locked {c₀ d₀ c c' d : Config} {s₁ : State}
    (hstep : ∀ c, Visits su c₀ c → Tracks su Tr c.state)
    (hfaults : (∀ ℓ, Tr ℓ) ∨ SameFaults su c₀ d₀) (hmark : All Tr s₁.reach)
    (h : Locked su Tr c₀ d₀ s₁ c d) (hc : tick su c = some c') :
    ∃ d', tick su d = some d' ∧ Locked su Tr c₀ d₀ s₁ c' d' := by
  obtain ⟨n,hn,hn'⟩ := h.steps
  have hleft := tick_invariant h.left hc
  have hends := run_tick h.ends hc
  suffices hs : ∃ d', tick su d = some d' ∧ c'.phase = d'.phase ∧
      Lock su Tr c'.state d'.state by
    obtain ⟨d',hd,hphase,hlock⟩ := hs
    exact ⟨d',hd,hphase,hlock,hleft,tick_invariant h.right hd,
      ⟨n+1,ticks_succ hn hc,ticks_succ hn' hd⟩,hends⟩
  have hmark' : All Tr c'.state.reach := by
    obtain ⟨fuel,hrun⟩ := hends
    exact hmark.mono (reach_run hrun)
  have hstep' := hstep c ⟨n,hn⟩
  have halike : ∀ first, c.phase = .emulating first → FaultsAlike su Tr c.state d.state :=
    fun first hf => hfaults.imp_right fun hs => hs n c d first hn hn' hf (h.phase ▸ hf)
  have hphase := h.phase
  have hlock := h.lock
  have hinv := h.left
  have hinv' := h.right
  obtain ⟨phase,s⟩ := c
  obtain ⟨phase',u⟩ := d
  obtain rfl : phase=phase' := hphase
  cases phase with
  | emulating first =>
    obtain ⟨o,ho,rfl⟩ := Option.map_eq_some_iff.mp hc
    have hmo : All Tr o.state.reach := by cases o <;> exact hmark'
    obtain ⟨o',ho',hrel⟩ := hstep' u o hlock (halike first rfl) ho hmo
    obtain ⟨hp,hR⟩ := hrel.next (fun ⟨_,_,_,hR⟩ => hR.inSpeculation) first
    exact ⟨_,by unfold tick; rw [ho']; rfl,hp,hR⟩
  | draining =>
    obtain ⟨t,ht,hb,hp⟩ := hlock
    have hspec := hp.inSpeculation
    unfold tick at hc ⊢
    dsimp only at hc hspec ⊢
    rw [← hspec]
    split at hc
    · rename_i hs
      obtain ⟨s',hs',rfl⟩ := Option.map_eq_some_iff.mp hc
      obtain ⟨w,ws,u',hvs,hu',hp',htt⟩ :=
        hp.rollback hinv.1.recoverable hinv'.1.recoverable hs'
      rw [if_pos hs,hu']
      refine ⟨_,rfl,rfl,?_⟩
      rcases htt with ⟨hn,-⟩ | ⟨t₁,t',ht₁,hr,ht'⟩
      · rw [ht] at hn
        cases hn
      · obtain rfl := Option.some.inj (ht.symm.trans ht₁)
        obtain ⟨dep,deps,hcps,rfl,hset⟩ := TaintTracker.rollback_eq hr
        rw [TaintTracker.settle_checkpoints,hcps,List.map_cons] at hvs
        obtain ⟨rfl,rfl⟩ := List.cons.inj hvs
        refine ⟨_,ht',?_,?_⟩
        · exact t.settle_sandboxBase.trans hb
        · rw [hset]
          exact hp'
    · rename_i hs
      cases hc
      rw [if_neg hs]
      exact ⟨_,rfl,rfl,t,ht,hb,hp⟩
  | finished =>
    cases hc
    exact ⟨_,rfl,rfl,hlock⟩
  | exited =>
    cases hc
    exact ⟨_,rfl,rfl,hlock⟩

/-- A whole run: the other input leads to the same trace. -/
theorem run_locked {c d : Config} {s₁ : State} {fuel : ℕ}
    (hstep : ∀ c', Visits su c c' → Tracks su Tr c'.state)
    (hfaults : (∀ ℓ, Tr ℓ) ∨ SameFaults su c d) (hmark : All Tr s₁.reach)
    (hphase : c.phase = d.phase) (hlock : Lock su Tr c.state d.state) (hleft : Invariant su c)
    (hright : Invariant su d) (h : run su fuel c = some s₁) :
    ∃ u₁, run su fuel d = some u₁ ∧ s₁.tracer.trace = u₁.tracer.trace := by
  have hstart : Locked su Tr c d s₁ c d := ⟨hphase,hlock,hleft,hright,⟨0,rfl,rfl⟩,fuel,h⟩
  obtain ⟨u₁,hu₁,hfin⟩ := run_rel (R := Locked su Tr c d s₁) (fun h => h.phase)
    (fun h hc => tick_locked hstep hfaults hmark h hc) hstart h
  obtain ⟨_,_,_,hp⟩ := hfin.lock
  exact ⟨u₁,hu₁,hp.same.trace⟩

end Steps

end ProteanAmulet
