import ProteanAmulet.Taint.Soundness

/-! Taint soundness of the clause that shows program counters only. The registers that form an
address are not among the sources of the instruction, so what depends on them is lost. -/
namespace ProteanAmulet
open Dependency (All)

/-- The registers that form the addresses of the instruction executed next are tracked.
Whatever input word they depend on, the sources of the instruction depend on it as well, and
the instruction stores nothing at an address that depends on an input word. -/
def AddressTracked (su : Setup) (s : State) : Prop :=
  ∀ insn s' i fl t, Executes su s insn s' →
    su.testCase.addressMap ((s.cpu.rip : ℤ)-su.codeStart) = some i →
    Flows.ofInstruction i = some fl → s.taintTracker = some t →
    ∀ r, i.AddressReg r ∨ i.AgenReg r → r ≠ .BP → ∀ ℓ ∈ t.settle.deps.ofReg r.key,
    ∀ k, TaintTracker.inputOffset su.conf ℓ = some k →
      (∃ ℓ' ∈ (Flows.trackAll su.sandboxBase fl (insn.accesses s.cpu)).srcLabels t.settle.deps,
        TaintTracker.inputOffset su.conf ℓ' = some k) ∧
      (i.AddressReg r → ∀ a ∈ insn.accesses s.cpu, a.isWrite=false)

lemma named_pc {su : Setup} (htr : su.tracer=.pc) (s : State) : Named su s := by
  intro insn tr t _ _ _ r hr
  rw [htr] at hr
  simp [Tracer.instructionExposes] at hr

section Loads
variable {su : Setup} {insn : Insn} {c : Cpu} {s s' u : State}

/-- A load in the first run: only the execution trace and the tracker change. -/
lemma traceMemAccess_pc (hcl : su.clause=.seq) (htr : su.tracer=.pc) {a : Access} {value : ℤ}
    (h : traceMemAccess su s insn a value = some s') :
    Traced s s' ∧ s.tracer.Same s'.tracer ∧
      seqTraceMemAccess su s insn a value = some s' := by
  unfold traceMemAccess at h
  rw [hcl] at h
  refine ⟨seqTraceMemAccess_traced h,?_,h⟩
  obtain ⟨s₁,h₁,h⟩ := Option.bind_eq_some_iff.mp h
  obtain ⟨tt,rfl,-⟩ := track_cases h₁
  unfold observeMemAccess at h
  rw [htr] at h
  simp only [Tracer.accessExposes,State.exposeAll,List.foldlM_nil,Option.pure_def,
    Option.bind_eq_bind,Option.bind_some,Tracer.assertLastPc,if_true] at h
  split at h
  · cases h
    exact ⟨rfl,rfl⟩
  · obtain ⟨tr,htr,h⟩ := Option.bind_eq_some_iff.mp h
    cases h
    obtain ⟨i,-,htr⟩ := Option.bind_eq_some_iff.mp htr
    cases htr
    exact ⟨rfl,rfl⟩

/-- A load in the second run, whatever its address. -/
lemma traceMemAccess_pc_exists (hcl : su.clause=.seq) (htr : su.tracer=.pc)
    (hu : u.taintTracker = none) (hrec : Recordable u) (insn : Insn) (a : Access) (value : ℤ) :
    ∃ u', traceMemAccess su u insn a value = some u' ∧ u'.taintTracker = none ∧
      Recordable u' := by
  unfold traceMemAccess seqTraceMemAccess observeMemAccess
  rw [hcl,htr]
  simp only [track_none hu,Tracer.accessExposes,State.exposeAll,List.foldlM_nil,Option.pure_def,
    Option.bind_eq_bind,Option.bind_some,Tracer.assertLastPc,if_true]
  split
  · exact ⟨u,rfl,hu,hrec⟩
  · rename_i hc
    obtain ⟨hc₁,hc₂⟩ : u.inSpeculation=false ∧ u.executionTracingEnabled=true := by
      simpa using hc
    unfold Tracer.recordAccess
    rw [List.getElem?_eq_getElem (hrec hc₁ hc₂)]
    exact ⟨_,rfl,hu,fun _ _ => by simpa using hrec hc₁ hc₂⟩

lemma TracerState.Same.trans {tr tr' tr'' : TracerState} (h : tr.Same tr') (h' : tr'.Same tr'') :
    tr.Same tr'' :=
  ⟨h.trace.trans h'.trace,h.analysis.trans h'.analysis⟩

/-- The loads of the first run. -/
theorem runLoads_pc (hcl : su.clause=.seq) (htr : su.tracer=.pc) {as : List Access}
    (has : ∀ a ∈ as, a.isWrite=false) {seen seen' : List (List Byte)}
    (h : runAccesses su insn c as seen s = some (seen',s')) :
    Traced s s' ∧ s.tracer.Same s'.tracer ∧ ∀ t i, s.taintTracker = some t →
      t.instruction = some i → ∃ pending, s'.taintTracker = some { t with
        flows := Flows.trackAll t.sandboxBase t.flows as
        pendingTaint := pending } := by
  induction as generalizing s seen with
  | nil =>
    cases h
    exact ⟨Traced.refl _,⟨rfl,rfl⟩,fun t i ht _ => ⟨t.pendingTaint,ht⟩⟩
  | cons a as ih =>
    unfold runAccesses at h
    rw [if_neg (by simp [has a List.mem_cons_self])] at h
    obtain ⟨s₁,h₁,h⟩ := Option.bind_eq_some_iff.mp h
    obtain ⟨ht₁,hs₁,hseq⟩ := traceMemAccess_pc hcl htr h₁
    obtain ⟨ht₂,hs₂,htt⟩ := ih (fun b hb => has b (List.mem_cons_of_mem _ hb)) h
    refine ⟨ht₁.trans ht₂,hs₁.trans hs₂,fun t i ht hi => ?_⟩
    exact htt _ i (seqTraceMemAccess_tracker ht hi hseq) hi

/-- The loads of the second run. -/
theorem runLoads_pc_exists (hcl : su.clause=.seq) (htr : su.tracer=.pc) {as : List Access}
    (has : ∀ a ∈ as, a.isWrite=false) (hu : u.taintTracker = none) (hrec : Recordable u)
    (insn : Insn) (c : Cpu) (seen : List (List Byte)) :
    ∃ seen' u', runAccesses su insn c as seen u = some (seen',u') ∧ u'.taintTracker = none := by
  induction as generalizing u seen with
  | nil => exact ⟨seen,u,rfl,hu⟩
  | cons a as ih =>
    obtain ⟨u₁,h₁,hu₁,hrec₁⟩ := traceMemAccess_pc_exists hcl htr hu hrec insn a 0
    obtain ⟨seen',u',h,hu'⟩ := ih (fun b hb => has b (List.mem_cons_of_mem _ hb)) hu₁ hrec₁
      (seen ++ [Memory.read u₁.mem a.address a.size])
    refine ⟨seen',u',?_,hu'⟩
    unfold runAccesses
    rw [if_neg (by simp [has a List.mem_cons_self]),h₁]
    exact h

end Loads

section Steps
variable {su : Setup} {Tr : Label → Prop} {s u s' u' : State} {t : TaintTracker} {insn : Insn}
  {i : Instruction} {fl : Flows} {tr : TracerState} {F : Flows}

/-- A register whose input words are all among those of trusted labels is trusted. -/
lemma all_of_words (hTr : Trust su Tr) {S : Finset Label} {r : Gpr} {D : Deps}
    (h : ∀ ℓ ∈ D.ofReg r.key, ∀ k, TaintTracker.inputOffset su.conf ℓ = some k →
      ∃ ℓ' ∈ S, TaintTracker.inputOffset su.conf ℓ' = some k) (hS : All Tr S) :
    All Tr (D.ofReg r.key) := by
  intro ℓ hℓ
  refine hTr ℓ fun k hk => ?_
  obtain ⟨ℓ',hℓ',hk'⟩ := h ℓ hℓ k hk
  exact ⟨ℓ',hS ℓ' hℓ',hk'⟩

/-- The sources agree if they are trusted, the registers of an LEA included. -/
lemma sameSources_tracked (htracked : AddressTracked su s) (hTr : Trust su Tr)
    (hf : Flight su Tr Instruction.AgenReg s u s' t insn i fl tr F)
    (hsrc : All Tr (F.srcLabels t.settle.deps)) : SameSources i i.AgenReg s.cpu u.cpu := by
  have h := sameSources_of_trusted hf.covers hf.grows hf.cpus hsrc
  refine ⟨h.rip,fun r hr => ?_,h.flag⟩
  rcases hr with hr | hr
  · exact h.reg r (Or.inl hr)
  · refine hf.cpus.reg r ?_
    by_cases hBP : r=.BP
    · exact Or.inl hBP
    · refine Or.inr (all_of_words hTr (fun ℓ hℓ k hk => ?_) hsrc)
      rw [← hf.flows]
      exact (htracked insn s' i fl t hf.executes hf.mapped hf.collected hf.tracker r (Or.inr hr)
        hBP ℓ hℓ k hk).1

/-- If an address differs, it depends on an input word that is not trusted: nothing is stored,
and the sources are not trusted. -/
lemma loads_of_untracked (htracked : AddressTracked su s) (hTr : Trust su Tr)
    (hf : Flight su Tr Instruction.AgenReg s u s' t insn i fl tr F) {r : Gpr}
    (hr : i.AddressReg r) (hne : s.cpu.reg r ≠ u.cpu.reg r) :
    (∀ a ∈ insn.accesses s.cpu, a.isWrite=false) ∧ ¬ All Tr (F.srcLabels t.settle.deps) := by
  have hBP : r ≠ .BP := by
    rintro rfl
    exact hne (hf.cpus.reg _ (Or.inl rfl))
  have hall : ¬ All Tr (t.settle.deps.ofReg r.key) := fun h => hne (hf.cpus.reg r (Or.inr h))
  have hword := fun ℓ hℓ k hk => htracked insn s' i fl t hf.executes hf.mapped hf.collected
    hf.tracker r (Or.inl hr) hBP ℓ hℓ k hk
  refine ⟨?_,fun hsrc => hall (all_of_words hTr (fun ℓ hℓ k hk => ?_) hsrc)⟩
  · -- Some word of the register is not trusted.
    by_contra hw
    refine hall fun ℓ hℓ => hTr ℓ fun k hk => ?_
    exact absurd ((hword ℓ hℓ k hk).2 hr) hw
  · rw [← hf.flows]
    exact (hword ℓ hℓ k hk).1

/-- Loads at different addresses: the program counters are not concerned, and what is loaded
is not trusted. -/
theorem Flight.accessed_loads {also : Instruction → Gpr → Prop}
    (hf : Flight su Tr also s u s' t insn i fl tr F)
    (hh : Hooked su Tr s s' u' t insn i fl tr F) (hcl : su.clause=.seq) (htr : su.tracer=.pc)
    (hloads : ∀ a ∈ insn.accesses s.cpu, a.isWrite=false)
    (hsrc : ¬ All Tr (F.srcLabels t.settle.deps)) {seen : List (List Byte)} {s'' : State}
    (hacc : runAccesses su insn s.cpu (insn.accesses s.cpu) [] s' = some (seen,s'')) :
    Accessed su Tr t.settle.deps F insn u.cpu seen s'' u' := by
  have hloads' : ∀ a ∈ insn.accesses u.cpu, a.isWrite=false := by
    intro a ha
    have hmem : a.isWrite ∈ (insn.accesses s.cpu).map Access.isWrite := by
      rw [hf.declared.kinds s.cpu u.cpu]
      exact List.mem_map_of_mem ha
    obtain ⟨b,hb,hba⟩ := List.mem_map.mp hmem
    rw [← hba]
    exact hloads b hb
  obtain ⟨ht,hsame,htt⟩ := runLoads_pc hcl htr hloads hacc
  obtain ⟨seenu,u'',hu,hnone⟩ := runLoads_pc_exists hcl htr hloads' hh.pair.untracked
    hh.ready.recordable insn u.cpu []
  obtain ⟨htu,hsameu,-⟩ := runLoads_pc hcl htr hloads' hu
  obtain ⟨pending,ht''⟩ := htt _ i hh.inFlight rfl
  have hbase : (t.inFlight su s.cpu.rip insn i fl tr).sandboxBase = su.sandboxBase :=
    t.settle_sandboxBase.trans hf.base
  refine ⟨seenu,u'',hu,fun h => absurd h hsrc,_,ht'',hbase,?_,?_⟩
  · rw [← hf.flows,← hbase]
    rfl
  · refine ⟨hh.pair.toTwin.traced ht htu,⟨?_,?_⟩,hnone⟩
    · exact hsame.trace.symm.trans (hh.pair.same.trace.trans hsameu.trace)
    · exact hsame.analysis.symm.trans (hh.pair.same.analysis.trans hsameu.analysis)

/-- A step under the clause that shows program counters only. -/
theorem emuStep_pc (hcl : su.clause=.seq) (htr : su.tracer=.pc)
    (hdecl : ∀ {address insn i}, su.testCase.fetch address = some insn →
      su.testCase.addressMap ((address : ℤ)-su.codeStart) = some i → Declared i i.AgenReg insn)
    (hTr : Trust su Tr) (hsize : 8*su.conf.dataSize<2^64) (htracked : AddressTracked su s)
    (hin : AccessesInData su s) : Tracks su Tr s := by
  intro u o hlock halike ho hmark
  have hk : su.tracer ≠ .prot := by simp [htr]
  refine emuStep_locked Instruction.AgenReg hk (fun _ _ _ => ?_) hdecl ?_ hTr hlock halike
    (quiet_of_clause (by rw [hcl]; rfl) (by simp [hcl]) s) (named_pc htr s)
    (sameSources_tracked htracked hTr) ?_ ho hmark
  · rw [htr]
    exact List.mem_cons_self
  · rintro (h | h) <;> simp [hcl] at h
  intro s' u' t insn i fl tr F hf hh hne seen s'' hacc
  by_cases haddr : ∀ r, i.AddressReg r → s.cpu.reg r = u.cpu.reg r
  · refine hf.accessed hh hk hsize ?_ (sameSources_tracked htracked hTr hf)
      (hin.flight hf.executes hh.cpu) ?_ haddr hacc
    · simp [hcl,Clause.bypasses]
    · intro a ha b address size hm
      rw [htr] at hm
      cases hm
  · push Not at haddr
    obtain ⟨r,hr,hne⟩ := haddr
    obtain ⟨hloads,hsrc⟩ := loads_of_untracked htracked hTr hf hr hne
    exact hf.accessed_loads hh hcl htr hloads hsrc hacc

end Steps

/-- The program-counter clause: every input that agrees on the tainted words executes the same
sequence of program counters, as long as the registers that form addresses are tracked. -/
theorem getTaints_sound_pc {su : Setup} {fuel n : ℕ} {i j : Input su.conf}
    {taint : InputTaint su.conf} (hcl : su.clause=.seq) (htr : su.tracer=.pc)
    (hdecl : ∀ {address insn i}, su.testCase.fetch address = some insn →
      su.testCase.addressMap ((address : ℤ)-su.codeStart) = some i → Declared i i.AgenReg insn)
    (hdata : ∀ c, begin su i (trackedModel n) = some c →
      ∀ c', Visits su c c' → AccessesInData su c'.state)
    (htracked : ∀ c, begin su i (trackedModel n) = some c →
      ∀ c', Visits su c c' → AddressTracked su c'.state)
    (hfaults : ∀ c d, begin su i (trackedModel n) = some c →
      begin su j (tracedModel n) = some d → SameFaults su c d) {s' : State}
    (h : getTaints su fuel State.fresh [i] n = some ([taint],s'))
    (hij : ∀ k, taint.tainted k = true → i.get k = j.get k) :
    ∃ trace s₁ s₂, traceTestCase su fuel State.fresh [i] n = some ([trace],s₁) ∧
      traceTestCase su fuel State.fresh [j] n = some ([trace],s₂) := by
  refine getTaints_sound (by simp [htr]) (covered_seq hcl) ?_ hfaults h hij
  intro hsize Tr hTr c hc c' hv
  exact emuStep_pc hcl htr hdecl hTr hsize (htracked c hc c' hv) (hdata c hc c' hv)

section Witnesses
open Asm

/-- The registers in the address operands. -/
def addressOperands (i : Instruction) : List Gpr :=
  i.allOperands.flatMap fun
    | .mem names _ _ | .agen names => names.filterMap RegName.full
    | _ => []

lemma mem_addressOperands {i : Instruction} {r : Gpr} (h : i.AddressReg r ∨ i.AgenReg r) :
    r ∈ addressOperands i := by
  rcases h with ⟨n,⟨names,src,dest,hop,hn⟩,hr⟩ | ⟨names,n,hop,hn,hr⟩
  · exact List.mem_flatMap.mpr ⟨_,hop,List.mem_filterMap.mpr ⟨n,hn,hr⟩⟩
  · exact List.mem_flatMap.mpr ⟨_,hop,List.mem_filterMap.mpr ⟨n,hn,hr⟩⟩

/-- No address of the instruction executed next depends on the input. -/
def addressFixed (su : Setup) (s : State) : Bool :=
  (su.testCase.addressMap ((s.cpu.rip : ℤ)-su.codeStart)).all fun i =>
    s.taintTracker.all fun t => (addressOperands i).all fun r =>
      decide (∀ ℓ ∈ t.settle.deps.ofReg r.key, TaintTracker.inputOffset su.conf ℓ = none)

lemma addressTracked_of_fixed {su : Setup} {s : State} (h : addressFixed su s = true) :
    AddressTracked su s := by
  intro insn s' i fl t _ hi _ ht r hr _ ℓ hℓ k hk
  unfold addressFixed at h
  rw [hi,ht] at h
  have h' := of_decide_eq_true (List.all_eq_true.mp h r (mem_addressOperands hr)) ℓ hℓ
  rw [h'] at hk
  cases hk

lemma lea_agenDeclared (dst base : Gpr) :
    Declared (lea dst base).instruction (lea dst base).instruction.AgenReg (lea dst base).insn :=
  lea_declared dst base ⟨[.gpr .w64 base],.gpr .w64 base,by simp [lea,Instruction.allOperands],
    List.mem_singleton_self _,rfl⟩

/-- Addresses that do not depend on the input, and a branch on what is loaded. -/
def leaLoadCode : List Line :=
  [lea .B .R14,load .A .R14 none 0x40,test .A,jz 1,nop,nop]

/-- The branch is on the loaded word, and the word after it is not tainted. -/
theorem getTaints_sound_pc_leaLoad :
    ∃ trace s₁ s₂,
      traceTestCase (setup .seq .pc leaLoadCode) 20 State.fresh [input [(8,16)]] 0 =
        some ([trace],s₁) ∧
      traceTestCase (setup .seq .pc leaLoadCode) 20 State.fresh [input ([(8,16)] ++ [(9,7)])] 0 =
        some ([trace],s₂) := by
  obtain ⟨taint,s',h,h₉⟩ := getTaints_word (setup .seq .pc leaLoadCode) 20 0 (input [(8,16)])
    ⟨9,by decide⟩ false (by decide +kernel)
  refine getTaints_sound_pc rfl rfl (fun {_ _ _} hf hi => ?_) (begin_inData 20 (by decide +kernel))
    ?_ (begin_sameFaults 20 (by decide +kernel) (by decide +kernel)) h (agree_of_untainted h₉)
  · obtain ⟨l,hl,rfl,rfl⟩ := fetch_line hf hi
    simp only [leaLoadCode,List.mem_cons,List.not_mem_nil,or_false] at hl
    rcases hl with rfl | rfl | rfl | rfl | rfl | rfl
    · exact lea_agenDeclared _ _
    · exact load_declared _ _ _ _
    · exact test_declared _
    · exact jz_declared _
    · exact nop_declared
    · exact nop_declared
  · intro c hc c' hv
    have hall : (begin (setup .seq .pc leaLoadCode) (input [(8,16)]) (trackedModel 0)).all
        (holds (setup .seq .pc leaLoadCode) (addressFixed (setup .seq .pc leaLoadCode)) 20) =
          true := by decide +kernel
    rw [hc] at hall
    exact addressTracked_of_fixed (holds_visits hall hv)

/-- A branch on the result of an LEA. -/
def leaCode : List Line := [lea .B .A,test .B,jz 1,nop,nop]

/-- The register that LEA copies is not tainted, and yet it decides the branch. -/
theorem getTaints_unsound_pc :
    ∃ (su : Setup) (i j : Input su.conf) (taint : InputTaint su.conf), su.clause=.seq ∧
      su.tracer=.pc ∧
      (∀ {address insn i}, su.testCase.fetch address = some insn →
        su.testCase.addressMap ((address : ℤ)-su.codeStart) = some i →
          Declared i i.AgenReg insn) ∧
      (∀ c, begin su i (trackedModel 0) = some c →
        ∀ c', Visits su c c' → AccessesInData su c'.state) ∧
      (∃ s', getTaints su 20 State.fresh [i] 0 = some ([taint],s')) ∧
      (∀ k, taint.tainted k = true → i.get k = j.get k) ∧
      ∃ trace trace' s₁ s₂, traceTestCase su 20 State.fresh [i] 0 = some ([trace],s₁) ∧
        traceTestCase su 20 State.fresh [j] 0 = some ([trace'],s₂) ∧ trace ≠ trace' := by
  obtain ⟨taint,s',h,hA⟩ := getTaints_word (setup .seq .pc leaCode) 20 0 (input [])
    ⟨1024,by decide⟩ false (by decide +kernel)
  refine ⟨setup .seq .pc leaCode,input [],input ([] ++ [(1024,5)]),taint,rfl,rfl,
    fun {_ _ _} hf hi => ?_,begin_inData 20 (by decide +kernel),⟨s',h⟩,agree_of_untainted hA,
    traces_differ 3 (.pc 0x400009) (.pc 0x400008) (by decide +kernel) (by decide +kernel)
      (by decide)⟩
  obtain ⟨l,hl,rfl,rfl⟩ := fetch_line hf hi
  simp only [leaCode,List.mem_cons,List.not_mem_nil,or_false] at hl
  rcases hl with rfl | rfl | rfl | rfl | rfl
  · exact lea_agenDeclared _ _
  · exact test_declared _
  · exact jz_declared _
  · exact nop_declared
  · exact nop_declared

end Witnesses

end ProteanAmulet
