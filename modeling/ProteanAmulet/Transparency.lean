import ProteanAmulet.Trailing

/-! Architectural transparency: what a speculative clause records outside of speculation, and
the state it ends in, against the sequential clause. The sequential run waits while the
speculative one is on a transient path. -/
namespace ProteanAmulet

/-- The tracers have recorded the same instructions. -/
structure TracerState.Alike (tr tr' : TracerState) : Prop where
  executionTrace : tr.executionTrace = tr'.executionTrace
  instructionId : tr.instructionId = tr'.instructionId
  analysis : tr.analysis = tr'.analysis

namespace TracerState.Alike
variable {tr tr' tr'' : TracerState}

lemma refl (tr : TracerState) : tr.Alike tr := ⟨rfl,rfl,rfl⟩

lemma symm (h : tr.Alike tr') : tr'.Alike tr :=
  ⟨h.executionTrace.symm,h.instructionId.symm,h.analysis.symm⟩

lemma trans (h : tr.Alike tr') (h' : tr'.Alike tr'') : tr.Alike tr'' :=
  ⟨h.executionTrace.trans h'.executionTrace,h.instructionId.trans h'.instructionId,
    h.analysis.trans h'.analysis⟩

end TracerState.Alike

/-- `CTSTracer` has analysed the binary. -/
def TracerState.Analyzed (k : Tracer) (tr : TracerState) : Prop := k=.cts → tr.analysis.isSome

section Observations
variable {su : Setup} {s u : State} {tr tr' : TracerState} {address : ℕ} {insn : Insn}

lemma noteInstruction_alike (k : Tracer) (tr : TracerState) (address : ℕ) (insn : Insn) :
    tr.Alike (k.noteInstruction tr address insn) := by
  cases k <;> exact ⟨rfl,rfl,rfl⟩

lemma analyze_analyzed (h : tr.Analyzed su.tracer) :
    su.tracer.analyze su.testCase tr address = some tr := by
  unfold Tracer.analyze
  split
  · rename_i hk ha
    have h' := h hk
    rw [ha] at h'
    cases h'
  · rfl

lemma analyze_alike {tr₁ tr₂ : TracerState} (h : tr₁.Alike tr₂)
    (ha : su.tracer.analyze su.testCase tr₁ address = some tr) :
    ∃ tr', su.tracer.analyze su.testCase tr₂ address = some tr' ∧ tr.Alike tr' ∧
      tr.Analyzed su.tracer := by
  unfold Tracer.analyze at ha ⊢
  rw [← h.analysis]
  split at ha
  · obtain ⟨d,hd,ha⟩ := Option.bind_eq_some_iff.mp ha
    cases ha
    exact ⟨{ tr₂ with analysis := some d },by rw [hd]; rfl,
      ⟨h.executionTrace,h.instructionId,rfl⟩,fun _ => rfl⟩
  · rename_i hne
    cases ha
    refine ⟨tr₂,rfl,h,fun hk => ?_⟩
    exact Option.isSome_iff_ne_none.mpr fun hd => hne hk hd

/-- The tracer once everything that the instruction shows is on the trace. -/
def shown (su : Setup) (s : State) (tr : TracerState) (address : ℕ) (insn : Insn) :
    TracerState :=
  su.tracer.noteInstruction { tr with trace :=
    (su.tracer.instructionExposes tr address insn).foldl (s.emit su.tracer) tr.trace } address insn

lemma shown_alike (su : Setup) (s : State) (tr : TracerState) (address : ℕ) (insn : Insn) :
    tr.Alike (shown su s tr address insn) := by
  have h := noteInstruction_alike su.tracer { tr with trace :=
    (su.tracer.instructionExposes tr address insn).foldl (s.emit su.tracer) tr.trace } address insn
  exact ⟨h.executionTrace,h.instructionId,h.analysis⟩

lemma shown_lastPc (hk : su.tracer=.prot) (s : State) (tr : TracerState) :
    (shown su s tr address insn).lastPc = address := by
  unfold shown
  rw [hk]
  rfl

/-- The tracer after `observe_instruction`. -/
def observed (su : Setup) (s : State) (tr : TracerState) (address : ℕ) (insn : Insn) :
    TracerState :=
  if s.inSpeculation || !s.executionTracingEnabled then shown su s tr address insn
  else Tracer.recordInstruction (shown su s tr address insn) ((address : ℤ)-su.codeStart)

/-- `observe_instruction` without a taint tracker. -/
lemma observeInstruction_none (hs : s.taintTracker = none) :
    observeInstruction su s address insn =
      (su.tracer.analyze su.testCase s.tracer address).map fun tr =>
        { s with tracer := observed su s tr address insn } := by
  unfold observeInstruction
  cases su.tracer.analyze su.testCase s.tracer address with
  | none => rfl
  | some tr =>
    have hex := exposeAll_none (k := su.tracer) (u := { s with tracer := tr }) hs
      (su.tracer.instructionExposes tr address insn)
    have hemit : State.emit su.tracer { s with tracer := tr } = s.emit su.tracer := by
      funext trace e
      cases e <;> rfl
    rw [hemit] at hex
    simp only [Option.bind_eq_bind,Option.bind_some,hex,Option.map_some,State.setTrace,observed,
      shown]
    split <;> rfl

/-- `observe_mem_access` in speculation only shows something. -/
lemma observeMemAccess_transient (hs : s.taintTracker = none) (hspec : s.inSpeculation=true)
    {a : Access} {value : ℤ} {s' : State} (h : observeMemAccess su s insn a value = some s') :
    ∃ trace, s' = s.setTrace trace := by
  unfold observeMemAccess at h
  simp only [Option.bind_eq_bind,exposeAll_none hs,Option.bind_some] at h
  split at h
  · rw [if_pos (by simp [State.setTrace,hspec])] at h
    cases h
    exact ⟨_,rfl⟩
  · cases h

/-- `observe_mem_access` outside of speculation records the same access in both runs. -/
lemma observeMemAccess_alike (hs : s.taintTracker = none) (hu : u.taintTracker = none)
    (hspec : s.inSpeculation = u.inSpeculation)
    (hen : s.executionTracingEnabled = u.executionTracingEnabled) (hcpu : s.cpu = u.cpu)
    (hmem : s.mem = u.mem) (ht : s.tracer.Alike u.tracer)
    (hlast : su.tracer=.prot → s.tracer.lastPc = u.tracer.lastPc) {a : Access} {value : ℤ}
    {s' : State} (h : observeMemAccess su s insn a value = some s') :
    ∃ tr tr', s' = { s with tracer := tr } ∧
      observeMemAccess su u insn a value = some { u with tracer := tr' } ∧ tr.Alike tr' ∧
      tr.lastPc = s.tracer.lastPc ∧ tr'.lastPc = u.tracer.lastPc := by
  unfold observeMemAccess at h ⊢
  simp only [Option.bind_eq_bind,exposeAll_none hs,exposeAll_none hu,Option.bind_some] at h ⊢
  have hassert : ∀ t t', su.tracer.assertLastPc (s.setTrace t).tracer (s.setTrace t).cpu.rip a =
      su.tracer.assertLastPc (u.setTrace t').tracer (u.setTrace t').cpu.rip a := by
    intro t t'
    unfold Tracer.assertLastPc State.setTrace
    cases hk : su.tracer <;> simp only [hcpu,hlast,hk]
  rw [← hassert (List.foldl (State.emit su.tracer s) s.tracer.trace
    (su.tracer.accessExposes s.inSpeculation insn a))]
  split at h
  · rename_i hok
    rw [if_pos hok]
    split at h
    · rename_i hc
      cases h
      rw [if_pos (by simpa [State.setTrace,hspec,hen] using hc)]
      exact ⟨_,_,rfl,rfl,⟨ht.executionTrace,ht.instructionId,ht.analysis⟩,rfl,rfl⟩
    · rename_i hc
      rw [if_neg (by simpa [State.setTrace,hspec,hen] using hc)]
      obtain ⟨tr,htr,h⟩ := Option.bind_eq_some_iff.mp h
      cases h
      obtain ⟨i,hi,htr⟩ := Option.bind_eq_some_iff.mp htr
      cases htr
      have hi' : u.tracer.executionTrace[u.tracer.instructionId]? = some i := by
        rw [← ht.executionTrace,← ht.instructionId]
        exact hi
      unfold Tracer.recordAccess
      simp only [State.setTrace,hi',Option.bind_eq_bind,Option.bind_some]
      refine ⟨_,_,rfl,rfl,⟨?_,ht.instructionId,ht.analysis⟩,rfl,rfl⟩
      simp only [ht.executionTrace,ht.instructionId,hmem]
  · cases h

end Observations

/-- What a state on a transient path keeps. -/
structure Wandering (su : Setup) (s : State) : Prop where
  untracked : s.taintTracker = none
  inSpeculation : s.inSpeculation=true
  analyzed : s.tracer.Analyzed su.tracer

/-- The second state is further on a transient path: the checkpoints of the first one are still
open and nothing was recorded. -/
structure Apart (s s' : State) : Prop where
  checkpoints : ∃ new, s'.checkpoints = new ++ s.checkpoints
  alike : s.tracer.Alike s'.tracer
  untracked : s'.taintTracker = none
  inSpeculation : s'.inSpeculation=true
  enabled : s.executionTracingEnabled = s'.executionTracingEnabled

namespace Apart
variable {su : Setup} {s s' s'' : State}

lemma refl (h : Wandering su s) : Apart s s :=
  ⟨⟨[],rfl⟩,.refl _,h.untracked,h.inSpeculation,rfl⟩

lemma trans (h : Apart s s') (h' : Apart s' s'') : Apart s s'' := by
  obtain ⟨new,hnew⟩ := h.checkpoints
  obtain ⟨new',hnew'⟩ := h'.checkpoints
  refine ⟨⟨new' ++ new,?_⟩,h.alike.trans h'.alike,h'.untracked,h'.inSpeculation,
    h.enabled.trans h'.enabled⟩
  rw [hnew',hnew,List.append_assoc]

lemma wandering (h : Apart s s') (hw : Wandering su s) : Wandering su s' := by
  refine ⟨h.untracked,h.inSpeculation,fun hk => ?_⟩
  rw [← h.alike.analysis]
  exact hw.analyzed hk

lemma setMem (h : Apart s s') (m : Mem) : Apart s { s' with mem := m } := { h with }

lemma setCpu (h : Apart s s') (c : Cpu) : Apart s { s' with cpu := c } := { h with }

/-- A new checkpoint, and changes to registers, memory and logs. -/
lemma opened (h : Wandering su s) (next : ℕ)
    (hc : s'.checkpoints = (s.opened next).checkpoints) (htr : s'.tracer = s.tracer)
    (htt : s'.taintTracker = s.taintTracker.map TaintTracker.checkpoint)
    (hs : s'.inSpeculation=true)
    (he : s'.executionTracingEnabled = s.executionTracingEnabled) : Apart s s' := by
  refine ⟨⟨[_],hc⟩,by rw [htr]; exact .refl _,?_,hs,he.symm⟩
  rw [htt,h.untracked]
  rfl

theorem seqTraceInstruction {i : Instruction} {address : ℕ} {insn : Insn} (h : Wandering su s)
    (hs : seqTraceInstruction su s i address insn = some s') : Apart s s' := by
  unfold ProteanAmulet.seqTraceInstruction at hs
  rw [track_none h.untracked,Option.bind_eq_bind,Option.bind_some,
    observeInstruction_none h.untracked,analyze_analyzed h.analyzed] at hs
  cases hs
  refine ⟨⟨[],rfl⟩,?_,h.untracked,h.inSpeculation,rfl⟩
  unfold observed
  rw [h.inSpeculation]
  exact shown_alike _ _ _ _ _

theorem mispredicted (h : Wandering su s) (next : ℕ) (d : ℕ × Bool × Bool) :
    Apart s (X86UnicornCond.mispredicted s next d) := by
  obtain ⟨target,willJump,isLoop⟩ := d
  unfold X86UnicornCond.mispredicted
  cases isLoop <;>
    exact ⟨⟨[_],rfl⟩,.refl _,by simp [State.opened,h.untracked],rfl,rfl⟩

theorem cond {address : ℕ} {insn : Insn} (h : Wandering su s)
    (hs : X86UnicornCond.speculateInstruction s address insn = some s') : Apart s s' := by
  rw [X86UnicornCond.speculateInstruction_eq] at hs
  split at hs
  · cases hs
    exact refl h
  · obtain ⟨d,-,rfl⟩ := Option.map_eq_some_iff.mp hs
    split
    · exact refl h
    · exact mispredicted h _ d

theorem bpas {address : ℕ} (h : Wandering su s)
    (hs : X86UnicornBpas.speculateInstruction s address = some s') :
    Apart s s' ∧ s'.cpu = s.cpu ∧ s'.stopRequested = s.stopRequested := by
  rw [X86UnicornBpas.speculateInstruction_eq] at hs
  split at hs
  · cases hs
    exact ⟨refl h,rfl,rfl⟩
  · split at hs
    · cases hs
      exact ⟨⟨⟨[],rfl⟩,.refl _,h.untracked,h.inSpeculation,rfl⟩,rfl,rfl⟩
    · obtain ⟨bs,-,rfl⟩ := Option.map_eq_some_iff.mp hs
      exact ⟨opened h address rfl rfl rfl rfl rfl,rfl,rfl⟩

theorem speculateInstruction {address : ℕ} {insn : Insn} (h : Wandering su s)
    (hs : speculateInstruction su s address insn = some s') : Apart s s' := by
  unfold ProteanAmulet.speculateInstruction at hs
  cases hcl : su.clause <;> rw [hcl] at hs
  case seq =>
    cases hs
    exact refl h
  case cond => exact cond h hs
  case bpas => exact (bpas h hs).1
  case null =>
    cases hs
    exact ⟨⟨[],rfl⟩,.refl _,h.untracked,h.inSpeculation,rfl⟩
  case condBpas =>
    obtain ⟨s₁,h₁,hs⟩ := Option.bind_eq_some_iff.mp hs
    have hc := cond h h₁
    exact hc.trans (bpas (hc.wandering h) hs).1

theorem instructionHook {address : ℕ} {insn : Insn} (h : Wandering su s)
    (hs : instructionHook su s address insn = some s') : Apart s s' := by
  rw [instructionHook_eq] at hs
  obtain ⟨i,-,hs⟩ := Option.bind_eq_some_iff.mp hs
  obtain ⟨s₁,h₁,hs⟩ := Option.bind_eq_some_iff.mp hs
  obtain ⟨w,b,hc⟩ := counted_eq su s i
  rw [hc] at h₁
  have ha : Apart s { s with speculationWindow := w, stopRequested := b } :=
    ⟨⟨[],rfl⟩,.refl _,h.untracked,h.inSpeculation,rfl⟩
  have ha₁ := ha.trans (seqTraceInstruction (ha.wandering h) h₁)
  exact ha₁.trans (speculateInstruction (ha₁.wandering h) hs)

theorem traceMemAccess {insn : Insn} {a : Access} {value : ℤ} (h : Wandering su s)
    (hs : traceMemAccess su s insn a value = some s') :
    Apart s s' ∧ s'.stopRequested = s.stopRequested := by
  rw [traceMemAccess_eq] at hs
  obtain ⟨s₁,h₁,hs⟩ := Option.bind_eq_some_iff.mp hs
  obtain ⟨l,hl⟩ := logged_eq su s a
  rw [hl] at h₁
  unfold seqTraceMemAccess at h₁
  rw [track_none (by exact h.untracked),Option.bind_eq_bind,Option.bind_some] at h₁
  obtain ⟨trace,rfl⟩ := observeMemAccess_transient (by exact h.untracked)
    (by exact h.inSpeculation) h₁
  have ha : Apart s (State.setTrace { s with storeLogs := l } trace) :=
    ⟨⟨[],rfl⟩,⟨rfl,rfl,rfl⟩,h.untracked,h.inSpeculation,rfl⟩
  cases hw : a.isWrite with
  | true =>
    rw [speculateMemAccess_store su _ insn value hw] at hs
    cases hs
    refine ⟨ha.trans ?_,by split <;> rfl⟩
    split
    · exact ⟨⟨[],rfl⟩,.refl _,h.untracked,h.inSpeculation,rfl⟩
    · exact refl (ha.wandering h)
  | false =>
    rw [speculateMemAccess_load su _ insn value hw] at hs
    cases hs
    refine ⟨ha.trans ?_,by split <;> rfl⟩
    split
    · exact opened (ha.wandering h) _ rfl rfl rfl rfl rfl
    · exact refl (ha.wandering h)

theorem runAccesses {insn : Insn} {c : Cpu} {as : List Access} {seen seen' : List (List Byte)}
    (h : Wandering su s) (hs : runAccesses su insn c as seen s = some (seen',s')) :
    Apart s s' ∧ s'.stopRequested = s.stopRequested := by
  induction as generalizing s seen with
  | nil =>
    cases hs
    exact ⟨refl h,rfl⟩
  | cons a as ih =>
    unfold ProteanAmulet.runAccesses at hs
    split at hs <;> obtain ⟨s₁,h₁,hs⟩ := Option.bind_eq_some_iff.mp hs <;>
      obtain ⟨ha,hstop⟩ := traceMemAccess h h₁
    · have ha' := ha.setMem (Memory.write s₁.mem a.address (leBytes (insn.storeValue c seen) a.size))
      obtain ⟨hr,hstop'⟩ := ih (ha'.wandering h) hs
      exact ⟨ha'.trans hr,hstop'.trans hstop⟩
    · obtain ⟨hr,hstop'⟩ := ih (ha.wandering h) hs
      exact ⟨ha.trans hr,hstop'.trans hstop⟩

/-- A step on a transient path. -/
theorem emuStep {o : Outcome} (h : Wandering su s) (hstop : s.stopRequested=false)
    (ho : emuStep su s = some o) : Apart s o.state ∧ o.state.stopRequested=false := by
  unfold ProteanAmulet.emuStep at ho
  split at ho
  · cases ho
    exact ⟨refl h,hstop⟩
  split at ho
  · cases ho
    exact ⟨refl h,hstop⟩
  obtain ⟨s₁,h₁,ho⟩ := Option.bind_eq_some_iff.mp ho
  have ha := instructionHook h h₁
  unfold execute at ho
  split at ho
  · cases ho
    exact ⟨⟨ha.checkpoints,ha.alike,ha.untracked,ha.inSpeculation,ha.enabled⟩,rfl⟩
  rename_i hgo
  have hstop₁ : s₁.stopRequested=false := by simpa using hgo
  split at ho
  · cases ho
    exact ⟨ha,hstop₁⟩
  obtain ⟨⟨seen,s₂⟩,h₂,ho⟩ := Option.bind_eq_some_iff.mp ho
  obtain ⟨hr,hstop₂⟩ := runAccesses (ha.wandering h) h₂
  have ha₂ := ha.trans hr
  dsimp only at ho
  split at ho <;> cases ho
  · exact ⟨ha₂,hstop₂.trans hstop₁⟩
  · exact ⟨ha₂.setCpu _,hstop₂.trans hstop₁⟩

end Apart

/-- The instruction executed next, if it is executed outside of speculation, does not fault.
If a checkpoint can be opened, a branch is decoded exactly, no store is bypassed unless the
branch is predicted as well, and no load is injected with zeros. -/
structure Transparent (su : Setup) (s : State) : Prop where
  faults : s.checkpoints=[] → ∀ s', emuStep su s ≠ some (.fault s')
  branch : s.checkpoints=[] → 0<s.nesting → su.clause=.cond ∨ su.clause=.condBpas →
    s.cpu.rip ≠ su.codeEnd → ∀ insn, su.testCase.fetch s.cpu.rip = some insn →
    ∀ d, X86UnicornCond.decode insn.bytes s.cpu.eflags (s.cpu.reg .C) = some d → d.1 ≠ 0 →
      ExactBranch insn s.cpu d
  bypass : s.checkpoints=[] → 0<s.nesting → su.clause.bypasses → s.cpu.rip ≠ su.codeEnd →
    s.previousStore.address ≠ 0 → ∀ insn, su.testCase.fetch s.cpu.rip = some insn →
      su.clause=.condBpas ∧ ∃ d,
        X86UnicornCond.decode insn.bytes s.cpu.eflags (s.cpu.reg .C) = some d ∧ d.1 ≠ 0
  inject : s.checkpoints=[] → 0<s.nesting → su.clause=.null → s.cpu.rip ≠ su.codeEnd →
    s.cpu.rip ≠ s.latestRollbackAddress → ∀ insn, su.testCase.fetch s.cpu.rip = some insn →
      ∀ a ∈ insn.accesses s.cpu, a.isWrite=true

/-- What the speculative run always has in common with the sequential one. -/
structure Beside (s u : State) : Prop where
  alike : s.tracer.Alike u.tracer
  untracked : s.taintTracker = none ∧ u.taintTracker = none
  enabled : s.executionTracingEnabled = u.executionTracingEnabled
  running : s.stopRequested=false ∧ u.stopRequested=false
  sequential : u.inSpeculation=false

/-- Outside of speculation the two runs are in the same state. -/
structure Arch (s u : State) : Prop extends Beside s u where
  cpu : s.cpu = u.cpu
  mem : s.mem = u.mem
  checkpoints : s.checkpoints=[]
  inSpeculation : s.inSpeculation=false

/-- In speculation, the sequential run is where the first checkpoint leads back to. -/
structure Away (su : Setup) (s u : State) : Prop extends Beside s u where
  bottom : ∃ cps cp, s.checkpoints = cps ++ [cp] ∧
    { cp.atCall.cpu with rip := cp.nextInstruction } = u.cpu ∧ cp.atCall.mem = u.mem
  wandering : Wandering su s

section Architectural
variable {su : Setup} {s s' u : State} {insn : Insn} {address : ℕ}

lemma Away.apart (h : Away su s u) (ha : Apart s s') (hstop : s'.stopRequested=false) :
    Away su s' u := by
  obtain ⟨cps,cp,hc,hcpu,hmem⟩ := h.bottom
  obtain ⟨new,hnew⟩ := ha.checkpoints
  refine ⟨⟨ha.alike.symm.trans h.alike,⟨ha.untracked,h.untracked.2⟩,ha.enabled.symm.trans h.enabled,
    ⟨hstop,h.running.2⟩,h.sequential⟩,⟨new ++ cps,cp,?_,hcpu,hmem⟩,ha.wandering h.wandering⟩
  rw [hnew,hc,List.append_assoc]

lemma Arch.setMem (h : Arch s u) (m : Mem) : Arch { s with mem := m } { u with mem := m } :=
  ⟨⟨h.alike,h.untracked,h.enabled,h.running,h.sequential⟩,h.cpu,rfl,h.checkpoints,h.inSpeculation⟩

lemma Arch.setCpu (h : Arch s u) (c : Cpu) : Arch { s with cpu := c } { u with cpu := c } :=
  ⟨⟨h.alike,h.untracked,h.enabled,h.running,h.sequential⟩,rfl,h.mem,h.checkpoints,h.inSpeculation⟩

/-- The instruction is recorded in both runs. -/
theorem Arch.seqTraceInstruction {i : Instruction} (h : Arch s u)
    (hs : seqTraceInstruction su s i address insn = some s') :
    ∃ u', seqTraceInstruction su u i address insn = some u' ∧ Arch s' u' ∧
      (su.tracer=.prot → s'.tracer.lastPc = u'.tracer.lastPc) ∧
      s'.tracer.Analyzed su.tracer ∧ Traced s s' := by
  have ht := seqTraceInstruction_traced hs
  unfold ProteanAmulet.seqTraceInstruction at hs ⊢
  simp only [track_none h.untracked.1,track_none h.untracked.2,Option.bind_eq_bind,
    Option.bind_some,observeInstruction_none h.untracked.1,
    observeInstruction_none h.untracked.2] at hs ⊢
  obtain ⟨tr,htr,rfl⟩ := Option.map_eq_some_iff.mp hs
  obtain ⟨tr',htr',hal,han⟩ := analyze_alike h.alike htr
  have hal' := ((shown_alike su s tr address insn).symm.trans hal).trans
    (shown_alike su u tr' address insn)
  have hrec : (observed su s tr address insn).Alike (observed su u tr' address insn) := by
    unfold observed Tracer.recordInstruction
    rw [h.inSpeculation,h.sequential,h.enabled]
    split
    · exact hal'
    · exact ⟨by rw [hal'.executionTrace],by rw [hal'.executionTrace],hal'.analysis⟩
  have hpc : su.tracer=.prot → (observed su s tr address insn).lastPc =
      (observed su u tr' address insn).lastPc := by
    intro hk
    have hl : ∀ s tr, (observed su s tr address insn).lastPc = address := by
      intro s tr
      unfold observed
      split <;> exact shown_lastPc hk s tr
    rw [hl,hl]
  rw [htr']
  refine ⟨_,rfl,⟨⟨hrec,h.untracked,h.enabled,h.running,h.sequential⟩,h.cpu,h.mem,
    h.checkpoints,h.inSpeculation⟩,hpc,fun hk => ?_,ht⟩
  have ha : (observed su s tr address insn).analysis = tr.analysis := by
    unfold observed
    split <;> exact (shown_alike su s tr address insn).analysis.symm
  dsimp only
  rw [ha]
  exact han hk

/-- The loads are not injected with zeros. -/
def Uninjected (su : Setup) (s : State) (as : List Access) : Prop :=
  su.clause=.null → 0<s.nesting → s.instructionAddress ≠ s.latestRollbackAddress →
    ∀ a ∈ as, a.isWrite=true

/-- An access is recorded in both runs. -/
theorem Arch.traceMemAccess {a : Access} {value : ℤ} (h : Arch s u)
    (hlast : su.tracer=.prot → s.tracer.lastPc = u.tracer.lastPc)
    (hin : Uninjected su s [a]) (hs : traceMemAccess su s insn a value = some s') :
    ∃ u', traceMemAccess su.sequential u insn a value = some u' ∧ Arch s' u' ∧
      (su.tracer=.prot → s'.tracer.lastPc = u'.tracer.lastPc) ∧
      ∀ as, Uninjected su s as → Uninjected su s' as := by
  rw [traceMemAccess_eq] at hs
  obtain ⟨s₁,h₁,hs⟩ := Option.bind_eq_some_iff.mp hs
  obtain ⟨l,hl⟩ := logged_eq su s a
  rw [hl] at h₁
  unfold seqTraceMemAccess at h₁
  rw [track_none (by exact h.untracked.1),Option.bind_eq_bind,Option.bind_some] at h₁
  obtain ⟨tr,tr',rfl,hu',hal,hl₁,hl₂⟩ := observeMemAccess_alike (by exact h.untracked.1)
    h.untracked.2 (by exact h.inSpeculation.trans h.sequential.symm) (by exact h.enabled)
    (by exact h.cpu) (by exact h.mem) (by exact h.alike) (by exact hlast) h₁
  have hlast' : su.tracer=.prot → tr.lastPc = tr'.lastPc := by
    intro hk
    rw [hl₁,hl₂]
    exact hlast hk
  have hb : Beside { s with storeLogs := l, tracer := tr } { u with tracer := tr' } :=
    ⟨hal,h.untracked,h.enabled,h.running,h.sequential⟩
  refine ⟨{ u with tracer := tr' },?_,?_⟩
  · unfold ProteanAmulet.traceMemAccess seqTraceMemAccess
    simp only [Setup.sequential,track_none h.untracked.2,Option.bind_eq_bind,Option.bind_some]
    exact hu'
  cases hw : a.isWrite with
  | true =>
    rw [speculateMemAccess_store su _ insn value hw] at hs
    cases hs
    split
    · exact ⟨⟨⟨hal,hb.untracked,hb.enabled,hb.running,hb.sequential⟩,h.cpu,h.mem,h.checkpoints,
        h.inSpeculation⟩,hlast',fun _ h => h⟩
    · exact ⟨⟨hb,h.cpu,h.mem,h.checkpoints,h.inSpeculation⟩,hlast',fun _ h => h⟩
  | false =>
    rw [speculateMemAccess_load su _ insn value hw] at hs
    cases hs
    rw [if_neg]
    · exact ⟨⟨hb,h.cpu,h.mem,h.checkpoints,h.inSpeculation⟩,hlast',fun _ h => h⟩
    · rintro ⟨hcl,hlt,-,hne⟩
      dsimp only at hlt hne
      rw [h.checkpoints] at hlt
      have hw' := hin hcl hlt hne a (List.mem_singleton_self a)
      rw [hw] at hw'
      cases hw'

/-- All the accesses of an instruction. -/
theorem Arch.runAccesses {c : Cpu} {as : List Access} {seen seen' : List (List Byte)}
    (h : Arch s u) (hlast : su.tracer=.prot → s.tracer.lastPc = u.tracer.lastPc)
    (hin : Uninjected su s as) (hs : runAccesses su insn c as seen s = some (seen',s')) :
    ∃ u', runAccesses su.sequential insn c as seen u = some (seen',u') ∧ Arch s' u' := by
  induction as generalizing s u seen with
  | nil =>
    cases hs
    exact ⟨u,rfl,h⟩
  | cons a as ih =>
    have hin₁ : Uninjected su s [a] := fun h₁ h₂ h₃ b hb =>
      hin h₁ h₂ h₃ b (List.mem_singleton.mp hb ▸ List.mem_cons_self)
    have hin₂ : Uninjected su s as := fun h₁ h₂ h₃ b hb => hin h₁ h₂ h₃ b (List.mem_cons_of_mem _ hb)
    unfold ProteanAmulet.runAccesses at hs ⊢
    cases hw : a.isWrite with
    | true =>
      simp only [hw,if_true,Option.bind_eq_bind] at hs ⊢
      obtain ⟨s₁,h₁,hs⟩ := Option.bind_eq_some_iff.mp hs
      obtain ⟨u₁,hu₁,ha,hl,hu⟩ := h.traceMemAccess hlast hin₁ h₁
      rw [hu₁,Option.bind_some,← ha.mem]
      exact ih (ha.setMem _) hl (hu as hin₂) hs
    | false =>
      simp only [hw,Bool.false_eq_true,if_false,Option.bind_eq_bind] at hs ⊢
      obtain ⟨s₁,h₁,hs⟩ := Option.bind_eq_some_iff.mp hs
      obtain ⟨u₁,hu₁,ha,hl,hu⟩ := h.traceMemAccess hlast hin₁ h₁
      rw [hu₁,Option.bind_some,← ha.mem]
      exact ih ha hl (hu as hin₂) hs

/-- The branch predictor outside of speculation. -/
lemma cond_transparent {s₁ s' : State} (ht : Transparent su s) (htr : Traced s s₁)
    (hcps : s.checkpoints=[]) (hend : s.cpu.rip ≠ su.codeEnd)
    (hf : su.testCase.fetch s.cpu.rip = some insn) (hcl : su.clause=.cond ∨ su.clause=.condBpas)
    (hs : X86UnicornCond.speculateInstruction s₁ s.cpu.rip insn = some s') :
    s'=s₁ ∧ (0<s.nesting → ∀ d,
      X86UnicornCond.decode insn.bytes s.cpu.eflags (s.cpu.reg .C) = some d → d.1=0) ∨
    ∃ d, ExactBranch insn s.cpu d ∧
      s' = X86UnicornCond.mispredicted s₁ (s.cpu.rip+insn.size) d := by
  obtain ⟨_,_,rfl⟩ := htr
  rw [X86UnicornCond.speculateInstruction_eq] at hs
  dsimp only at hs
  split at hs
  · rename_i hlt
    cases hs
    rw [hcps] at hlt
    exact Or.inl ⟨rfl,fun h => absurd h (Nat.not_lt.mpr hlt)⟩
  · rename_i hlt
    rw [hcps] at hlt
    obtain ⟨d,hd,rfl⟩ := Option.map_eq_some_iff.mp hs
    have hpos : 0<s.nesting := Nat.lt_of_not_le hlt
    split
    · rename_i hz
      refine Or.inl ⟨rfl,fun _ d' hd' => ?_⟩
      obtain rfl := Option.some.inj (hd.symm.trans hd')
      exact hz
    · rename_i hz
      exact Or.inr ⟨d,ht.branch hcps hpos hcl hend insn hf d hd hz,rfl⟩

/-- Outside of speculation a hook leaves the state alone, or it opens the first checkpoint at a
branch. -/
theorem Arch.speculateInstruction {s₁ s₂ : State} (h : Arch s₁ u) (ht : Transparent su s)
    (htr : Traced s s₁) (han : s₁.tracer.Analyzed su.tracer) (hend : s.cpu.rip ≠ su.codeEnd)
    (hf : su.testCase.fetch s.cpu.rip = some insn)
    (hs : speculateInstruction su s₁ s.cpu.rip insn = some s₂) :
    (∃ p ia, s₂ = { s₁ with previousStore := p, instructionAddress := ia } ∧
      (su.clause=.null → ia = s.cpu.rip)) ∨
    ∃ d, ExactBranch insn s.cpu d ∧
      Apart (X86UnicornCond.mispredicted s₁ (s.cpu.rip+insn.size) d) s₂ ∧
      s₂.cpu = (X86UnicornCond.mispredicted s₁ (s.cpu.rip+insn.size) d).cpu ∧
      s₂.stopRequested=false := by
  have hcps : s.checkpoints=[] := by
    have := h.checkpoints
    obtain ⟨_,_,rfl⟩ := htr
    exact this
  have hwander : ∀ d, Wandering su (X86UnicornCond.mispredicted s₁ (s.cpu.rip+insn.size) d) := by
    rintro ⟨target,willJump,isLoop⟩
    unfold X86UnicornCond.mispredicted
    cases isLoop <;> exact ⟨by simp [State.opened,h.untracked.1],rfl,han⟩
  have hstop : ∀ d,
      (X86UnicornCond.mispredicted s₁ (s.cpu.rip+insn.size) d).stopRequested=false := by
    rintro ⟨target,willJump,isLoop⟩
    unfold X86UnicornCond.mispredicted
    cases isLoop <;> exact h.running.1
  -- Without a branch, a store is not bypassed.
  have hbpas : ∀ {s₂}, su.clause.bypasses → (su.clause=.condBpas → 0<s.nesting → ∀ d,
      X86UnicornCond.decode insn.bytes s.cpu.eflags (s.cpu.reg .C) = some d → d.1=0) →
      X86UnicornBpas.speculateInstruction s₁ s.cpu.rip = some s₂ →
      ∃ p ia, s₂ = { s₁ with previousStore := p, instructionAddress := ia } ∧
        (su.clause=.null → ia = s.cpu.rip) := by
    intro s₂ hby hno hs
    have hnull : su.clause ≠ .null := by
      intro hcl
      rw [hcl] at hby
      cases hby
    rw [X86UnicornBpas.speculateInstruction_eq] at hs
    split at hs
    · cases hs
      exact ⟨_,_,rfl,fun h => absurd h hnull⟩
    · rename_i hlt
      split at hs
      · cases hs
        exact ⟨_,_,rfl,fun h => absurd h hnull⟩
      · rename_i hp
        obtain ⟨_,_,rfl⟩ := htr
        have hpos : 0<s.nesting := by
          rw [h.checkpoints] at hlt
          exact Nat.lt_of_not_le hlt
        obtain ⟨hcl,d,hd,hz⟩ := ht.bypass hcps hpos hby hend hp insn hf
        exact absurd (hno hcl hpos d hd) hz
  unfold ProteanAmulet.speculateInstruction at hs
  cases hcl : su.clause <;> rw [hcl] at hs
  case seq =>
    cases hs
    exact Or.inl ⟨_,_,rfl,by simp⟩
  case cond =>
    rcases cond_transparent ht htr hcps hend hf (Or.inl hcl) hs with ⟨rfl,-⟩ | ⟨d,hd,rfl⟩
    · exact Or.inl ⟨_,_,rfl,by simp⟩
    · exact Or.inr ⟨d,hd,.refl (hwander d),rfl,hstop d⟩
  case bpas =>
    rw [← hcl]
    exact Or.inl (hbpas (by rw [hcl]; rfl) (by simp [hcl]) hs)
  case null =>
    cases hs
    exact Or.inl ⟨_,_,rfl,fun _ => rfl⟩
  case condBpas =>
    rw [← hcl]
    obtain ⟨s₃,h₃,hs⟩ := Option.bind_eq_some_iff.mp hs
    rcases cond_transparent ht htr hcps hend hf (Or.inr hcl) h₃ with ⟨heq,hno⟩ | ⟨d,hd,rfl⟩
    · rw [heq] at hs
      exact Or.inl (hbpas (by rw [hcl]; rfl) (fun _ => hno) hs)
    · obtain ⟨ha,hc,hst⟩ := Apart.bpas (hwander d) hs
      exact Or.inr ⟨d,hd,ha,hc,hst.trans (hstop d)⟩

/-- Both runs execute the instruction. -/
theorem Arch.execute {o : Outcome} (h : Arch s u)
    (hlast : su.tracer=.prot → s.tracer.lastPc = u.tracer.lastPc)
    (hin : Uninjected su s (insn.accesses s.cpu))
    (ho : execute su insn s.cpu.rip s = some o) : (∃ s', o = .fault s') ∨
      ∃ s' u', o = .running s' ∧
        execute su.sequential insn s.cpu.rip u = some (.running u') ∧ Arch s' u' := by
  unfold ProteanAmulet.execute at ho ⊢
  rw [if_neg (by simp [h.running.1]),if_neg (by simp)] at ho
  rw [if_neg (by simp [h.running.2]),← h.cpu,if_neg (by simp)]
  obtain ⟨⟨seen,s₁⟩,h₁,ho⟩ := Option.bind_eq_some_iff.mp ho
  obtain ⟨u₁,hu₁,ha⟩ := h.runAccesses hlast hin h₁
  dsimp only at ho
  split at ho <;> cases ho
  · exact Or.inl ⟨s₁,rfl⟩
  · rename_i hfa
    refine Or.inr ⟨_,_,rfl,?_,ha.setCpu (insn.finish s.cpu seen)⟩
    rw [hu₁]
    simp [hfa]

/-- The sequential run takes the branch that the speculative one has left for its wrong
successor. -/
theorem Arch.away {s₂ : State} {d : ℕ × Bool × Bool} (h : Arch s u)
    (han : s.tracer.Analyzed su.tracer) (hd : ExactBranch insn s.cpu d)
    (hap : Apart (X86UnicornCond.mispredicted s (s.cpu.rip+insn.size) d) s₂)
    (hstop : s₂.stopRequested=false) :
    ∃ u', ProteanAmulet.execute su.sequential insn s.cpu.rip u = some (.running u') ∧
      Away su s₂ u' := by
  refine ⟨{ u with cpu := insn.finish s.cpu [] },?_,?_⟩
  · unfold ProteanAmulet.execute
    rw [if_neg (by simp [h.running.2]),← h.cpu,if_neg (by simp),hd.accesses]
    simp [ProteanAmulet.runAccesses,hd.faults]
  · obtain ⟨cp,hcp,hback,hmem⟩ := mispredicted_bottom s (s.cpu.rip+insn.size) d
    obtain ⟨new,hnew⟩ := hap.checkpoints
    have htr : (X86UnicornCond.mispredicted s (s.cpu.rip+insn.size) d).tracer = s.tracer ∧
        (X86UnicornCond.mispredicted s (s.cpu.rip+insn.size) d).executionTracingEnabled =
          s.executionTracingEnabled := by
      obtain ⟨target,willJump,isLoop⟩ := d
      unfold X86UnicornCond.mispredicted
      cases isLoop <;> exact ⟨rfl,rfl⟩
    have hal := hap.alike
    have hen := hap.enabled
    rw [htr.1] at hal
    rw [htr.2] at hen
    refine ⟨⟨hal.symm.trans h.alike,⟨hap.untracked,h.untracked.2⟩,hen.symm.trans h.enabled,
      ⟨hstop,h.running.2⟩,h.sequential⟩,⟨new,cp,?_,?_,hmem.trans h.mem⟩,
      hap.untracked,hap.inSpeculation,fun hk => ?_⟩
    · rw [hnew,hcp,h.checkpoints]
    · rw [hback]
      exact hd.finish.symm
    · rw [← hal.analysis]
      exact han hk

/-- A step outside of speculation: both runs execute the same instruction, or the speculative
one leaves it for the wrong successor of a branch. -/
theorem Arch.emuStep {o : Outcome} (h : Arch s u) (ht : Transparent su s)
    (ho : emuStep su s = some o) :
    (∃ s' u', o = .running s' ∧ emuStep su.sequential u = some (.running u') ∧
      (Arch s' u' ∨ Away su s' u')) ∨
    ∃ s' u', o = .returned s' ∧ emuStep su.sequential u = some (.returned u') ∧ Arch s' u' := by
  have hnofault := ht.faults h.checkpoints
  have ho' := ho
  unfold ProteanAmulet.emuStep at ho
  by_cases hend : s.cpu.rip = su.codeEnd
  · rw [if_pos hend] at ho
    cases ho
    refine Or.inr ⟨s,u,rfl,?_,h⟩
    unfold ProteanAmulet.emuStep
    exact if_pos (h.cpu ▸ hend)
  rw [if_neg hend] at ho
  cases hf : su.testCase.fetch s.cpu.rip with
  | none =>
    rw [hf] at ho
    cases ho
    exact absurd ho' (hnofault s)
  | some insn =>
    rw [hf] at ho
    obtain ⟨s₂,hook,ho⟩ := Option.bind_eq_some_iff.mp ho
    rw [instructionHook_eq] at hook
    obtain ⟨i,hi,hook⟩ := Option.bind_eq_some_iff.mp hook
    obtain ⟨s₁,h₁,hs₂⟩ := Option.bind_eq_some_iff.mp hook
    have hcount : counted su s i = s := by
      unfold counted countInstruction
      rw [h.inSpeculation]
      cases su.clause <;> rfl
    rw [hcount] at h₁
    obtain ⟨u₁,hu₁,ha₁,hlast,han,htr⟩ := h.seqTraceInstruction h₁
    have hcpu₁ : s₁.cpu = s.cpu := by
      obtain ⟨_,_,rfl⟩ := htr
      rfl
    have hseq : ProteanAmulet.emuStep su.sequential u =
        ProteanAmulet.execute su.sequential insn s₁.cpu.rip u₁ := by
      unfold ProteanAmulet.emuStep
      rw [if_neg (by rw [← h.cpu]; exact hend),← h.cpu,hcpu₁]
      simp only [Setup.sequential,hf]
      rw [show instructionHook { su with clause := .seq } u s.cpu.rip insn = some u₁ from by
        unfold instructionHook
        simp only [hi,Option.bind_eq_bind,Option.bind_some]
        exact hu₁]
      rfl
    rw [hseq]
    rcases ha₁.speculateInstruction ht htr han hend hf hs₂ with
      ⟨p,ia,rfl,hia⟩ | ⟨d,hd,hap,hcpu₂,hstop⟩
    · rw [← hcpu₁] at ho
      have ha₂ : Arch { s₁ with previousStore := p, instructionAddress := ia } u₁ :=
        ⟨⟨ha₁.alike,ha₁.untracked,ha₁.enabled,ha₁.running,ha₁.sequential⟩,ha₁.cpu,ha₁.mem,
          ha₁.checkpoints,ha₁.inSpeculation⟩
      have hin : Uninjected su { s₁ with previousStore := p, instructionAddress := ia }
          (insn.accesses s₁.cpu) := by
        intro hcl hlt hne
        obtain ⟨_,_,rfl⟩ := htr
        dsimp only at hlt hne
        rw [hia hcl] at hne
        exact ht.inject h.checkpoints hlt hcl hend hne insn hf
      rcases ha₂.execute hlast hin ho with ⟨s',rfl⟩ | ⟨s',u',rfl,hu',ha'⟩
      · exact absurd ho' (hnofault s')
      · exact Or.inl ⟨s',u',rfl,hu',Or.inl ha'⟩
    · have hmoved : s₂.cpu.rip ≠ s.cpu.rip := by
        have hsize := insn.size_pos
        rw [hcpu₂]
        unfold X86UnicornCond.mispredicted
        dsimp only
        split <;> omega
      unfold ProteanAmulet.execute at ho
      rw [if_neg (by simp [hstop]),if_pos hmoved] at ho
      cases ho
      rw [← hcpu₁] at hd hap
      obtain ⟨u',hu',haway⟩ := ha₁.away han hd hap hstop
      exact Or.inl ⟨s₂,u',rfl,hu',Or.inr haway⟩

end Architectural

/-- The configurations of the speculative and of the sequential run. -/
inductive Shadows (su : Setup) : Config → Config → Prop
  | arch {first : Bool} {s u : State} : Arch s u →
      Shadows su ⟨.emulating first,s⟩ ⟨.emulating true,u⟩
  | away {first : Bool} {s u : State} : Away su s u →
      Shadows su ⟨.emulating first,s⟩ ⟨.emulating true,u⟩
  | drain {s u : State} : Away su s u → Shadows su ⟨.draining,s⟩ ⟨.emulating true,u⟩
  | leave {s u : State} : Arch s u → Shadows su ⟨.draining,s⟩ ⟨.draining,u⟩
  | finish {s u : State} : Arch s u → Shadows su ⟨.finished,s⟩ ⟨.finished,u⟩

section Runs
variable {su : Setup} {s s' u : State} {c c' d : Config}

/-- A rollback goes to the checkpoint below, and from the last one back to the state of the
sequential run. -/
theorem Away.rollback (h : Away su s u) (hr : Recoverable s)
    (hs : rollback s = some s') : Arch s' u ∨ Away su s' u := by
  have behind : Behind s u := ⟨h.bottom,h.wandering.inSpeculation,h.sequential⟩
  have beside : Beside s' u ∧ s'.tracer.Analyzed su.tracer := by
    obtain ⟨s₁,h₁,rfl⟩ := Option.map_eq_some_iff.mp hs
    obtain ⟨cp,cps,log,logs,tt,-,-,rfl,htt⟩ := restore_cases h₁
    have untracked : tt = none := by
      rcases htt with ⟨-,h⟩ | ⟨t,t',ht,-⟩
      · exact h
      · rw [h.untracked.1] at ht
        cases ht
    exact ⟨⟨h.alike,⟨untracked,h.untracked.2⟩,h.enabled,h.running,h.sequential⟩,
      h.wandering.analyzed⟩
  rcases behind.rollback hr hs with level | behind
  · exact Or.inl ⟨beside.1,level.cpu,level.mem,level.checkpoints,level.inSpeculation⟩
  · exact Or.inr ⟨beside.1,behind.bottom,beside.1.untracked.1,behind.inSpeculation,beside.2⟩

/-- One step of the speculative run: the sequential run makes a step, too, or it waits. -/
theorem tick_shadows (h : Shadows su c d) (hinv : Invariant su c) (ht : Transparent su c.state)
    (hc : tick su c = some c') :
    ∃ d', (d'=d ∨ tick su.sequential d = some d') ∧ Shadows su c' d' := by
  cases h with
  | arch ha =>
    obtain ⟨o,ho,rfl⟩ := Option.map_eq_some_iff.mp hc
    rcases ha.emuStep ht ho with ⟨s',u',rfl,hu,hrel⟩ | ⟨s',u',rfl,hu,hrel⟩
    · refine ⟨⟨.emulating true,u'⟩,Or.inr ?_,?_⟩
      · unfold tick
        rw [hu]
        rfl
      · rcases hrel with hrel | hrel
        · exact .arch hrel
        · exact .away hrel
    · refine ⟨⟨.draining,u'⟩,Or.inr ?_,.leave hrel⟩
      unfold tick
      rw [hu]
      rfl
  | away ha =>
    obtain ⟨o,ho,rfl⟩ := Option.map_eq_some_iff.mp hc
    obtain ⟨hap,hstop⟩ := Apart.emuStep ha.wandering ha.running.1 ho
    have ha' := ha.apart hap hstop
    refine ⟨_,Or.inl rfl,?_⟩
    cases o with
    | running s' => exact .away ha'
    | returned s' => exact .drain ha'
    | fault s' =>
      have hspec : s'.inSpeculation=true := ha'.wandering.inSpeculation
      unfold Outcome.next
      dsimp only
      rw [hspec,if_neg (by simp)]
      exact .drain ha'
  | drain ha =>
    unfold tick at hc
    dsimp only at hc
    rw [if_pos ha.wandering.inSpeculation] at hc
    obtain ⟨s',hs',rfl⟩ := Option.map_eq_some_iff.mp hc
    refine ⟨_,Or.inl rfl,?_⟩
    rcases ha.rollback hinv.1.recoverable hs' with ha' | ha'
    · exact .arch ha'
    · exact .away ha'
  | leave ha =>
    unfold tick at hc
    dsimp only at hc
    rw [if_neg (by simp [ha.inSpeculation])] at hc
    cases hc
    refine ⟨⟨.finished,_⟩,Or.inr ?_,.finish ha⟩
    unfold tick
    dsimp only
    rw [if_neg (by simp [ha.sequential])]
  | finish ha =>
    cases hc
    exact ⟨_,Or.inl rfl,.finish ha⟩

lemma run_of_tick {d d' : Config} {fuel : ℕ} (ht : tick su d = some d')
    (hr : run su fuel d' = some u) (hne : d.phase ≠ .exited) : run su (fuel+1) d = some u := by
  obtain ⟨phase,s⟩ := d
  unfold run
  cases phase with
  | emulating first =>
    dsimp only
    rw [ht]
    exact hr
  | draining =>
    dsimp only
    rw [ht]
    exact hr
  | finished =>
    cases ht
    cases fuel with
    | zero => cases hr
    | succ fuel => exact hr
  | exited => exact absurd rfl hne

/-- A whole run: the sequential run ends as well, with the same record and in the same state. -/
theorem run_shadows {c₀ : Config} {fuel : ℕ} (h : Shadows su c d) (hinv : Invariant su c)
    (hv : Visits su c₀ c) (ht : ∀ c', Visits su c₀ c' → Transparent su c'.state)
    (hr : run su fuel c = some s) :
    ∃ fuel' u, run su.sequential fuel' d = some u ∧ Arch s u := by
  induction fuel generalizing c d with
  | zero => cases hr
  | succ fuel ih =>
    have hstep : ∀ {c'}, tick su c = some c' → run su fuel c' = some s →
        ∃ fuel' u, run su.sequential fuel' d = some u ∧ Arch s u := by
      intro c' hc hr'
      obtain ⟨d',hd,hs⟩ := tick_shadows h hinv (ht c hv) hc
      obtain ⟨fuel',u,hu,ha⟩ := ih hs (tick_invariant hinv hc) (hv.tick hc) hr'
      rcases hd with rfl | hd
      · exact ⟨fuel',u,hu,ha⟩
      · exact ⟨fuel'+1,u,run_of_tick hd hu (by cases h <;> simp),ha⟩
    obtain ⟨phase,s₁⟩ := c
    unfold run at hr
    cases phase with
    | emulating first =>
      obtain ⟨c',hc,hr⟩ := Option.bind_eq_some_iff.mp hr
      exact hstep hc hr
    | draining =>
      obtain ⟨c',hc,hr⟩ := Option.bind_eq_some_iff.mp hr
      exact hstep hc hr
    | finished =>
      cases hr
      cases h with
      | finish ha => exact ⟨1,_,rfl,ha⟩
    | exited => cases hr

/-- Architectural transparency. If outside of speculation no instruction faults, every decoded
branch is decoded exactly, and no store is bypassed and no load injected, then the sequential
clause records the same instructions with the same accesses and ends with the same registers
and memory. -/
theorem executeInput_transparent {fuel n : ℕ} {input : Input su.conf} (hcov : Covered su)
    (ht : ∀ c, begin su input (tracedModel n) = some c →
      ∀ c', Visits su c c' → Transparent su c'.state)
    (h : executeInput su fuel (tracedModel n) input = some s) :
    ∃ fuel' u, executeInput su.sequential fuel' (tracedModel n) input = some u ∧
      u.tracer.executionTrace = s.tracer.executionTrace ∧ u.cpu = s.cpu ∧ u.mem = s.mem := by
  obtain ⟨c₀,hc₀,hr⟩ := Option.bind_eq_some_iff.mp h
  have hbegin := hc₀
  rw [begin_eq] at hc₀
  obtain ⟨c,hc,rfl⟩ := Option.map_eq_some_iff.mp hc₀
  have hinv : Recorded su (started su input (tracedModel n) c) :=
    started_recorded rfl (fun _ => rfl) fun _ => rfl
  have ha : Arch (started su input (tracedModel n) c)
      (started su.sequential input (tracedModel n) c) :=
    ⟨⟨⟨rfl,rfl,rfl⟩,⟨rfl,rfl⟩,rfl,⟨rfl,rfl⟩,rfl⟩,rfl,rfl,rfl,rfl⟩
  have hstart : Shadows su ⟨.emulating true,started su input (tracedModel n) c⟩
      ⟨.emulating true,started su.sequential input (tracedModel n) c⟩ := .arch ha
  obtain ⟨fuel',u,hu,hfin⟩ := run_shadows hstart ⟨hinv,hcov⟩ (Visits.refl _) (ht _ hbegin) hr
  refine ⟨fuel',u,?_,hfin.alike.executionTrace.symm,hfin.cpu.symm,hfin.mem.symm⟩
  have hbegin' : begin su.sequential input (tracedModel n) =
      some ⟨.emulating true,started su.sequential input (tracedModel n) c⟩ := by
    refine (begin_eq su.sequential input (tracedModel n)).trans ?_
    exact congrArg (Option.map _) hc
  exact Option.bind_eq_some_iff.mpr ⟨_,hbegin',hu⟩

end Runs

section Witnesses
open Asm

lemma jz_exact {disp : BitVec 8} {c : Cpu} {d : ℕ × Bool × Bool}
    (h : X86UnicornCond.decode (jz disp).insn.bytes c.eflags (c.reg .C) = some d) :
    ExactBranch (jz disp).insn c d := by
  have hdec : X86UnicornCond.decode (jz disp).insn.bytes c.eflags (c.reg .C) =
      some (disp.toNat,decide (c.eflags &&& 0x40 ≠ 0),false) := by
    simp [X86UnicornCond.decode,X86UnicornCond.jump,X86UnicornCond.taken,jz,fromBytes]
  obtain rfl := Option.some.inj (hdec.symm.trans h)
  refine ⟨rfl,rfl,?_⟩
  simp only [jz,Asm.Cpu.next,Insn.size,List.length_cons,List.length_nil,decide_eq_true_eq,
    Bool.false_eq_true,if_false]
  split <;> simp [Nat.add_assoc]

/-- A branch on an input register. -/
def branchCode : List Line := [test .A,jz 1,nop,nop]

/-- The emulator does not fault next. -/
def goesOn (su : Setup) (s : State) : Bool :=
  match emuStep su s with
  | some (.fault _) => false
  | _ => true

/-- The mispredicted path is rolled back. -/
theorem executeInput_transparent_branch :
    ∃ s fuel' u,
      executeInput (setup .cond .ct branchCode) 20 (tracedModel 1) (input [(1024,5)]) = some s ∧
      executeInput (setup .cond .ct branchCode).sequential fuel' (tracedModel 1)
        (input [(1024,5)]) = some u ∧
      u.tracer.executionTrace = s.tracer.executionTrace ∧ u.cpu = s.cpu ∧ u.mem = s.mem := by
  have hsome : (executeInput (setup .cond .ct branchCode) 20 (tracedModel 1)
      (input [(1024,5)])).isSome := by decide +kernel
  obtain ⟨s,hs⟩ := Option.isSome_iff_exists.mp hsome
  have hcov : Covered (setup .cond .ct branchCode) :=
    covered_of_lines (by simp [branchCode,test,jz,nop])
  have hgoes : (begin (setup .cond .ct branchCode) (input [(1024,5)]) (tracedModel 1)).all
      (holds (setup .cond .ct branchCode) (goesOn (setup .cond .ct branchCode)) 20) = true := by
    decide +kernel
  have ht : ∀ c, begin (setup .cond .ct branchCode) (input [(1024,5)]) (tracedModel 1) = some c →
      ∀ c', Visits (setup .cond .ct branchCode) c c' →
        Transparent (setup .cond .ct branchCode) c'.state := by
    intro c hc c' hv
    refine ⟨fun _ s' hs' => ?_,fun _ _ _ _ insn hf d hd hz => ?_,fun _ _ hb => ?_,
      fun _ _ hn => ?_⟩
    · rw [hc] at hgoes
      have h := holds_visits hgoes hv
      simp [goesOn,hs'] at h
    · obtain ⟨l,hl,rfl⟩ := fetch_mem hf
      simp only [branchCode,List.mem_cons,List.not_mem_nil,or_false] at hl
      rcases hl with rfl | rfl | rfl | rfl
      · cases hd
        exact absurd rfl hz
      · exact jz_exact hd
      · cases hd
        exact absurd rfl hz
      · cases hd
        exact absurd rfl hz
    · cases hb
    · cases hn
  obtain ⟨fuel',u,hu,hrest⟩ := executeInput_transparent hcov ht hs
  exact ⟨s,fuel',u,hs,hu,hrest⟩

/-- The instruction at which the store is bypassed is recorded twice. -/
theorem executeInput_not_transparent :
    ∃ (su : Setup) (input : Input su.conf) (s u : State), su.clause=.bpas ∧ Covered su ∧
      executeInput su 20 (tracedModel 1) input = some s ∧
      executeInput su.sequential 20 (tracedModel 1) input = some u ∧
      s.tracer.executionTrace ≠ u.tracer.executionTrace := by
  have hlen : (executeInput storeNop 20 (tracedModel 1) (input [(1024,5)])).map
      (·.tracer.executionTrace.length) = some 3 := by decide +kernel
  have hlen' : (executeInput storeNop.sequential 20 (tracedModel 1) (input [(1024,5)])).map
      (·.tracer.executionTrace.length) = some 2 := by decide +kernel
  obtain ⟨s,hs,hs₃⟩ := Option.map_eq_some_iff.mp hlen
  obtain ⟨u,hu,hu₂⟩ := Option.map_eq_some_iff.mp hlen'
  refine ⟨storeNop,input [(1024,5)],s,u,rfl,covered_of_lines (by simp [store,nop]),hs,hu,?_⟩
  intro h
  rw [h,hu₂] at hs₃
  cases hs₃

end Witnesses

end ProteanAmulet
