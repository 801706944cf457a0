import ProteanAmulet.Protection
import ProteanAmulet.Transparency

/-! How the observation clauses compare. The tracer never steers the emulation, and the trace of
a weaker clause can be computed from that of a stronger one, for every program and every input.
Two inputs that a strong contract puts into one class are therefore in one class of all weaker
contracts. -/
namespace ProteanAmulet

section Retraced
variable {su : Setup} {s s' : State} {k : Tracer}

/-- The same state with another tracer and no taint tracking. -/
def State.retrace (s : State) (tr : TracerState) : State :=
  { s with tracer := tr, taintTracker := none, taintingEnabled := false }

lemma retrace_self (hs : s.taintTracker = none) (hd : s.taintingEnabled = false) :
    s.retrace s.tracer = s := by
  obtain ⟨⟩ := s
  cases hs
  cases hd
  rfl

/-- The same model with another observation clause. -/
abbrev Setup.observing (su : Setup) (k : Tracer) : Setup := { su with tracer := k }

/-- Speculating neither reads nor changes the tracer. -/
lemma speculateInstruction_retrace (tr : TracerState) (address : ℕ) (insn : Insn) :
    speculateInstruction (su.observing k) (s.retrace tr) address insn =
      (speculateInstruction su s address insn).map (·.retrace tr) := by
  have cond : ∀ s : State, X86UnicornCond.speculateInstruction (s.retrace tr) address insn =
      (X86UnicornCond.speculateInstruction s address insn).map (·.retrace tr) := by
    intro s
    simp only [X86UnicornCond.speculateInstruction_eq,State.retrace]
    split
    · rfl
    · cases X86UnicornCond.decode insn.bytes s.cpu.eflags (s.cpu.reg .C) with
      | none => rfl
      | some d =>
        simp only [Option.map_some]
        split
        · rfl
        · obtain ⟨target,willJump,isLoop⟩ := d
          cases isLoop <;> rfl
  have bpas : ∀ s : State, X86UnicornBpas.speculateInstruction (s.retrace tr) address =
      (X86UnicornBpas.speculateInstruction s address).map (·.retrace tr) := by
    intro s
    simp only [X86UnicornBpas.speculateInstruction_eq,State.retrace]
    split
    · rfl
    · split
      · rfl
      · cases toBytes s.previousStore.value s.previousStore.size <;> rfl
  unfold speculateInstruction Setup.observing
  cases su.clause with
  | seq => rfl
  | cond => exact cond s
  | bpas => exact bpas s
  | null => rfl
  | condBpas =>
    simp only [Option.bind_eq_bind,cond s]
    cases X86UnicornCond.speculateInstruction s address insn with
    | none => rfl
    | some s₁ => exact bpas s₁

lemma speculateMemAccess_retrace (tr : TracerState) (insn : Insn) (a : Access) (value : ℤ) :
    speculateMemAccess (su.observing k) (s.retrace tr) insn a value =
      (speculateMemAccess su s insn a value).map (·.retrace tr) := by
  cases hw : a.isWrite with
  | true =>
    rw [speculateMemAccess_store _ _ _ _ hw,speculateMemAccess_store _ _ _ _ hw,Option.map_some]
    rw [apply_ite (fun s : State => s.retrace tr)]
    rfl
  | false =>
    rw [speculateMemAccess_load _ _ _ _ hw,speculateMemAccess_load _ _ _ _ hw,Option.map_some]
    rw [apply_ite (fun s : State => s.retrace tr)]
    rfl

lemma rollback_retrace (tr : TracerState) (hs : s.taintTracker = none) :
    rollback (s.retrace tr) = (rollback s).map (·.retrace tr) := by
  unfold rollback restore State.track State.retrace
  cases s.checkpoints with
  | nil => rfl
  | cons cp cps =>
    cases s.storeLogs with
    | nil => rfl
    | cons log logs =>
      dsimp only
      rw [hs]
      rfl

lemma counted_retrace (tr : TracerState) (i : Instruction) :
    counted (su.observing k) (s.retrace tr) i = (counted su s i).retrace tr := by
  unfold counted countInstruction Setup.observing State.retrace
  cases su.clause
  case seq => rfl
  all_goals
    dsimp only
    split <;> rfl

lemma logged_retrace (tr : TracerState) (a : Access) :
    logged (su.observing k) (s.retrace tr) a = (logged su s a).retrace tr := by
  unfold logged logStore Setup.observing State.retrace
  cases su.clause
  case seq => rfl
  all_goals
    dsimp only
    split <;> rfl

/-- What is the same under every tracer keeps the tracer. -/
lemma eq_retrace {f : State → Option State} (hf : ∀ tr, f (s.retrace tr) = (f s).map (·.retrace tr))
    (hs : s.taintTracker = none) (hd : s.taintingEnabled = false) (h : f s = some s') :
    s' = s'.retrace s.tracer := by
  have h' := hf s.tracer
  rw [retrace_self hs hd,h] at h'
  exact Option.some.inj h'

end Retraced

/-! ### Two tracers of one run -/

section Tracers
variable {su : Setup} {k : Tracer} {tr tr' : TracerState} {address : ℕ} {insn : Insn}

lemma analyze_trace (h : su.tracer.analyze su.testCase tr address = some tr') :
    tr'.trace = tr.trace ∧ tr'.executionTrace = tr.executionTrace ∧
      tr'.instructionId = tr.instructionId := by
  unfold Tracer.analyze at h
  split at h
  · obtain ⟨d,-,h⟩ := Option.bind_eq_some_iff.mp h
    cases h
    exact ⟨rfl,rfl,rfl⟩
  · cases h
    exact ⟨rfl,rfl,rfl⟩

lemma analyze_plain (hk : k ≠ .cts) (tc : TestCase) : k.analyze tc tr address = some tr := by
  cases k <;> first | exact absurd rfl hk | rfl

lemma shown_trace (s : State) : (shown su s tr address insn).trace =
    (su.tracer.instructionExposes tr address insn).foldl (s.emit su.tracer) tr.trace := by
  unfold shown Tracer.noteInstruction
  cases su.tracer <;> rfl

lemma assertLastPc_plain (hk : k ≠ .prot) (rip : ℕ) (a : Access) :
    k.assertLastPc tr rip a = true := by
  cases k <;> first | exact absurd rfl hk | rfl

/-- `observe_mem_access` without a taint tracker. -/
lemma observeMemAccess_none {s : State} (hs : s.taintTracker = none) (a : Access) (value : ℤ) :
    observeMemAccess su s insn a value =
      let trace :=
        (su.tracer.accessExposes s.inSpeculation insn a).foldl (s.emit su.tracer) s.tracer.trace
      let tr := { s.tracer with trace := trace }
      let val := if a.isWrite then value else fromBytes (Memory.read s.mem a.address a.size)
      if su.tracer.assertLastPc s.tracer s.cpu.rip a then
        (if s.inSpeculation || !s.executionTracingEnabled then some tr
          else Tracer.recordAccess tr ⟨(a.address : ℤ)-su.sandboxBase,val,a.isWrite⟩).map fun tr =>
            { s with tracer := tr }
      else none := by
  have hlast : ∀ t, su.tracer.assertLastPc (s.setTrace t).tracer (s.setTrace t).cpu.rip a =
      su.tracer.assertLastPc s.tracer s.cpu.rip a := by
    intro t
    cases su.tracer <;> rfl
  unfold observeMemAccess
  simp only [Option.bind_eq_bind,exposeAll_none hs,Option.bind_some,hlast]
  split
  · dsimp only [State.setTrace]
    by_cases hc : (s.inSpeculation || !s.executionTracingEnabled) = true
    · rw [if_pos hc]
      exact if_pos hc
    · rw [if_neg hc]
      refine (if_neg hc).trans ?_
      cases Tracer.recordAccess _ _ <;> rfl
  · rfl

end Tracers

/-- A second tracer of the same run, whose trace is related. -/
structure Under (R : List Obs → List Obs → Prop) (s : State) (tr : TracerState) : Prop where
  untracked : s.taintTracker = none
  disabled : s.taintingEnabled = false
  executionTrace : s.tracer.executionTrace = tr.executionTrace
  instructionId : s.tracer.instructionId = tr.instructionId
  trace : R s.tracer.trace tr.trace

/-- Whatever is observed, the traces of the tracers `k` and `k'` stay related. The second one
never raises an exception. -/
structure Weakens (k k' : Tracer) (R : List Obs → List Obs → Prop) : Prop where
  plain : k' ≠ .prot ∧ k' ≠ .cts
  initial : ∀ c, R (k.initialTrace c) (k'.initialTrace c)
  instruction : ∀ (s : State) tr tr' address insn t t', R t t' →
    R ((k.instructionExposes tr address insn).foldl (s.emit k) t)
      ((k'.instructionExposes tr' address insn).foldl (s.emit k') t')
  access : ∀ (s : State) insn a t t', R t t' →
    R ((k.accessExposes s.inSpeculation insn a).foldl (s.emit k) t)
      ((k'.accessExposes s.inSpeculation insn a).foldl (s.emit k') t')

namespace Under
variable {su : Setup} {k : Tracer} {R : List Obs → List Obs → Prop} {s s' : State}
  {tr : TracerState}

/-- A part of a step that does not trace. -/
lemma map {f g : State → Option State} (h : Under R s tr)
    (hfg : ∀ tr, g (s.retrace tr) = (f s).map (·.retrace tr))
    (hff : ∀ tr, f (s.retrace tr) = (f s).map (·.retrace tr)) (hs : f s = some s') :
    g (s.retrace tr) = some (s'.retrace tr) ∧ Under R s' tr := by
  have keep := eq_retrace hff h.untracked h.disabled hs
  refine ⟨by rw [hfg,hs]; rfl,?_⟩
  rw [keep]
  exact ⟨rfl,rfl,h.executionTrace,h.instructionId,h.trace⟩

lemma emit_retrace (s : State) (tr : TracerState) : (s.retrace tr).emit k = s.emit k := by
  funext t e
  cases e <;> rfl

theorem seqTraceInstruction (hw : Weakens su.tracer k R) {i : Instruction} {address : ℕ}
    {insn : Insn} (h : Under R s tr) (hs : seqTraceInstruction su s i address insn = some s') :
    ∃ tr', ProteanAmulet.seqTraceInstruction (su.observing k) (s.retrace tr) i address insn =
      some (s'.retrace tr') ∧ Under R s' tr' := by
  unfold ProteanAmulet.seqTraceInstruction at hs ⊢
  rw [track_none h.untracked,Option.bind_eq_bind,Option.bind_some,
    observeInstruction_none h.untracked] at hs
  obtain ⟨tr₁,htr,rfl⟩ := Option.map_eq_some_iff.mp hs
  obtain ⟨htrace,hex,hid⟩ := analyze_trace htr
  have hl := shown_alike su s tr₁ address insn
  have hr := shown_alike (su.observing k) (s.retrace tr) tr address insn
  have hR : R (shown su s tr₁ address insn).trace
      (shown (su.observing k) (s.retrace tr) tr address insn).trace := by
    rw [shown_trace,shown_trace,htrace]
    change R _ (List.foldl ((s.retrace tr).emit k) _ _)
    rw [emit_retrace]
    exact hw.instruction s tr₁ tr address insn _ _ h.trace
  have hexec : (shown su s tr₁ address insn).executionTrace =
      (shown (su.observing k) (s.retrace tr) tr address insn).executionTrace := by
    rw [← hl.executionTrace,← hr.executionTrace,hex,h.executionTrace]
  refine ⟨observed (su.observing k) (s.retrace tr) tr address insn,?_,?_⟩
  · rw [track_none rfl,Option.bind_eq_bind,Option.bind_some,observeInstruction_none rfl]
    change ((k.analyze _ tr address).map _ = _)
    rw [analyze_plain hw.plain.2]
    rfl
  by_cases hc : (s.inSpeculation || !s.executionTracingEnabled) = true
  · rw [show observed su s tr₁ address insn = _ from if_pos hc,
      show observed (su.observing k) (s.retrace tr) tr address insn = _ from if_pos hc]
    exact ⟨h.untracked,h.disabled,hexec,by rw [← hl.instructionId,← hr.instructionId,hid,h.instructionId],hR⟩
  · rw [show observed su s tr₁ address insn = _ from if_neg hc,
      show observed (su.observing k) (s.retrace tr) tr address insn = _ from if_neg hc]
    simp only [Tracer.recordInstruction,hexec]
    exact ⟨h.untracked,h.disabled,rfl,rfl,hR⟩

theorem seqTraceMemAccess (hw : Weakens su.tracer k R) {insn : Insn} {a : Access} {value : ℤ}
    (h : Under R s tr) (hs : seqTraceMemAccess su s insn a value = some s') :
    ∃ tr', ProteanAmulet.seqTraceMemAccess (su.observing k) (s.retrace tr) insn a value =
      some (s'.retrace tr') ∧ Under R s' tr' := by
  unfold ProteanAmulet.seqTraceMemAccess at hs ⊢
  rw [track_none h.untracked,Option.bind_eq_bind,Option.bind_some,
    observeMemAccess_none h.untracked] at hs
  rw [track_none rfl,Option.bind_eq_bind,Option.bind_some,observeMemAccess_none rfl]
  have hR := hw.access s insn a _ _ h.trace
  rw [← emit_retrace s tr (k := k)] at hR
  have hlast : (su.observing k).tracer.assertLastPc (s.retrace tr).tracer (s.retrace tr).cpu.rip a :=
    assertLastPc_plain hw.plain.1 _ _
  rw [if_pos hlast]
  dsimp only at hs
  split at hs
  · obtain ⟨tr₁,htr,rfl⟩ := Option.map_eq_some_iff.mp hs
    by_cases hc : (s.inSpeculation || !s.executionTracingEnabled) = true
    · rw [if_pos hc] at htr
      cases htr
      rw [if_pos (by exact hc)]
      exact ⟨_,rfl,h.untracked,h.disabled,h.executionTrace,h.instructionId,hR⟩
    · rw [if_neg hc] at htr
      rw [if_neg (by exact hc)]
      obtain ⟨x,hx,htr⟩ := Option.bind_eq_some_iff.mp htr
      cases htr
      have hx' : tr.executionTrace[tr.instructionId]? = some x := by
        rw [← h.executionTrace,← h.instructionId]
        exact hx
      unfold Tracer.recordAccess
      dsimp only [State.retrace]
      rw [hx']
      refine ⟨_,rfl,h.untracked,h.disabled,?_,h.instructionId,hR⟩
      dsimp only
      rw [h.executionTrace,h.instructionId]
  · cases hs

theorem instructionHook (hw : Weakens su.tracer k R) {address : ℕ} {insn : Insn}
    (h : Under R s tr) (hs : instructionHook su s address insn = some s') :
    ∃ tr', ProteanAmulet.instructionHook (su.observing k) (s.retrace tr) address insn =
      some (s'.retrace tr') ∧ Under R s' tr' := by
  rw [instructionHook_eq] at hs
  obtain ⟨i,hi,hs⟩ := Option.bind_eq_some_iff.mp hs
  obtain ⟨s₁,h₁,hs⟩ := Option.bind_eq_some_iff.mp hs
  have hc : Under R (counted su s i) tr := by
    obtain ⟨w,b,hc⟩ := counted_eq su s i
    rw [hc]
    exact ⟨h.untracked,h.disabled,h.executionTrace,h.instructionId,h.trace⟩
  obtain ⟨tr₁,hu₁,hu⟩ := hc.seqTraceInstruction hw h₁
  obtain ⟨hs',hu'⟩ := hu.map (f := fun s => speculateInstruction su s address insn)
    (g := fun s => speculateInstruction (su.observing k) s address insn)
    (fun tr => speculateInstruction_retrace tr address insn)
    (fun tr => speculateInstruction_retrace (k := su.tracer) tr address insn) hs
  refine ⟨tr₁,?_,hu'⟩
  rw [instructionHook_eq]
  change (su.testCase.addressMap ((address : ℤ)-su.codeStart)).bind _ = _
  rw [hi,Option.bind_some,counted_retrace,hu₁,Option.bind_some,hs']

theorem traceMemAccess (hw : Weakens su.tracer k R) {insn : Insn} {a : Access} {value : ℤ}
    (h : Under R s tr) (hs : traceMemAccess su s insn a value = some s') :
    ∃ tr', ProteanAmulet.traceMemAccess (su.observing k) (s.retrace tr) insn a value =
      some (s'.retrace tr') ∧ Under R s' tr' := by
  rw [traceMemAccess_eq] at hs
  obtain ⟨s₁,h₁,hs⟩ := Option.bind_eq_some_iff.mp hs
  have hl : Under R (logged su s a) tr := by
    obtain ⟨logs,hl⟩ := logged_eq su s a
    rw [hl]
    exact ⟨h.untracked,h.disabled,h.executionTrace,h.instructionId,h.trace⟩
  obtain ⟨tr₁,hu₁,hu⟩ := hl.seqTraceMemAccess hw h₁
  obtain ⟨hs',hu'⟩ := hu.map (f := fun s => speculateMemAccess su s insn a value)
    (g := fun s => speculateMemAccess (su.observing k) s insn a value)
    (fun tr => speculateMemAccess_retrace tr insn a value)
    (fun tr => speculateMemAccess_retrace (k := su.tracer) tr insn a value) hs
  refine ⟨tr₁,?_,hu'⟩
  rw [traceMemAccess_eq,logged_retrace,hu₁,Option.bind_some,hs']

theorem runAccesses (hw : Weakens su.tracer k R) {insn : Insn} {c : Cpu} {as : List Access}
    {seen seen' : List (List Byte)} (h : Under R s tr)
    (hs : runAccesses su insn c as seen s = some (seen',s')) :
    ∃ tr', ProteanAmulet.runAccesses (su.observing k) insn c as seen (s.retrace tr) =
      some (seen',s'.retrace tr') ∧ Under R s' tr' := by
  induction as generalizing s seen tr with
  | nil =>
    cases hs
    exact ⟨tr,rfl,h⟩
  | cons a as ih =>
    unfold ProteanAmulet.runAccesses at hs ⊢
    split at hs
    · rename_i hwrite
      rw [if_pos hwrite]
      obtain ⟨s₁,h₁,hs⟩ := Option.bind_eq_some_iff.mp hs
      obtain ⟨tr₁,hu₁,hu⟩ := h.traceMemAccess hw h₁
      have hmem (m : Mem) : Under R { s₁ with mem := m } tr₁ :=
        ⟨hu.untracked,hu.disabled,hu.executionTrace,hu.instructionId,hu.trace⟩
      obtain ⟨tr',hrest,hu'⟩ := ih (hmem _) hs
      refine ⟨tr',?_,hu'⟩
      dsimp only
      rw [Option.bind_eq_bind,hu₁,Option.bind_some]
      exact hrest
    · rename_i hwrite
      rw [if_neg hwrite]
      obtain ⟨s₁,h₁,hs⟩ := Option.bind_eq_some_iff.mp hs
      obtain ⟨tr₁,hu₁,hu⟩ := h.traceMemAccess hw h₁
      obtain ⟨tr',hrest,hu'⟩ := ih hu hs
      refine ⟨tr',?_,hu'⟩
      rw [Option.bind_eq_bind,hu₁,Option.bind_some]
      exact hrest

end Under

/-- The same end of a step, with another tracer. -/
def Outcome.retrace (tr : TracerState) : Outcome → Outcome
  | .running s => .running (s.retrace tr)
  | .returned s => .returned (s.retrace tr)
  | .fault s => .fault (s.retrace tr)

/-- The same configuration, with another tracer. -/
def Config.retrace (c : Config) (tr : TracerState) : Config := ⟨c.phase,c.state.retrace tr⟩

namespace Under
variable {su : Setup} {k : Tracer} {R : List Obs → List Obs → Prop} {s s' : State}
  {tr : TracerState}

theorem execute (hw : Weakens su.tracer k R) {insn : Insn} {address : ℕ} {o : Outcome}
    (h : Under R s tr) (hs : execute su insn address s = some o) :
    ∃ tr', ProteanAmulet.execute (su.observing k) insn address (s.retrace tr) =
      some (o.retrace tr') ∧ Under R o.state tr' := by
  unfold ProteanAmulet.execute at hs ⊢
  by_cases hstop : s.stopRequested = true
  · rw [if_pos hstop] at hs
    cases hs
    rw [if_pos (by exact hstop)]
    exact ⟨tr,rfl,h.untracked,h.disabled,h.executionTrace,h.instructionId,h.trace⟩
  rw [if_neg hstop] at hs
  rw [if_neg (by exact hstop)]
  by_cases hrip : s.cpu.rip ≠ address
  · rw [if_pos hrip] at hs
    cases hs
    rw [if_pos (by exact hrip)]
    exact ⟨tr,rfl,h⟩
  rw [if_neg hrip] at hs
  rw [if_neg (by exact hrip)]
  obtain ⟨⟨seen,s₁⟩,h₁,hs⟩ := Option.bind_eq_some_iff.mp hs
  obtain ⟨tr₁,hu₁,hu⟩ := h.runAccesses hw h₁
  refine ⟨tr₁,?_⟩
  change (ProteanAmulet.runAccesses _ insn s.cpu (insn.accesses s.cpu) [] _).bind _ = _ ∧ _
  rw [hu₁,Option.bind_some]
  dsimp only at hs ⊢
  split at hs <;> rename_i hf <;> cases hs
  · rw [if_pos (by exact hf)]
    exact ⟨rfl,hu⟩
  · rw [if_neg (by exact hf)]
    exact ⟨rfl,hu.untracked,hu.disabled,hu.executionTrace,hu.instructionId,hu.trace⟩

theorem emuStep (hw : Weakens su.tracer k R) {o : Outcome} (h : Under R s tr)
    (hs : emuStep su s = some o) :
    ∃ tr', ProteanAmulet.emuStep (su.observing k) (s.retrace tr) = some (o.retrace tr') ∧
      Under R o.state tr' := by
  unfold ProteanAmulet.emuStep at hs ⊢
  by_cases hend : s.cpu.rip = su.codeEnd
  · rw [if_pos hend] at hs
    cases hs
    exact ⟨tr,if_pos hend,h⟩
  rw [if_neg hend] at hs
  cases hf : su.testCase.fetch s.cpu.rip with
  | none =>
    have hf' : (su.observing k).testCase.fetch (s.retrace tr).cpu.rip = none := hf
    rw [hf] at hs
    cases hs
    refine ⟨tr,(if_neg hend).trans ?_,h⟩
    rw [hf']
    rfl
  | some insn =>
    have hf' : (su.observing k).testCase.fetch (s.retrace tr).cpu.rip = some insn := hf
    rw [hf] at hs
    obtain ⟨s₁,h₁,hs⟩ := Option.bind_eq_some_iff.mp hs
    obtain ⟨tr₁,hu₁,hu⟩ := h.instructionHook hw h₁
    obtain ⟨tr',hex,hu'⟩ := hu.execute hw hs
    refine ⟨tr',(if_neg hend).trans ?_,hu'⟩
    rw [hf']
    change (ProteanAmulet.instructionHook _ (s.retrace tr) s.cpu.rip insn).bind _ = _
    rw [hu₁,Option.bind_some]
    exact hex

/-- A step of the emulator or a rollback. -/
theorem tick (hw : Weakens su.tracer k R) {c c' : Config} (h : Under R c.state tr)
    (hc : tick su c = some c') :
    ∃ tr', ProteanAmulet.tick (su.observing k) (c.retrace tr) = some (c'.retrace tr') ∧
      Under R c'.state tr' := by
  obtain ⟨phase,s⟩ := c
  unfold ProteanAmulet.tick at hc ⊢
  cases phase with
  | emulating first =>
    obtain ⟨o,ho,rfl⟩ := Option.map_eq_some_iff.mp hc
    obtain ⟨tr',ho',hu⟩ := h.emuStep hw ho
    refine ⟨tr',?_,?_⟩
    · dsimp only [Config.retrace]
      rw [ho']
      cases o <;> rfl
    · cases o <;> exact hu
  | draining =>
    dsimp only [Config.retrace] at hc ⊢
    split at hc
    · rename_i hspec
      obtain ⟨s₁,h₁,rfl⟩ := Option.map_eq_some_iff.mp hc
      have hroll : ∀ tr, rollback (s.retrace tr) = (rollback s).map (·.retrace tr) :=
        fun tr => rollback_retrace tr h.untracked
      obtain ⟨hu,hu'⟩ := h.map hroll hroll h₁
      refine ⟨tr,(if_pos hspec).trans ?_,hu'⟩
      rw [hu]
      rfl
    · rename_i hspec
      cases hc
      exact ⟨tr,if_neg hspec,h⟩
  | finished =>
    cases hc
    exact ⟨tr,rfl,h⟩
  | exited =>
    cases hc
    exact ⟨tr,rfl,h⟩

/-- A whole run. -/
theorem run (hw : Weakens su.tracer k R) {fuel : ℕ} {c : Config} (h : Under R c.state tr)
    (hs : run su fuel c = some s') :
    ∃ tr', ProteanAmulet.run (su.observing k) fuel (c.retrace tr) = some (s'.retrace tr') ∧
      Under R s' tr' := by
  induction fuel generalizing c tr with
  | zero => cases hs
  | succ fuel ih =>
    obtain ⟨phase,s⟩ := c
    have step (hc : (ProteanAmulet.tick su ⟨phase,s⟩).bind (ProteanAmulet.run su fuel) = some s') :
        ∃ tr', (ProteanAmulet.tick (su.observing k) (Config.retrace ⟨phase,s⟩ tr)).bind
          (ProteanAmulet.run (su.observing k) fuel) = some (s'.retrace tr') ∧ Under R s' tr' := by
      obtain ⟨c',hc',hs⟩ := Option.bind_eq_some_iff.mp hc
      obtain ⟨tr₁,hu₁,hu⟩ := h.tick hw hc'
      obtain ⟨tr',hrest,hu'⟩ := ih hu hs
      exact ⟨tr',by rw [hu₁,Option.bind_some,hrest],hu'⟩
    cases phase with
    | finished =>
      cases hs
      exact ⟨tr,rfl,h⟩
    | exited => cases hs
    | emulating first => exact step hs
    | draining => exact step hs

/-- One input, from any tracer that counts its instructions alike. -/
theorem executeInput (hw : Weakens su.tracer k R) {fuel : ℕ} {input : Input su.conf}
    (hd : s.taintingEnabled = false) (hid : s.tracer.instructionId = tr.instructionId)
    (hs : executeInput su fuel s input = some s') :
    ∃ tr', ProteanAmulet.executeInput (su.observing k) fuel (s.retrace tr) input =
      some (s'.retrace tr') ∧ Under R s' tr' := by
  unfold ProteanAmulet.executeInput at hs ⊢
  rw [begin_eq] at hs ⊢
  obtain ⟨c₀,h₀,hs⟩ := Option.bind_eq_some_iff.mp hs
  obtain ⟨c,hc,rfl⟩ := Option.map_eq_some_iff.mp h₀
  have hstart : Under R (started su input s c) (k.resetTrace tr (c.pinned su)) := by
    refine ⟨?_,hd,rfl,hid,hw.initial _⟩
    unfold started
    rw [hd]
    rfl
  obtain ⟨tr',hrun,hu⟩ := hstart.run (c := ⟨.emulating true,started su input s c⟩) hw hs
  refine ⟨tr',?_,hu⟩
  have hc' : loadRegisters inputRegisters input.getRegisters (s.retrace tr).cpu = some c := hc
  rw [hc',Option.map_some,Option.bind_some,← hrun]
  rfl

theorem executeInputs (hw : Weakens su.tracer k R) {fuel : ℕ} {inputs : List (Input su.conf)}
    {ss : List State} (hd : s.taintingEnabled = false)
    (hid : s.tracer.instructionId = tr.instructionId)
    (hs : executeInputs su fuel s inputs = some (ss,s')) :
    ∃ us tr', ProteanAmulet.executeInputs (su.observing k) fuel (s.retrace tr) inputs =
      some (us,s'.retrace tr') ∧ List.Forall₂ R (ss.map (·.tracer.trace)) (us.map (·.tracer.trace)) := by
  induction inputs generalizing s ss tr with
  | nil =>
    cases hs
    exact ⟨[],tr,rfl,.nil⟩
  | cons input inputs ih =>
    obtain ⟨s₁,h₁,hs⟩ := Option.bind_eq_some_iff.mp hs
    obtain ⟨⟨ss',last⟩,hrest,hs⟩ := Option.bind_eq_some_iff.mp hs
    cases hs
    obtain ⟨tr₁,hu₁,hu⟩ := executeInput hw hd hid h₁
    obtain ⟨us,tr',hrest',htraces⟩ := ih hu.disabled hu.instructionId hrest
    refine ⟨s₁.retrace tr₁ :: us,tr',?_,.cons hu.trace htraces⟩
    rw [ProteanAmulet.executeInputs,hu₁,Option.bind_eq_bind,Option.bind_some,hrest']
    rfl

end Under

/-! ### The hierarchy of the clauses -/

namespace Tracer

/-- The clauses whose observations are part of those of the clause. -/
def weaker : Tracer → List Tracer
  | .ct => [.pc,.memory]
  | .ctNonSpecStore => [.pc]
  | .ctr | .ctx | .cts => [.ct,.pc,.memory]
  | .prot | .arch => [.ctr,.ct,.pc,.memory]
  | .l1d | .pc | .memory => []

/-- The entries that a weaker clause has on its trace, too. -/
def keeps : Tracer → Obs → Bool
  | .pc, .pc _ | .memory, .addr _ | .ct, .pc _ | .ct, .addr _ => true
  | .ctr, .init _ | .ctr, .pc _ | .ctr, .addr _ => true
  | _, _ => false

/-- `ArchTracer` puts every address on the trace twice. -/
def single : List Obs → List Obs
  | .addr a :: .addr _ :: rest => .addr a :: single rest
  | o :: rest => o :: single rest
  | [] => []

/-- The trace of the weaker clause `k'`, from that of `k`. -/
def weaken (k k' : Tracer) (trace : List Obs) : List Obs :=
  (if k=.arch then single trace else trace).filter k'.keeps

/-- The entries do not end between two copies of an address. -/
def Whole (k : Tracer) (xs : List Obs) : Prop :=
  k=.arch → ∀ rest, single (xs ++ rest) = single xs ++ single rest

end Tracer

section Hierarchy
variable {k k' : Tracer} {s : State}

lemma emit_append (hk : k ≠ .l1d) (es : List Expose) (t : List Obs) :
    es.foldl (s.emit k) t = t ++ es.map s.obs := by
  induction es generalizing t with
  | nil => simp
  | cons e es ih =>
    have he : s.emit k t e = t ++ [s.obs e] := by
      cases e with
      | addr address => cases k <;> first | exact absurd rfl hk | rfl
      | pc | reg | mem => rfl
    rw [List.foldl_cons,he,ih,List.map_cons,List.append_assoc,List.singleton_append]

lemma Tracer.Whole.weaken_append {xs : List Obs} (hx : k.Whole xs) (rest : List Obs) :
    k.weaken k' (xs ++ rest) = k.weaken k' xs ++ k.weaken k' rest := by
  unfold Tracer.weaken
  by_cases hk : k=.arch
  · simp only [if_pos hk,hx hk rest,List.filter_append]
  · simp only [if_neg hk,List.filter_append]

lemma Tracer.Whole.append {xs ys : List Obs} (hx : k.Whole xs) (hy : k.Whole ys) :
    k.Whole (xs ++ ys) := by
  intro hk rest
  rw [List.append_assoc,hx hk,hx hk,hy hk,List.append_assoc]

/-- Registers are on no weaker trace. -/
lemma weaken_regs (hk : k ≠ .arch) (hk' : k' ∈ k.weaker) (rs : List RegName) (xs : List Obs) :
    k.weaken k' (xs ++ (rs.map Expose.reg).map s.obs) = k.weaken k' xs := by
  have hnone : ∀ o ∈ (rs.map Expose.reg).map s.obs, ¬ k'.keeps o = true := by
    intro o ho
    obtain ⟨e,he,rfl⟩ := List.mem_map.mp ho
    obtain ⟨r,-,rfl⟩ := List.mem_map.mp he
    cases k' <;> exact Bool.false_ne_true
  simp only [Tracer.weaken,if_neg hk,List.filter_append,List.filter_eq_nil_iff.mpr hnone,
    List.append_nil]

lemma weaken_instruction (hk' : k' ∈ k.weaker) (tr tr' : TracerState) (address : ℕ)
    (insn : Insn) : k.weaken k' ((k.instructionExposes tr address insn).map s.obs) =
      (k'.instructionExposes tr' address insn).map s.obs := by
  have single : ∀ k, k' ∈ Tracer.weaker k → k.weaken k' [.pc address] =
      (k'.instructionExposes tr' address insn).map s.obs := by
    intro k hk'
    cases k <;> cases k' <;> first | rfl | exact absurd hk' (by decide)
  cases k with
  | l1d | pc | memory => cases hk'
  | ct | ctNonSpecStore | ctr | arch => exact single _ hk'
  | ctx =>
    rw [← single _ hk']
    exact weaken_regs (by decide) hk' insn.cs.addressRegs [.pc address]
  | prot =>
    rw [← single _ hk']
    exact weaken_regs (by decide) hk' (tr.unprotRegs ++ insn.cs.addressRegs) [.pc address]
  | cts =>
    rw [← single _ hk']
    exact weaken_regs (by decide) hk' (insn.cs.addressRegs ++
      ((tr.analysis.bind fun d => d.pre address).elim [] CTSTracer.elements)) [.pc address]

lemma weaken_access (hk' : k' ∈ k.weaker) (spec : Bool) (insn : Insn) (a : Access) :
    k.weaken k' ((k.accessExposes spec insn a).map s.obs) =
      (k'.accessExposes spec insn a).map s.obs := by
  -- `ArchTracer` and `ProtTracer` expose loaded data
  obtain ⟨isWrite,address,size⟩ := a
  cases k <;> cases k' <;> first | rfl | exact absurd hk' (by decide) | skip
  all_goals
    unfold Tracer.accessExposes
    cases isWrite <;> cases spec <;> cases insn.isProtected <;> rfl

lemma weaken_initial (hk' : k' ∈ k.weaker) (c : Cpu) :
    k.weaken k' (k.initialTrace c) = k'.initialTrace c := by
  cases k <;> cases k' <;> first | rfl | exact absurd hk' (by decide)

lemma whole_initial (k : Tracer) (c : Cpu) : k.Whole (k.initialTrace c) := by
  rintro rfl rest
  rfl

lemma whole_instruction (k : Tracer) (s : State) (tr : TracerState) (address : ℕ) (insn : Insn) :
    k.Whole ((k.instructionExposes tr address insn).map s.obs) := by
  rintro rfl rest
  rfl

lemma whole_access (k : Tracer) (s : State) (spec : Bool) (insn : Insn) (a : Access) :
    k.Whole ((k.accessExposes spec insn a).map s.obs) := by
  rintro rfl rest
  obtain ⟨isWrite,address,size⟩ := a
  cases isWrite <;> rfl

/-- The trace of a weaker clause is computed from that of the stronger one. -/
theorem weakens_of_weaker (hk' : k' ∈ k.weaker) :
    Weakens k k' fun t t' => k.Whole t ∧ t' = k.weaken k' t := by
  obtain ⟨hk,hl⟩ : k ≠ .l1d ∧ k' ≠ .l1d := by
    cases k <;> cases k' <;> first | exact absurd hk' (by decide) | decide
  -- what is observed at a hook is appended on both sides
  have push {t t' xs ys : List Obs} (h : k.Whole t ∧ t' = k.weaken k' t) (hx : k.Whole xs)
      (hy : k.weaken k' xs = ys) : k.Whole (t ++ xs) ∧ t' ++ ys = k.weaken k' (t ++ xs) := by
    refine ⟨h.1.append hx,?_⟩
    rw [h.1.weaken_append,hy,h.2]
  refine ⟨?_,fun c => ⟨whole_initial k c,(weaken_initial hk' c).symm⟩,?_,?_⟩
  · cases k <;> cases k' <;> first | exact absurd hk' (by decide) | decide
  · intro s tr tr' address insn t t' h
    rw [emit_append hk,emit_append hl]
    exact push h (whole_instruction k s tr address insn) (weaken_instruction hk' tr tr' address insn)
  · intro s insn a t t' h
    rw [emit_append hk,emit_append hl]
    exact push h (whole_access k s _ insn a) (weaken_access hk' _ insn a)

/-- The bit of a cache set. -/
def cacheSet (address : ℕ) : ℕ := 0x8000000000000000 >>> (address/64%64)

/-- The cache sets of the addresses on a trace. -/
def touched : List Obs → ℕ
  | [] => 0
  | .addr a :: t => cacheSet a ||| touched t
  | _ :: t => touched t

lemma touched_append (t t' : List Obs) : touched (t ++ t') = touched t ||| touched t' := by
  induction t with
  | nil => simp [touched]
  | cons o t ih => cases o <;> simp [touched,ih,Nat.or_assoc]

lemma touched_regs (s : State) (rs : List RegName) :
    touched ((rs.map Expose.reg).map s.obs) = 0 := by
  induction rs with
  | nil => rfl
  | cons r rs ih => exact ih

lemma touched_instruction (k : Tracer) (s : State) (tr : TracerState) (address : ℕ) (insn : Insn) :
    touched ((k.instructionExposes tr address insn).map s.obs) = 0 := by
  cases k with
  | l1d | memory | pc | ct | ctNonSpecStore | ctr | arch => rfl
  | ctx => exact touched_regs s insn.cs.addressRegs
  | prot => exact touched_regs s (tr.unprotRegs ++ insn.cs.addressRegs)
  | cts => exact touched_regs s (insn.cs.addressRegs ++
      ((tr.analysis.bind fun d => d.pre address).elim [] CTSTracer.elements))

/-- The clauses that expose every address. -/
def Tracer.exposesAddresses (k : Tracer) : Prop := k ≠ .pc ∧ k ≠ .l1d ∧ k ≠ .ctNonSpecStore

lemma touched_access (hk : k.exposesAddresses) (s : State) (spec : Bool) (insn : Insn) (a : Access) :
    touched ((k.accessExposes spec insn a).map s.obs) = cacheSet a.address := by
  obtain ⟨isWrite,address,size⟩ := a
  have one : cacheSet address ||| 0 = cacheSet address := Nat.or_zero _
  have two : cacheSet address ||| (cacheSet address ||| 0) = cacheSet address := by
    rw [one,Nat.or_self]
  cases k with
  | pc => exact absurd rfl hk.1
  | l1d => exact absurd rfl hk.2.1
  | ctNonSpecStore => exact absurd rfl hk.2.2
  | memory | ct | ctr | ctx | cts => exact one
  | prot => cases isWrite <;> cases hp : insn.isProtected <;>
      simp [Tracer.accessExposes,hp,State.obs,touched]
  | arch => cases isWrite <;> exact two

/-- The two halves of the trace of the L1D clause, for what was accessed outside of speculation
and in it. -/
def Marks (t u : List Obs) : Prop :=
  ∃ s₀ s₁, u = [.sets s₀,.sets s₁] ∧ s₀ ||| s₁ = touched t

theorem weakens_l1d (hk : k.exposesAddresses) : Weakens k .l1d Marks := by
  refine ⟨by decide,?_,?_,?_⟩
  · intro c
    refine ⟨0,0,rfl,?_⟩
    cases k with
    | pc => exact absurd rfl hk.1
    | l1d => exact absurd rfl hk.2.1
    | ctNonSpecStore => exact absurd rfl hk.2.2
    | memory | ct | ctr | ctx | cts | prot | arch => rfl
  · rintro s tr tr' address insn t t' ⟨s₀,s₁,rfl,hs⟩
    refine ⟨s₀,s₁,rfl,?_⟩
    rw [emit_append hk.2.1,touched_append,touched_instruction,Nat.or_zero,hs]
  · rintro s insn a t t' ⟨s₀,s₁,rfl,hs⟩
    rw [emit_append hk.2.1]
    cases hspec : s.inSpeculation with
    | false =>
      refine ⟨s₀ ||| cacheSet a.address,s₁,?_,?_⟩
      · simp [Tracer.accessExposes,State.emit,Tracer.pushAddress,hspec,Obs.value,cacheSet]
      · rw [touched_append,touched_access hk,← hs,Nat.or_assoc,Nat.or_assoc,
          Nat.or_comm (cacheSet _)]
    | true =>
      refine ⟨s₀,s₁ ||| cacheSet a.address,?_,?_⟩
      · simp [Tracer.accessExposes,State.emit,Tracer.pushAddress,hspec,Obs.value,cacheSet]
      · rw [touched_append,touched_access hk,← hs,Nat.or_assoc]

end Hierarchy

/-- Before the first input a stale taint tracker does not matter. -/
lemma executeInput_retrace {su : Setup} {fuel : ℕ} {s : State} (hd : s.taintingEnabled = false)
    (input : Input su.conf) :
    executeInput su fuel (s.retrace s.tracer) input = executeInput su fuel s input := by
  unfold executeInput
  rw [begin_eq,begin_eq]
  have hstart (c : Cpu) : started su input (s.retrace s.tracer) c = started su input s c := by
    unfold started
    rw [hd]
    rfl
  simp only [hstart]
  rfl

lemma executeInputs_retrace {su : Setup} {fuel : ℕ} {s u : State}
    (hd : s.taintingEnabled = false) {inputs : List (Input su.conf)} {us : List State}
    (h : executeInputs su fuel (s.retrace s.tracer) inputs = some (us,u)) :
    ∃ u', executeInputs su fuel s inputs = some (us,u') := by
  cases inputs with
  | nil =>
    cases h
    exact ⟨s,rfl⟩
  | cons input inputs =>
    rw [executeInputs,executeInput_retrace hd] at h
    exact ⟨u,h⟩

/-- Another observation clause gives related traces for all inputs. -/
theorem traceTestCase_related {su : Setup} {k : Tracer} {R : List Obs → List Obs → Prop}
    (hw : Weakens su.tracer k R) {fuel : ℕ} {s : State} (hd : s.taintingEnabled = false)
    {inputs : List (Input su.conf)} {nesting : ℕ} {ts : List (List Obs)} {last : State}
    (h : traceTestCase su fuel s inputs nesting = some (ts,last)) :
    ∃ us last', traceTestCase (su.observing k) fuel s inputs nesting = some (us,last') ∧
      List.Forall₂ R ts us := by
  obtain ⟨⟨ss,s'⟩,hs,h⟩ := Option.bind_eq_some_iff.mp h
  cases h
  obtain ⟨us,tr',hu,hR⟩ := Under.executeInputs (k := k) hw (by exact hd) rfl hs
  obtain ⟨u',hu⟩ := @executeInputs_retrace (su.observing k) _ _ _ (by exact hd) _ _ hu
  refine ⟨us.map (·.tracer.trace),{ u' with executionTracingEnabled := false },?_,hR⟩
  unfold traceTestCase
  rw [hu]
  rfl

/-- The observation clauses form a hierarchy: for every program, execution clause, nesting and
list of inputs, whenever the model returns, it also returns under every weaker clause, and the
weaker traces are computed from the stronger ones, entry by entry. The L1D trace marks exactly the
cache sets of the addresses on the trace. -/
theorem traceTestCase_weaken (su : Setup) (fuel : ℕ) (s : State) (hd : s.taintingEnabled = false)
    (inputs : List (Input su.conf)) (nesting : ℕ) (ts : List (List Obs)) (last : State)
    (h : traceTestCase su fuel s inputs nesting = some (ts,last)) :
    (∀ k ∈ su.tracer.weaker, ∃ last', traceTestCase (su.observing k) fuel s inputs nesting =
      some (ts.map (su.tracer.weaken k),last')) ∧
    (su.tracer.exposesAddresses → ∃ us last',
      traceTestCase (su.observing .l1d) fuel s inputs nesting = some (us,last') ∧
        List.Forall₂ Marks ts us) := by
  refine ⟨fun k hk => ?_,fun hk => traceTestCase_related (weakens_l1d hk) hd h⟩
  obtain ⟨us,last',hu,hR⟩ := traceTestCase_related (weakens_of_weaker hk) hd h
  refine ⟨last',?_⟩
  have hmap : us = ts.map (su.tracer.weaken k) := by
    clear hu h
    induction hR with
    | nil => rfl
    | cons hab _ ih => rw [List.map_cons,hab.2,ih]
  rw [hu,hmap]

section Witnesses
open Asm

/-- A load behind a bypassed store. -/
def storeLoad (k : Tracer) : Setup := setup .bpas k [store .R14 0 .A,load .B .R14 none 0]

/-- The ARCH trace of a run with a bypassed store gives its CT trace. -/
theorem traceTestCase_weaken_storeLoad :
    ∃ ts last last', traceTestCase (storeLoad .arch) 20 State.fresh [input [(1024,5)]] 1 =
        some (ts,last) ∧
      traceTestCase (storeLoad .ct) 20 State.fresh [input [(1024,5)]] 1 =
        some (ts.map (Tracer.arch.weaken .ct),last') := by
  have hsome : (traceTestCase (storeLoad .arch) 20 State.fresh [input [(1024,5)]] 1).isSome := by
    decide +kernel
  obtain ⟨⟨ts,last⟩,h⟩ := Option.isSome_iff_exists.mp hsome
  obtain ⟨last',h'⟩ := (traceTestCase_weaken (storeLoad .arch) 20 State.fresh rfl
    [input [(1024,5)]] 1 ts last h).1 .ct (by decide)
  exact ⟨ts,last,last',h,h'⟩

end Witnesses

end ProteanAmulet
