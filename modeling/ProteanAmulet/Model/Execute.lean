import ProteanAmulet.Model.Hooks

/-! Emulation of one instruction after the other, rollbacks, and the runs of
`_execute_test_case`. Fuel bounds the number of steps; the real-time limit of the emulator is
not modelled. -/
namespace ProteanAmulet
variable (su : Setup)

/-- The accesses of one instruction, each hook before its access takes effect. -/
def runAccesses (insn : Insn) (c : Cpu) :
    List Access → List (List Byte) → State → Option (List (List Byte) × State)
  | [], seen, s => some (seen,s)
  | a :: rest, seen, s =>
    if a.isWrite then do
      let value := insn.storeValue c seen
      let s ← traceMemAccess su s insn a value
      runAccesses insn c rest seen
        { s with mem := Memory.write s.mem a.address (leBytes value a.size) }
    else do
      let s ← traceMemAccess su s insn a 0
      runAccesses insn c rest (seen ++ [Memory.read s.mem a.address a.size]) s

/-- How a step of the emulator ends. -/
inductive Outcome where
  | running (s : State)
  | returned (s : State)
  | fault (s : State)

/-- After the instruction hook: the emulation was stopped, the hook moved the instruction
pointer, or the instruction is executed. -/
def execute (insn : Insn) (address : ℕ) (s : State) : Option Outcome :=
  if s.stopRequested then some (.returned { s with stopRequested := false })
  else if s.cpu.rip ≠ address then some (.running s)
  else do
    let (seen,s') ← runAccesses su insn s.cpu (insn.accesses s.cpu) [] s
    if insn.faults s.cpu seen then return .fault s'
    return .running { s' with cpu := insn.finish s.cpu seen }

/-- One step of `emu_start`. -/
def emuStep (s : State) : Option Outcome :=
  if s.cpu.rip = su.codeEnd then some (.returned s)
  else match su.testCase.fetch s.cpu.rip with
    | none => some (.fault s)
    | some insn => do
      let s' ← instructionHook su s s.cpu.rip insn
      execute su insn s.cpu.rip s'

/-- `rollback` up to the restart of the emulation. -/
def restore (s : State) : Option State :=
  match s.checkpoints, s.storeLogs with
  | cp :: cps, log :: logs =>
    { s with
      checkpoints := cps
      storeLogs := logs
      inSpeculation := !cps.isEmpty
      latestRollbackAddress := cp.nextInstruction
      cpu := { cp.context with eflags := cp.flags }
      speculationWindow := cp.specWindow
      mem := Memory.undo log s.mem
      previousStore := {} }.track fun t => t.rollback
  | _, _ => none

/-- `rollback`: the emulation restarts at the saved address. -/
def rollback (s : State) : Option State :=
  (restore s).map fun s' =>
    { s' with cpu := { s'.cpu with rip := s'.latestRollbackAddress } }

/-- Where the body of the loop over the inputs is: in the first or a later `emu_start`, at
the test of `while self.in_speculation`, or done. A fault outside speculation in the first
`emu_start` exits the process. -/
inductive Phase where
  | emulating (first : Bool)
  | draining
  | finished
  | exited
  deriving DecidableEq, Repr

structure Config where
  phase : Phase
  state : State

/-- The phase after a step of the emulator. -/
def Outcome.next (first : Bool) : Outcome → Config
  | .running s => ⟨.emulating first,s⟩
  | .returned s => ⟨.draining,s⟩
  | .fault s => ⟨if first && !s.inSpeculation then .exited else .draining,s⟩

def tick (c : Config) : Option Config :=
  match c.phase with
  | .emulating first => (emuStep su c.state).map (Outcome.next first)
  | .draining =>
    if c.state.inSpeculation then (rollback c.state).map (Config.mk (.emulating false))
    else some ⟨.finished,c.state⟩
  | .finished | .exited => some c

/-- A number of steps. -/
def ticks : ℕ → Config → Option Config
  | 0, c => some c
  | n+1, c => (tick su c).bind (ticks n)

/-- Run until the input is finished; `none` if the fuel runs out, a Python exception escapes
or the process exits. -/
def run : ℕ → Config → Option State
  | 0, _ => none
  | fuel+1, c =>
    match c.phase with
    | .finished => some c.state
    | .exited => none
    | _ => (tick su c).bind (run fuel)

/-- `reset_model`. -/
def resetModel (s : State) : State :=
  { s with
    checkpoints := []
    inSpeculation := false
    speculationWindow := 0
    latestRollbackAddress := 0
    tracer := su.tracer.resetTrace s.tracer s.cpu
    taintTracker :=
      if s.taintingEnabled then some (TaintTracker.init su.initialTaints su.sandboxBase)
      else none }

/-- The registers that `_load_input` sets from the input; `none` is EFLAGS. -/
def inputRegisters : List (Option Gpr) :=
  [some .A,some .B,some .C,some .D,some .SI,some .DI,none]

def loadRegister (c : Cpu) (r : Option Gpr) (v : BitVec 64) : Cpu :=
  match r with
  | some g => c.setReg g v
  | none => { c with eflags := (v &&& 2263) ||| 2 }

/-- The loop over `get_registers()`; too many values are an `IndexError`. -/
def loadRegisters : List (Option Gpr) → List (BitVec 64) → Cpu → Option Cpu
  | _, [], c => some c
  | [], _ :: _, _ => none
  | r :: rs, v :: vs, c => loadRegisters rs vs (loadRegister c r v)

/-- The memory writes of `_load_input`, the last one on top. -/
def loadMemory (input : Input su.conf) (m : Mem) : Mem :=
  Memory.fill
    (Memory.fill (Memory.fill m su.sandboxBase Setup.overflowRegionSize fun _ => 0)
      su.upperOverflowBase Setup.overflowRegionSize fun _ => 0)
    su.sandboxBase (8*su.conf.alignedSize) input.byte

/-- `_load_input`. -/
def loadInput (input : Input su.conf) (s : State) : Option State := do
  let c ← loadRegisters inputRegisters input.getRegisters s.cpu
  let c := c.setReg .SP (BitVec.ofNat 64 su.stackBase)
  let c := c.setReg .BP (BitVec.ofNat 64 su.stackBase)
  let c := c.setReg .R14 (BitVec.ofNat 64 su.sandboxBase)
  return { s with cpu := c, mem := loadMemory su input s.mem }

/-- From the first `reset_model` to the start of the emulation. -/
def begin (input : Input su.conf) (s : State) : Option Config := do
  let s ← loadInput su input (resetModel su s)
  let s := resetModel su s
  return ⟨.emulating true,{ s with cpu := { s.cpu with rip := su.codeStart } }⟩

/-- One round of the loop of `_execute_test_case`. -/
def executeInput (fuel : ℕ) (s : State) (input : Input su.conf) : Option State :=
  (begin su input s).bind (run su fuel)

/-- `_execute_test_case`: the state at the end of every input, and the last one. -/
def executeInputs (fuel : ℕ) : State → List (Input su.conf) → Option (List State × State)
  | s, [] => some ([],s)
  | s, input :: inputs => do
    let s' ← executeInput su fuel s input
    let (ss,last) ← executeInputs fuel s' inputs
    return (s' :: ss,last)

/-- `trace_test_case`: the observations of every input, before they are hashed. -/
def traceTestCase (fuel : ℕ) (s : State) (inputs : List (Input su.conf)) (nesting : ℕ) :
    Option (List (List Obs) × State) := do
  let (ss,last) ← executeInputs su fuel
    { s with executionTracingEnabled := true, nesting := nesting } inputs
  return (ss.map (·.tracer.trace),{ last with executionTracingEnabled := false })

/-- `load_test_case`: a new emulator; the fields of the model object stay. -/
def loadTestCase (s : State) : State := { s with cpu := State.fresh.cpu, mem := State.fresh.mem }

/-- The configurations of a model object over its life: test cases are loaded, and inputs are
run by `trace_test_case` and `get_taints` with any nesting. `Start` is asked of the state in
which an input starts. -/
inductive Session (Start : Setup → State → Prop) : Setup → Config → Prop
  | fresh (su : Setup) : Session Start su ⟨.finished,State.fresh⟩
  | load {su : Setup} {s : State} (tc : TestCase) :
      Session Start su ⟨.finished,s⟩ →
      Session Start { su with testCase := tc } ⟨.finished,loadTestCase s⟩
  | begin {su : Setup} {s : State} {c : Config} (nesting : ℕ) (tainting tracing : Bool)
      (input : Input su.conf) : Session Start su ⟨.finished,s⟩ → Start su s →
      begin su input { s with
        nesting := nesting, taintingEnabled := tainting, executionTracingEnabled := tracing } =
        some c → Session Start su c
  | tick {su : Setup} {c c' : Config} :
      Session Start su c → tick su c = some c' → Session Start su c'

theorem Session.ticks {Start : Setup → State → Prop} {su : Setup} {n : ℕ} {c c' : Config}
    (h : Session Start su c) (ht : ticks su n c = some c') : Session Start su c' := by
  induction n generalizing c with
  | zero =>
    cases ht
    exact h
  | succ n ih =>
    obtain ⟨c₁,h₁,ht⟩ := Option.bind_eq_some_iff.mp ht
    exact ih (h.tick h₁) ht

theorem Session.begin_ticks {Start : Setup → State → Prop} {su : Setup} {s : State} {c : Config}
    (h : Session Start su ⟨.finished,s⟩) (hs : Start su s) (nesting : ℕ)
    (tainting tracing : Bool) (input : Input su.conf) (n : ℕ)
    (ht : (ProteanAmulet.begin su input { s with
      nesting := nesting, taintingEnabled := tainting, executionTracingEnabled := tracing }).bind
      (ProteanAmulet.ticks su n) = some c) : Session Start su c := by
  obtain ⟨c₁,h₁,ht⟩ := Option.bind_eq_some_iff.mp ht
  exact (h.begin nesting tainting tracing input hs h₁).ticks ht

/-- `get_taints`. With the dummy tracker the taint is not computed. -/
def getTaints (fuel : ℕ) (s : State) (inputs : List (Input su.conf)) (nesting : ℕ) :
    Option (List (InputTaint su.conf) × State) := do
  let (ss,last) ← executeInputs su fuel
    { s with taintingEnabled := true, nesting := nesting } inputs
  let taints ← ss.mapM fun s' => s'.taintTracker.map (TaintTracker.getTaint su.conf)
  return (taints,{ last with taintingEnabled := false })

/-- A new model, as `trace_test_case` sets it up. -/
def tracedModel (nesting : ℕ) : State :=
  { State.fresh with executionTracingEnabled := true, nesting := nesting }

/-- A new model, as `get_taints` sets it up. -/
def trackedModel (nesting : ℕ) : State :=
  { State.fresh with taintingEnabled := true, nesting := nesting }

variable {su}

/-- The trace of a single input. -/
lemma traceTestCase_single {fuel n : ℕ} {i : Input su.conf} {s : State}
    (h : executeInput su fuel (tracedModel n) i = some s) :
    traceTestCase su fuel State.fresh [i] n =
      some ([s.tracer.trace],{ s with executionTracingEnabled := false }) := by
  have hx : executeInputs su fuel (tracedModel n) [i] = some ([s],s) := by
    simp [executeInputs,h]
  unfold traceTestCase
  rw [show ({ State.fresh with executionTracingEnabled := true, nesting := n } : State) =
    tracedModel n from rfl,hx]
  rfl

/-- The taint of a single input. -/
lemma getTaints_single {fuel n : ℕ} {i : Input su.conf} {taint : InputTaint su.conf} {s' : State}
    (h : getTaints su fuel State.fresh [i] n = some ([taint],s')) :
    ∃ s t, executeInput su fuel (trackedModel n) i = some s ∧ s.taintTracker = some t ∧
      taint = t.getTaint su.conf := by
  obtain ⟨⟨ss,last⟩,hss,h⟩ := Option.bind_eq_some_iff.mp h
  obtain ⟨s,hs,hss⟩ := Option.bind_eq_some_iff.mp hss
  cases hss
  obtain ⟨ts,hts,h⟩ := Option.bind_eq_some_iff.mp h
  cases h
  simp only [List.mapM_cons,List.mapM_nil,Option.bind_eq_bind] at hts
  obtain ⟨x,hx,hts⟩ := Option.bind_eq_some_iff.mp hts
  obtain ⟨t,ht,rfl⟩ := Option.map_eq_some_iff.mp hx
  cases hts
  exact ⟨_,t,hs,ht,rfl⟩

end ProteanAmulet
