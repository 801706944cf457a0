import ProteanAmulet.Model.TaintTracker
import ProteanAmulet.Model.Tracer

/-! The state of the contract model and the operations its hooks are made of. Lists that grow
at the end in the source and are popped there (`checkpoints`, `store_logs`) have their last
element first. -/
namespace ProteanAmulet

/-- The values of `contract_execution_clause`. -/
inductive Clause where
  | seq | cond | bpas | null | condBpas
  deriving DecidableEq, Repr

/-- What stays the same while a test case is loaded. -/
structure Setup where
  conf : Conf
  clause : Clause
  tracer : Tracer
  sandboxBase : ℕ
  codeStart : ℕ
  testCase : TestCase

namespace Setup
variable (su : Setup)

def codeEnd : ℕ := su.codeStart+su.testCase.codeLength
def overflowRegionSize : ℕ := 4096
def mainRegion : ℕ := su.sandboxBase+overflowRegionSize
def assistRegionBase : ℕ := su.mainRegion+su.conf.inputMainRegionSize
def upperOverflowBase : ℕ := su.assistRegionBase+su.conf.inputAssistRegionSize
def stackBase : ℕ := su.sandboxBase+su.conf.inputMainRegionSize-8

/-- `initial_taints`. -/
def initialTaints : List Label :=
  match su.tracer with
  | .ctr | .arch => [.A,.B,.C,.D,.SI,.DI].map (fun r => .reg (.gpr r)) ++ [.reg .RSP] ++
      [.CF,.PF,.AF,.ZF,.SF,.TF,.IF,.DF,.OF,.AC].map .flag
  | _ => []

end Setup

/-- The part of the state that a rollback is meant to give back. -/
structure Snapshot where
  cpu : Cpu
  mem : Mem
  speculationWindow : ℕ

/-- An entry of `checkpoints`. The field `atCall` is history: it records the state in which
`checkpoint` was called and is never read by the model. -/
structure Checkpoint where
  context : Cpu
  nextInstruction : ℕ
  flags : BitVec 64
  specWindow : ℕ
  atCall : Snapshot

/-- `previous_store`; the address zero stands for no store. -/
structure PreviousStore where
  address : ℕ := 0
  size : ℕ := 0
  oldValue : List Byte := []
  value : ℤ := 0

/-- The model object together with its emulator. -/
structure State where
  cpu : Cpu
  mem : Mem
  nesting : ℕ := 0
  inSpeculation : Bool := false
  speculationWindow : ℕ := 0
  checkpoints : List Checkpoint := []
  storeLogs : List (List (ℕ × List Byte)) := []
  previousStore : PreviousStore := {}
  latestRollbackAddress : ℕ := 0
  /-- `X86UnicornNull.instruction_address`. -/
  instructionAddress : ℕ := 0
  tracer : TracerState := {}
  /-- `none` is the dummy tracker. -/
  taintTracker : Option TaintTracker := none
  taintingEnabled : Bool := false
  executionTracingEnabled : Bool := false
  /-- A pending `emu_stop`. -/
  stopRequested : Bool := false

/-- A new model with a freshly loaded test case. -/
def State.fresh : State where
  cpu := { reg := fun _ => 0, eflags := 2, rip := 0 }
  mem := fun _ => 0

namespace State

def snapshot (s : State) : Snapshot := ⟨s.cpu,s.mem,s.speculationWindow⟩

/-- A call of a taint tracker method; the dummy does nothing. -/
def track (s : State) (f : TaintTracker → Option TaintTracker) : Option State :=
  match s.taintTracker with
  | none => some s
  | some t => (f t).map fun t' => { s with taintTracker := some t' }

def push (s : State) (o : Obs) : State :=
  { s with tracer := { s.tracer with trace := s.tracer.trace ++ [o] } }

/-- The four ways to put something on the trace. -/
def expose (k : Tracer) (s : State) : Expose → Option State
  | .pc address => (s.push (.pc address)).track fun t => some t.taintPc
  | .addr address =>
    track { s with tracer := { s.tracer with
      trace := k.pushAddress s.inSpeculation address s.tracer.trace } }
      fun t => some t.taintMemoryAccessAddress
  | .reg r => (s.push (.reg (s.cpu.read r))).track fun t => t.taintReg r
  | .mem address size => (s.push (.mem (fromBytes (Memory.read s.mem address size)))).track
      fun t => some t.taintMemoryLoad

def exposeAll (k : Tracer) (s : State) (es : List Expose) : Option State :=
  es.foldlM (expose k) s

end State

section Hooks
variable (su : Setup)

/-- `observe_instruction`. The base class looks the instruction up in the address map. -/
def observeInstruction (s : State) (address : ℕ) (insn : Insn) : Option State := do
  let tr ← su.tracer.analyze su.testCase s.tracer address
  let s ← { s with tracer := tr }.exposeAll su.tracer
    (su.tracer.instructionExposes tr address insn)
  let s := { s with tracer := su.tracer.noteInstruction s.tracer address insn }
  if s.inSpeculation || !s.executionTracingEnabled then return s
  return { s with tracer := Tracer.recordInstruction s.tracer ((address : ℤ)-su.codeStart) }

/-- `observe_mem_access`. -/
def observeMemAccess (s : State) (insn : Insn) (a : Access) (value : ℤ) : Option State := do
  let val := if a.isWrite then value else fromBytes (Memory.read s.mem a.address a.size)
  let s ← s.exposeAll su.tracer (su.tracer.accessExposes s.inSpeculation insn a)
  if su.tracer.assertLastPc s.tracer s.cpu.rip a then
    if s.inSpeculation || !s.executionTracingEnabled then return s
    let tr ← Tracer.recordAccess s.tracer ⟨(a.address : ℤ)-su.sandboxBase,val,a.isWrite⟩
    return { s with tracer := tr }
  else none

/-- `checkpoint`. -/
def checkpoint (s : State) (nextInstruction : ℕ) : Option State :=
  { s with
    checkpoints := ⟨s.cpu,nextInstruction,s.cpu.eflags,s.speculationWindow,s.snapshot⟩ ::
      s.checkpoints
    storeLogs := [] :: s.storeLogs
    inSpeculation := true }.track fun t => some t.checkpoint

/-- `store_logs[-1].append`; an empty list is an `IndexError`. -/
def appendLog (s : State) (entry : ℕ × List Byte) : Option State :=
  match s.storeLogs with
  | [] => none
  | log :: logs => some { s with storeLogs := (entry :: log) :: logs }

end Hooks

end ProteanAmulet
