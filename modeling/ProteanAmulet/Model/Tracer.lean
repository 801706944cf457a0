import ProteanAmulet.Model.Cts

/-! The observation clauses. What a tracer puts on the contract trace at a hook is given as a
list of exposures, in the order of the calls in the source. The entries of the trace carry
the kind of the call that made them; only their values are hashed. -/
namespace ProteanAmulet

/-- One entry of `trace`. -/
inductive Obs where
  | init (v : ℕ)
  | pc (v : ℕ)
  | addr (v : ℕ)
  | reg (v : ℕ)
  | mem (v : ℕ)
  | sets (v : ℕ)
  deriving DecidableEq, Repr

def Obs.value : Obs → ℕ
  | .init v | .pc v | .addr v | .reg v | .mem v | .sets v => v

structure TracedMemAccess where
  address : ℤ
  value : ℤ
  isStore : Bool
  deriving DecidableEq, Repr

structure TracedInstruction where
  pc : ℤ
  accesses : List TracedMemAccess
  deriving DecidableEq, Repr

/-- The values of `contract_observation_clause`. -/
inductive Tracer where
  | l1d | pc | memory | ct | ctNonSpecStore | ctr | ctx | prot | cts | arch
  deriving DecidableEq, Repr

structure TracerState where
  trace : List Obs := []
  executionTrace : List TracedInstruction := []
  instructionId : ℕ := 0
  /-- `ProtTracer.unprot_regs`. -/
  unprotRegs : List RegName := []
  /-- `ProtTracer.last_pc`. -/
  lastPc : ℕ := 0
  /-- `CTSTracer.unprots_pre` once `analyzed`. -/
  analysis : Option CTSTracer.Dataflow := none

/-- The calls `add_pc_to_trace`, `add_mem_address_to_trace`, `expose_reg` and `expose_mem`. -/
inductive Expose where
  | pc (address : ℕ)
  | addr (address : ℕ)
  | reg (r : RegName)
  | mem (address size : ℕ)
  deriving DecidableEq, Repr

/-- Base and index of the memory operands that are read or written. -/
def CsInsn.addressRegs (insn : CsInsn) : List RegName :=
  (insn.operands.filter fun op => op.isMem && op.accessed).flatMap fun op =>
    op.base.toList ++ op.index.toList

/-- `check_protected_pc`. -/
def Insn.isProtected (insn : Insn) : Bool := decide (insn.opcode = 0x36#8)

namespace Tracer

/-- The trace that `reset_trace` starts with. -/
def initialTrace (k : Tracer) (c : Cpu) : List Obs :=
  match k with
  | .l1d => [.sets 0,.sets 0]
  | .ctr | .prot | .arch =>
    [.A,.B,.C,.D,.SI,.DI].map (fun r => .init (c.reg r).toNat) ++ [.init c.eflags.toNat]
  | .ctx | .cts => [.init (c.reg .BP).toNat,.init (c.reg .SP).toNat]
  | .pc | .memory | .ct | .ctNonSpecStore => []

/-- `reset_trace`: the registers that `ProtTracer` keeps for the next instruction stay. -/
def resetTrace (k : Tracer) (st : TracerState) (c : Cpu) : TracerState :=
  { st with trace := k.initialTrace c, executionTrace := [], analysis := none }

/-- The exposures of `observe_instruction`. -/
def instructionExposes (k : Tracer) (st : TracerState) (address : ℕ) (insn : Insn) :
    List Expose :=
  match k with
  | .l1d | .memory => []
  | .pc | .ct | .ctNonSpecStore | .ctr | .arch => [.pc address]
  | .ctx => .pc address :: insn.cs.addressRegs.map .reg
  | .prot => .pc address :: (st.unprotRegs ++ insn.cs.addressRegs).map .reg
  | .cts => .pc address :: (insn.cs.addressRegs ++
      ((st.analysis.bind fun d => d.pre address).elim [] CTSTracer.elements)).map .reg

/-- What `observe_instruction` keeps for later. `ProtTracer` saves the outputs when the
prefix check succeeds. -/
def noteInstruction (k : Tracer) (st : TracerState) (address : ℕ) (insn : Insn) : TracerState :=
  match k with
  | .prot => { st with
      lastPc := address
      unprotRegs := if insn.isProtected then insn.cs.regsWrite else [] }
  | _ => st

/-- `CTSTracer` analyses the binary at the first instruction it sees. -/
def analyze (k : Tracer) (tc : TestCase) (st : TracerState) (address : ℕ) :
    Option TracerState :=
  match k, st.analysis with
  | .cts, none => do
    let d ← CTSTracer.analyzeBinary tc address
    return { st with analysis := some d }
  | _, _ => some st

/-- The exposures of `observe_mem_access`. -/
def accessExposes (k : Tracer) (inSpeculation : Bool) (insn : Insn) (a : Access) :
    List Expose :=
  match k with
  | .pc => []
  | .l1d | .memory | .ct | .ctr | .ctx | .cts => [.addr a.address]
  | .ctNonSpecStore => if !inSpeculation || !a.isWrite then [.addr a.address] else []
  | .prot => .addr a.address ::
      if !a.isWrite && !insn.isProtected then [.mem a.address a.size] else []
  | .arch => (if !a.isWrite then [.mem a.address a.size] else []) ++
      [.addr a.address,.addr a.address]

/-- `ProtTracer` asserts that a load belongs to the last instruction it saw. -/
def assertLastPc (k : Tracer) (st : TracerState) (rip : ℕ) (a : Access) : Bool :=
  match k with
  | .prot => a.isWrite || decide (rip = st.lastPc)
  | _ => true

/-- How `add_mem_address_to_trace` changes the trace: the L1D tracer only marks cache sets. -/
def pushAddress (k : Tracer) (inSpeculation : Bool) (address : ℕ) (trace : List Obs) :
    List Obs :=
  match k with
  | .l1d =>
    let set := 0x8000000000000000 >>> (address/64%64)
    match trace with
    | [s₀,s₁] => if inSpeculation then [s₀,.sets (s₁.value ||| set)]
        else [.sets (s₀.value ||| set),s₁]
    | _ => trace
  | _ => trace ++ [.addr address]

/-- `get_contract_trace`, over the digest of the hash library. -/
def contractTrace (k : Tracer) (digest : List ℕ → ℤ) (trace : List Obs) : ℤ :=
  match k, trace with
  | .l1d, [s₀,s₁] => ((s₁.value <<< 64)+s₀.value : ℕ)
  | _, _ => digest (trace.map Obs.value)

/-- `observe_instruction` of the base class. -/
def recordInstruction (st : TracerState) (pc : ℤ) : TracerState :=
  { st with
    executionTrace := st.executionTrace ++ [⟨pc,[]⟩]
    instructionId := st.executionTrace.length }

/-- `observe_mem_access` of the base class; a bad index is an `IndexError`. -/
def recordAccess (st : TracerState) (a : TracedMemAccess) : Option TracerState := do
  let i ← st.executionTrace[st.instructionId]?
  return { st with executionTrace :=
    st.executionTrace.set st.instructionId { i with accesses := i.accesses ++ [a] } }

end Tracer

end ProteanAmulet
