import ProteanAmulet.Library.Dependency
import ProteanAmulet.Model.Interfaces

/-! The taint tracker: dynamic dependencies of registers, flags and 8-byte memory blocks on
the labels of the input, and the labels that the contract trace depends on. The instruction
in flight is finalised late, when the next one starts. Python exceptions are `none`. -/
namespace ProteanAmulet

/-- `flag_dependencies`, `reg_dependencies` and `mem_dependencies`. -/
structure Deps where
  flag : Flag → Option (Finset Label) := fun _ => none
  reg : RegLabel → Option (Finset Label) := fun _ => none
  mem : ℕ → Option (Finset Label) := fun _ => none

namespace Deps

def ofReg (d : Deps) (r : RegLabel) : Finset Label := Dependency.get Label.reg d.reg r
def ofFlag (d : Deps) (f : Flag) : Finset Label := Dependency.get Label.flag d.flag f
def ofMem (d : Deps) (a : ℕ) : Finset Label := Dependency.get Label.mem d.mem a

/-- The dependencies of a pending label: anything that is no address is looked up among the
registers. -/
def ofLabel (d : Deps) : Label → Finset Label
  | .reg r => d.ofReg r
  | .flag f => {.flag f}
  | .mem a => d.ofMem a

end Deps

/-- The lists that `start_instruction` and `track_memory_access` fill. -/
structure Flows where
  srcRegs : List RegLabel := []
  srcFlags : List Flag := []
  srcMems : List ℕ := []
  destRegs : List RegLabel := []
  destFlags : List Flag := []
  destMems : List ℕ := []
  memAddressRegs : List RegLabel := []

namespace Flows

/-- One round of the loop over the operands. An unknown register is a `KeyError`; inside an
address it is skipped. Address-generation operands are not looked at. -/
def collect (fl : Flows) : Operand → Option Flows
  | .reg value src dest => do
    let label ← X86Registers.gprNormalized value
    return { fl with
      srcRegs := if src then fl.srcRegs ++ [label] else fl.srcRegs
      destRegs := if dest then fl.destRegs ++ [label] else fl.destRegs }
  | .flags o => some { fl with
      srcFlags := o.getReadFlags ++ o.getUndefFlags
      destFlags := o.getWriteFlags }
  | .mem address _ _ => some { fl with
      memAddressRegs := fl.memAddressRegs ++ address.filterMap X86Registers.gprNormalized }
  | .imm | .label | .agen _ => some fl

def ofInstruction (i : Instruction) : Option Flows := i.allOperands.foldlM collect {}

/-- The source label set of `_finalize_instruction`. -/
def srcLabels (fl : Flows) (d : Deps) : Finset Label :=
  Dependency.gather Label.reg d.reg fl.srcRegs ∪
  Dependency.gather Label.flag d.flag fl.srcFlags ∪
  Dependency.gather Label.mem d.mem fl.srcMems

/-- Propagate the source labels to all targets. -/
def propagate (fl : Flows) (d : Deps) : Deps where
  flag := Dependency.absorbAll Label.flag (fl.srcLabels d) d.flag fl.destFlags
  reg := Dependency.absorbAll Label.reg (fl.srcLabels d) d.reg fl.destRegs
  mem := Dependency.absorbAll Label.mem (fl.srcLabels d) d.mem fl.destMems

end Flows

/-- Masking with `0xffff_ffff_ffff_fff8` an offset that may be negative. -/
def maskBlock (x : ℤ) : ℕ := (x % 2^64).toNat/8*8

/-- The blocks an access touches, as `track_memory_access` enumerates them. -/
def blocks (sandboxBase address size : ℕ) : List ℕ :=
  let start := maskBlock ((address : ℤ)-sandboxBase)
  let stop := maskBlock ((address : ℤ)-sandboxBase+(size-1))
  List.range' start ((stop+8-start)/8) 8

structure TaintTracker where
  instruction : Option Instruction := none
  sandboxBase : ℕ
  flows : Flows := {}
  deps : Deps := {}
  taintedLabels : Finset Label
  pendingTaint : List Label := []
  /-- The last checkpoint first. -/
  checkpoints : List Deps := []

/-- Which words of the input the contract trace depends on. -/
structure InputTaint (conf : Conf) where
  tainted : Fin conf.dataSize → Bool

namespace TaintTracker

/-- `__init__`. -/
def init (initialObservations : List Label) (sandboxBase : ℕ) : TaintTracker where
  sandboxBase := sandboxBase
  taintedLabels := initialObservations.toFinset

/-- `_finalize_instruction`: the pending taints see the propagated dependencies. -/
def finalizeInstruction (t : TaintTracker) : TaintTracker :=
  let deps := t.flows.propagate t.deps
  { t with
    instruction := none
    deps := deps
    taintedLabels := t.pendingTaint.foldl (fun s ℓ => s ∪ deps.ofLabel ℓ) t.taintedLabels }

/-- `if self._instruction: self._finalize_instruction()`. -/
def settle (t : TaintTracker) : TaintTracker :=
  match t.instruction with
  | some _ => t.finalizeInstruction
  | none => t

def startInstruction (t : TaintTracker) (i : Instruction) : Option TaintTracker := do
  let flows ← Flows.ofInstruction i
  return { t.settle with instruction := some i, flows := flows, pendingTaint := [] }

def trackMemoryAccess (t : TaintTracker) (address size : ℕ) (isWrite : Bool) : TaintTracker :=
  let bs := blocks t.sandboxBase address size
  if isWrite then { t with flows := { t.flows with destMems := t.flows.destMems ++ bs } }
  else { t with flows := { t.flows with srcMems := t.flows.srcMems ++ bs } }

def taintPc (t : TaintTracker) : TaintTracker :=
  match t.instruction with
  | some i => if i.controlFlow then { t with pendingTaint := t.pendingTaint ++ [.reg .RIP] } else t
  | none => t

def taintMemoryAccessAddress (t : TaintTracker) : TaintTracker :=
  { t with pendingTaint := t.pendingTaint ++ t.flows.memAddressRegs.map .reg }

def taintMemoryLoad (t : TaintTracker) : TaintTracker :=
  { t with pendingTaint := t.pendingTaint ++ t.flows.srcMems.map .mem }

/-- The label that the patterns of `taint_reg` find in a register name. The segment registers
it returns early on are `some none`; an unmatched name (`ES`, `RIP`) is a `ValueError`. -/
def taintRegLabel : RegName → Option (Option RegLabel)
  | .seg .ES => none
  | .seg _ => some none
  | .gpr _ r => some (some (.gpr r))
  | .high r => some (some (.gpr r))
  | .flags => some (some .FLAGS)
  | .rip => none

def taintReg (t : TaintTracker) (r : RegName) : Option TaintTracker :=
  (taintRegLabel r).map fun
    | some ℓ => { t with pendingTaint := t.pendingTaint ++ [.reg ℓ] }
    | none => t

def checkpoint (t : TaintTracker) : TaintTracker :=
  { t.settle with checkpoints := t.settle.deps :: t.settle.checkpoints }

def rollback (t : TaintTracker) : Option TaintTracker :=
  match t.checkpoints with
  | [] => none
  | d :: ds => some { t.settle with deps := d, checkpoints := ds }

/-- The word of the input a label stands for: `_reg_decode` and the position in `_registers`,
or the word that holds the block. -/
def inputOffset (conf : Conf) : Label → Option ℕ
  | .mem a => some (a/8)
  | .flag _ | .reg .FLAGS => some (conf.taintRegisterStart+6)
  | .reg (.gpr .A) => some conf.taintRegisterStart
  | .reg (.gpr .B) => some (conf.taintRegisterStart+1)
  | .reg (.gpr .C) => some (conf.taintRegisterStart+2)
  | .reg (.gpr .D) => some (conf.taintRegisterStart+3)
  | .reg (.gpr .SI) => some (conf.taintRegisterStart+4)
  | .reg (.gpr .DI) => some (conf.taintRegisterStart+5)
  | .reg _ => none

def getTaint (conf : Conf) (t : TaintTracker) : InputTaint conf where
  tainted k := decide (∃ ℓ ∈ t.settle.taintedLabels, inputOffset conf ℓ = some k.val)

end TaintTracker

end ProteanAmulet
