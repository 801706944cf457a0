import ProteanAmulet.Library.Random
import ProteanAmulet.Model.Interfaces

/-! Instruction specifications, instructions and test cases, as the generator builds them. -/
namespace ProteanAmulet.Generator

/-- `OperandSpec`. Immediates, labels and addresses are sources whatever the specification
says, and flags have a mode each instead of values. -/
inductive OperandSpec where
  | reg (values : List String) (width : ℕ) (src dest : Bool)
  | mem (values : List String) (width : ℕ) (src dest : Bool)
  | imm (values : List String) (width : ℕ)
  | label
  | agen (width : ℕ)
  | flags (values : FlagsOperand)
  | cond
  deriving DecidableEq

/-- `Operand`. An address is the list of the terms of its sum: `R14 + RAX` is
`["R14","RAX"]`. -/
inductive Operand where
  | reg (value : String) (width : ℕ) (src dest : Bool)
  | mem (address : List String) (width : ℕ) (src dest : Bool)
  | imm (value : String) (width : ℕ)
  | label (value : String)
  | agen (address : List String) (width : ℕ)
  | flags (value : FlagsOperand)
  deriving DecidableEq

namespace OperandSpec

def isMem : OperandSpec → Bool
  | mem .. => true
  | _ => false

def dest : OperandSpec → Bool
  | reg _ _ _ d => d
  | mem _ _ _ d => d
  | _ => false

def flagsOperand : OperandSpec → Option FlagsOperand
  | flags o => some o
  | _ => none

end OperandSpec

namespace Operand

def isMem : Operand → Bool
  | mem .. => true
  | _ => false

def src : Operand → Bool
  | reg _ _ s _ => s
  | mem _ _ s _ => s
  | flags _ => false
  | _ => true

def dest : Operand → Bool
  | reg _ _ _ d => d
  | mem _ _ _ d => d
  | _ => false

def width : Operand → ℕ
  | reg _ w _ _ => w
  | mem _ w _ _ => w
  | imm _ w => w
  | agen _ w => w
  | _ => 0

/-- `isinstance(o, FlagsOperand)`. -/
def flagsOperand : Operand → Option FlagsOperand
  | flags o => some o
  | _ => none

@[simp] lemma flagsOperand_reg (v : String) (w : ℕ) (s d : Bool) :
    (reg v w s d).flagsOperand = none := rfl
@[simp] lemma flagsOperand_imm (v : String) (w : ℕ) : (imm v w).flagsOperand = none := rfl

end Operand

/-- `InstructionSpec`. -/
structure InstructionSpec where
  name : String
  operands : List OperandSpec
  implicitOperands : List OperandSpec
  category : String
  controlFlow : Bool := false
  hasMagicValue : Bool := false
  deriving DecidableEq

namespace InstructionSpec
variable (spec : InstructionSpec)

def allOperands : List OperandSpec := spec.operands ++ spec.implicitOperands

/-- `has_mem_operand`, as `parse_operand` sets it. -/
def hasMemOperand : Bool := spec.allOperands.any (·.isMem)

/-- `has_write`, as `parse_operand` sets it. -/
def hasWrite : Bool := spec.allOperands.any fun o => o.isMem && o.dest

/-- The operand that `get_flags_operand` finds in an instruction with this specification. -/
def flagsOperand : Option FlagsOperand :=
  (spec.implicitOperands ++ spec.operands).findSome? (·.flagsOperand)

end InstructionSpec

/-- `Instruction`. -/
structure Instruction where
  name : String
  operands : List Operand := []
  implicitOperands : List Operand := []
  category : String := ""
  controlFlow : Bool := false
  isInstrumentation : Bool := false
  deriving DecidableEq

namespace Instruction
variable (inst : Instruction)

/-- `from_spec`. -/
def fromSpec (spec : InstructionSpec) (isInstrumentation : Bool := false) : Instruction :=
  { name := spec.name, category := spec.category, controlFlow := spec.controlFlow
    isInstrumentation }

/-- An instruction of the passes: `Instruction(name, True)` with explicit operands. -/
def instrumentation (name : String) (operands : List Operand) : Instruction :=
  { name, operands, isInstrumentation := true }

def allOperands : List Operand := inst.operands ++ inst.implicitOperands

/-- `has_mem_operand(True)`. -/
def hasMemOperand : Bool := inst.allOperands.any (·.isMem)

/-- `get_mem_operands`: explicit operands first. -/
def getMemOperands : List Operand := inst.allOperands.filter (·.isMem)

def getImplicitMemOperands : List Operand := inst.implicitOperands.filter (·.isMem)

/-- `get_flags_operand`: implicit operands first. -/
def getFlagsOperand : Option FlagsOperand :=
  (inst.implicitOperands ++ inst.operands).findSome? (·.flagsOperand)

@[simp] lemma instrumentation_flags (name : String) (operands : List Operand)
    (h : ∀ o ∈ operands, o.flagsOperand = none) :
    (instrumentation name operands).getFlagsOperand = none := by
  simpa [getFlagsOperand,instrumentation] using h

end Instruction

/-- `BasicBlock`, with its linked list of instructions. Successors are given by name. -/
structure BasicBlock where
  name : String
  successors : List String := []
  instructions : List Instruction := []
  terminators : List Instruction := []

/-- `Function`: `nodes` are the blocks between the entry and the exit. -/
structure Function where
  name : String
  entry : BasicBlock
  nodes : List BasicBlock
  exit : BasicBlock

/-- `_all_bb`. -/
def Function.allBb (func : Function) : List BasicBlock := func.entry :: func.nodes ++ [func.exit]

/-- `TestCase`. -/
structure TestCase where
  functions : List Function

def TestCase.blocks (tc : TestCase) : List BasicBlock := tc.functions.flatMap (·.allBb)

/-- The exceptions of the generator. A `GeneratorException` has one constructor for each place
that raises it. -/
inductive GeneratorError where
  | insufficientInstructionSet
  | noFlagsPatch (initial missing : List Flag)
  | noMemoryOperand
  | notSupported
  | assertion
  | index
  | key
  | value
  | zeroDivision
  | diverges
  | asmParser (line : ℕ) (explanation : String)
  | assembler
  deriving DecidableEq

/-- `except GeneratorException`. -/
def GeneratorError.isGeneratorException : GeneratorError → Bool
  | insufficientInstructionSet => true
  | noFlagsPatch .. => true
  | noMemoryOperand => true
  | _ => false

abbrev Gen := Drawing GeneratorError

end ProteanAmulet.Generator
