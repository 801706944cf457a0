import ProteanAmulet.Model.Registers

/-! Instructions with their declared operands, the configuration and the layout of inputs. -/
namespace ProteanAmulet

/-- How an instruction uses one flag in the instruction-set description. -/
inductive FlagMode where
  | none | r | w | rw | rcw | cw | undef
  deriving DecidableEq, Repr

/-- `FlagsOperand._flag_names`. -/
def flagNames : List Flag := [.CF,.PF,.AF,.ZF,.SF,.TF,.IF,.DF,.OF]

/-- `FlagsOperand`: one mode for each name of `flagNames`. -/
structure FlagsOperand where
  flagValues : List FlagMode
  length_eq : flagValues.length = flagNames.length
  deriving DecidableEq

namespace FlagsOperand

/-- `_get_flag_list`. -/
def getFlagList (o : FlagsOperand) (types : List FlagMode) : List Flag :=
  (flagNames.zip o.flagValues).filterMap fun p => if p.2 ∈ types then some p.1 else none

def getReadFlags (o : FlagsOperand) : List Flag := o.getFlagList [.r,.rw,.rcw]
def getWriteFlags (o : FlagsOperand) : List Flag := o.getFlagList [.w,.rw,.rcw]
def getUndefFlags (o : FlagsOperand) : List Flag := o.getFlagList [.undef]

end FlagsOperand

/-- Operands. The address of a memory or address-generation operand is given by the register
names among the pieces that `re.split` cuts it into; widths and immediates are left out. -/
inductive Operand where
  | reg (value : RegName) (src dest : Bool)
  | mem (address : List RegName) (src dest : Bool)
  | imm
  | label
  | agen (address : List RegName)
  | flags (value : FlagsOperand)
  deriving DecidableEq

/-- `Instruction`, with the fields that tracing and tainting read. -/
structure Instruction where
  name : String
  operands : List Operand
  implicitOperands : List Operand
  controlFlow : Bool
  deriving DecidableEq

/-- Explicit operands first, as `start_instruction` visits them. -/
def Instruction.allOperands (i : Instruction) : List Operand := i.operands ++ i.implicitOperands

lemma page_pages : 4096 % 4096 = 0 := by decide

lemma pages_fit : 4096+4096+2*4096 ≤ 0x8000000 := by decide

/-- The configuration. `config.py` checks that the regions are made of pages, and the sandbox
has to lie in the upper half of the working memory, which is mapped around its base. -/
structure Conf where
  inputMainRegionSize : ℕ := 4096
  inputAssistRegionSize : ℕ := 4096
  inputRegisterRegionSize : ℕ := 64
  modelMaxSpecWindow : ℕ := 250
  main_pages : inputMainRegionSize % 4096 = 0 := by first | exact page_pages | decide
  assist_pages : inputAssistRegionSize % 4096 = 0 := by first | exact page_pages | decide
  fits : inputMainRegionSize+inputAssistRegionSize+2*4096 ≤ 0x8000000 := by
    first | exact pages_fit | decide

namespace Conf
variable (conf : Conf)

/-- `Input.data_size`, in 64-bit words; also the size of an `InputTaint`. -/
def dataSize : ℕ :=
  (conf.inputMainRegionSize+conf.inputAssistRegionSize+conf.inputRegisterRegionSize)/8

/-- The length of the array, padded to a page. -/
def alignedSize : ℕ := conf.dataSize+(4096-conf.inputRegisterRegionSize)/8

/-- `Input.register_start`. -/
def registerStart : ℕ := conf.dataSize-conf.inputRegisterRegionSize/8

/-- `InputTaint.register_start`. -/
def taintRegisterStart : ℕ := (conf.inputMainRegionSize+conf.inputAssistRegionSize)/8

/-- The taint array and the input place the registers at the same words. -/
theorem registerStart_eq : conf.registerStart = conf.taintRegisterStart := by
  have h₁ := conf.main_pages
  have h₂ := conf.assist_pages
  unfold registerStart taintRegisterStart dataSize
  omega

end Conf

/-- An input: `alignedSize` 64-bit words. -/
structure Input (conf : Conf) where
  word : Fin conf.alignedSize → BitVec 64

namespace Input
variable {conf : Conf}

/-- Python indexing; the words past the end are never asked for. -/
def get (i : Input conf) (k : ℕ) : BitVec 64 :=
  if h : k<conf.alignedSize then i.word ⟨k,h⟩ else 0

/-- `get_registers`: the slice `[register_start:data_size-1]`. -/
def getRegisters (i : Input conf) : List (BitVec 64) :=
  (List.range' conf.registerStart (conf.dataSize-1-conf.registerStart)).map i.get

/-- The byte of `tobytes()` at offset `x`: words are little-endian. -/
def byte (i : Input conf) (x : ℕ) : BitVec 8 := (i.get (x/8)).extractLsb' (8*(x%8)) 8

end Input

end ProteanAmulet
