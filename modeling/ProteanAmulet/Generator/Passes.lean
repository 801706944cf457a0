import ProteanAmulet.Generator.Operands

/-! The passes over a generated test case: sandboxing, patching of undefined flags and patching
of undefined results. -/
namespace ProteanAmulet.Generator

/-- `needle in text`. -/
def contains (needle text : String) : Bool := decide (needle.toList <:+: text.toList)

namespace Operand

/-- The text of an operand. -/
def value : Operand → String
  | reg v .. => v
  | mem address .. => " + ".intercalate address
  | imm v _ => v
  | label v => v
  | agen address _ => " + ".intercalate address
  | flags _ => "FLAGS"

/-- `instr.get_mem_operands()[0].value = "R14 + " + address_reg`, for an instruction with one
memory operand. -/
def addBase : Operand → Operand
  | mem address width src dest => mem ("R14" :: address) width src dest
  | o => o

end Operand

/-- The place of an instruction while a pass works on its block: what has been put directly
before and after it. A deleted instruction is `none`. -/
structure Slot where
  before : List Instruction := []
  inst : Option Instruction
  after : List Instruction := []

namespace Slot
variable (slot : Slot)

def instructions : List Instruction := slot.before ++ slot.inst.toList ++ slot.after

def insertBefore (inst : Instruction) : Slot := { slot with before := slot.before ++ [inst] }
def insertAfter (inst : Instruction) : Slot := { slot with after := inst :: slot.after }
def delete : Slot := { slot with inst := none }

/-- One turn of a loop over the instructions of a kind. -/
def visit (kind : Instruction → Bool) (f : Slot → Instruction → Gen Slot) : Gen Slot :=
  match slot.inst with
  | some inst => if kind inst then f slot inst else pure slot
  | none => pure slot

end Slot

namespace X86SandboxPass

def mask3bits : String := "0b111"

def bitTestNames : List String :=
  ["BT","BTC","BTR","BTS","LOCK BT","LOCK BTC","LOCK BTR","LOCK BTS"]

/-- `sandbox_address_mask`, in binary. -/
def sandboxAddressMask (conf : GeneratorConf) : String :=
  let maskSize := Nat.log2 conf.inputMainRegionSize
  "0b" ++ String.ofList (List.replicate (maskSize-conf.memoryAccessZeroedBits) '1' ++
    List.replicate conf.memoryAccessZeroedBits '0')

/-- `AND address_reg, mask`. -/
def applyMask (conf : GeneratorConf) (operand : Operand) : Instruction :=
  .instrumentation "AND" [.reg operand.value.toUpper operand.width true true,
    .imm (sandboxAddressMask conf) (min operand.width 32)]

/-- `ADD address_reg, R14`. -/
def addBase (operand : Operand) : Instruction :=
  .instrumentation "ADD" [.reg operand.value.toUpper operand.width true true,
    .reg "R14" 64 true false]

/-- `sandbox_memory_access`: an instruction with implicit memory operands keeps its explicit
ones as they are. -/
def sandboxMemoryAccess (conf : GeneratorConf) (slot : Slot) (inst : Instruction) : Gen Slot :=
  match inst.getImplicitMemOperands, inst.getMemOperands with
  | [], [] => throw .noMemoryOperand
  | [], [operand] =>
    pure { slot.insertBefore (applyMask conf operand) with
      inst := some { inst with operands := inst.operands.map (·.addBase) } }
  | [operand], _ =>
    pure ((slot.insertBefore (applyMask conf operand)).insertBefore (addBase operand))
  | _, _ => throw .assertion

/-- The upper half of the dividend. -/
def dRegister : ℕ → Option String
  | 64 => some "RDX"
  | 32 => some "EDX"
  | 16 => some "DX"
  | _ => none

/-- `sandbox_division`. -/
def sandboxDivision (slot : Slot) (inst : Instruction) : Gen Slot :=
  match inst.operands with
  | [] => throw .index
  | divisor :: _ =>
    let slot := slot.insertBefore (.instrumentation "OR" [divisor,.imm "1" 8])
    if divisor.width=8 then
      -- the dividend is AX
      if contains "RAX" divisor.value then pure slot.delete
      else pure (slot.insertBefore
        (.instrumentation "MOV" [.reg "AX" 16 false true,.imm "1" 16]))
    else if divisor.width=64 then pure slot.delete
    else if divisor.value ∈ ["RDX","EDX","DX","DH","DL"] ∨ contains "RDX" divisor.value then
      pure slot.delete
    else
      match dRegister divisor.width with
      | none => throw .key
      | some d => pure ((slot.insertBefore
          (.instrumentation "AND" [.reg d divisor.width false true,divisor])).insertBefore
          (.instrumentation "SHR" [.reg d divisor.width false true,.imm "1" 8]))

/-- `sandbox_bit_test`. The comparison is made after the base has been added to the address. -/
def sandboxBitTest (slot : Slot) (inst : Instruction) : Gen Slot :=
  match inst.operands with
  | .reg .. :: _ => pure slot
  | address :: .imm _ width :: rest => do
    let offset : Operand := .imm (toString (← Drawing.randint .value 0 7)) width
    return { slot with inst := some { inst with operands := address :: offset :: rest } }
  | address :: offset :: _ =>
    if address.value ≠ offset.value then
      pure (slot.insertBefore (.instrumentation "AND" [offset,.imm mask3bits 8]))
    else pure slot.delete
  | _ => throw .index

/-- `sandbox_repeated_instruction`. -/
def sandboxRepeatedInstruction (slot : Slot) (_ : Instruction) : Gen Slot :=
  pure ((slot.insertBefore
    (.instrumentation "AND" [.reg "RCX" 64 true true,.imm "0xff" 8])).insertBefore
    (.instrumentation "ADD" [.reg "RCX" 64 true true,.imm "1" 1]))

/-- `sandbox_corrupted_cf`. -/
def sandboxCorruptedCf (slot : Slot) (_ : Instruction) : Gen Slot :=
  pure (slot.insertAfter (.instrumentation "STC" []))

section Kinds
variable (inst : Instruction)

def isDivision : Bool := inst.name ∈ ["DIV","REX DIV"]
def isBitTest : Bool := !isDivision inst && inst.name ∈ bitTestNames
def isRepeated : Bool := !isDivision inst && !isBitTest inst && contains "REP" inst.name
def isCorruptedCf : Bool :=
  !isDivision inst && !isBitTest inst && !isRepeated inst &&
    (inst.category = "BASE-ROTATE" || inst.category = "BASE-SHIFT")

end Kinds

/-- What the five loops do to a block. -/
def sandbox (conf : GeneratorConf) (slots : List Slot) : Gen (List Slot) := do
  let slots ← slots.mapM (·.visit (·.hasMemOperand) (sandboxMemoryAccess conf))
  let slots ← slots.mapM (·.visit isDivision sandboxDivision)
  let slots ← slots.mapM (·.visit isBitTest sandboxBitTest)
  let slots ← slots.mapM (·.visit isRepeated sandboxRepeatedInstruction)
  slots.mapM (·.visit isCorruptedCf sandboxCorruptedCf)

def runOnBlock (conf : GeneratorConf) (bb : BasicBlock) : Gen BasicBlock := do
  let slots ← sandbox conf (bb.instructions.map fun inst => { inst := some inst })
  return { bb with instructions := slots.flatMap (·.instructions) }

/-- `run_on_test_case`: the entry is left alone. -/
def runOnTestCase (conf : GeneratorConf) (tc : TestCase) : Gen TestCase := do
  return ⟨← tc.functions.mapM fun func => do
    return { func with
      nodes := ← func.nodes.mapM (runOnBlock conf)
      exit := ← runOnBlock conf func.exit }⟩

/-- `requires_sandbox`. -/
def requiresSandbox (spec : InstructionSpec) : Bool :=
  spec.hasMemOperand || spec.name ∈ ["DIV","REX DIV"] || spec.name ∈ bitTestNames ||
    spec.category ∈ ["BASE-SHIFT","BASE-ROTATE"]

end X86SandboxPass

namespace X86PatchUndefinedFlagsPass

def reads (spec : InstructionSpec) : Bool :=
  spec.allOperands.any fun o =>
    match o with
    | .flags values => values.flagValues.any (· ∈ [FlagMode.r,.rw,.rcw])
    | _ => false

def writes (spec : InstructionSpec) : Bool :=
  spec.allOperands.any fun o =>
    match o with
    | .flags values => values.flagValues.any (· = FlagMode.w)
    | _ => false

/-- `patch_candidates`. -/
def patchCandidates (instructions : List InstructionSpec) : List InstructionSpec :=
  instructions.filter fun spec =>
    !spec.controlFlow && !X86SandboxPass.requiresSandbox spec && !reads spec && writes spec

/-- The constructor. -/
def init (instructions : List InstructionSpec) : Except GeneratorError (List InstructionSpec) :=
  match patchCandidates instructions with
  | [] => throw .insufficientInstructionSet
  | candidates => pure candidates

section Patch
variable (conf : GeneratorConf)

/-- The loop of `find_flags_patch`: the patches, and the flags for which there is none. -/
def searchPatch (flagsToSet : List Flag) :
    List InstructionSpec → List Flag → Gen (List Instruction × List Flag)
  | [], undefFlags => pure ([],undefFlags)
  | spec :: candidates, undefFlags => do
    let patch ← generateInstruction conf spec
    match patch.getFlagsOperand with
    | none => throw .assertion
    | some patchFlags =>
      let newUndefFlags := patchFlags.getUndefFlags.filter fun i =>
        i ∉ undefFlags ∧ i ∈ flagsToSet
      let notPatchedFlags := undefFlags.filter (· ∉ patchFlags.getWriteFlags)
      if newUndefFlags = [] ∧ notPatchedFlags ≠ undefFlags then
        if notPatchedFlags = [] then pure ([patch],[])
        else
          let (patches,missing) ← searchPatch flagsToSet candidates notPatchedFlags
          return (patch :: patches,missing)
      else searchPatch flagsToSet candidates undefFlags

/-- `find_flags_patch`. -/
def findFlagsPatch (candidates : List InstructionSpec) (undefFlags flagsToSet : List Flag) :
    Gen (List Instruction) := do
  let (patches,missing) ← searchPatch conf flagsToSet candidates undefFlags
  if missing = [] then pure (patches.map ({ · with isInstrumentation := true }))
  else throw (.noFlagsPatch undefFlags missing)

/-- Patches are looked for only when there is a flag to patch. -/
def neededPatches (candidates : List InstructionSpec) (undefFlags flagsToSet : List Flag) :
    Gen (List Instruction) :=
  if undefFlags = [] then pure [] else findFlagsPatch conf candidates undefFlags flagsToSet

/-- `flags_to_set.discard` for each flag that the operand writes. -/
def discard (flagsToSet : List Flag) (inst : Instruction) : List Flag :=
  match inst.getFlagsOperand with
  | none => flagsToSet
  | some flags => flagsToSet.filter (· ∉ flags.getWriteFlags)

/-- One turn of the backward walk: what is inserted after the instruction, and the flags that
have to be set before it. Every patch goes directly after the instruction, so that the last
one found comes first. -/
def patchInstruction (candidates : List InstructionSpec) (inst : Instruction)
    (flagsToSet : List Flag) : Gen (List Instruction × List Flag) := do
  match inst.getFlagsOperand with
  | none => pure ([],flagsToSet)
  | some flags =>
    let undefFlags := flags.getUndefFlags.filter (· ∈ flagsToSet)
    let patches ← neededPatches conf candidates undefFlags flagsToSet
    let flagsToSet := discard (patches.foldl discard flagsToSet) inst
    return (patches.reverse,flagsToSet ∪ flags.getReadFlags)

/-- No flag may be left to set when the block is entered. Each patch goes to the start of the
block. -/
def patchEntry (candidates : List InstructionSpec) (placed : List Instruction)
    (flagsToSet : List Flag) : Gen (List Instruction) := do
  return (← neededPatches conf candidates flagsToSet flagsToSet).reverse ++ placed

/-- The walk over the instructions, given in inverse order. `placed` are those behind. -/
def walk (candidates : List InstructionSpec) :
    List Instruction → List Instruction → List Flag → Gen (List Instruction)
  | [], placed, flagsToSet => patchEntry conf candidates placed flagsToSet
  | inst :: rest, placed, flagsToSet => do
    let (patches,flagsToSet) ← patchInstruction conf candidates inst flagsToSet
    walk candidates rest (inst :: patches ++ placed) flagsToSet

/-- The first of two terminators is a conditional one. -/
def conditionalTerminator (bb : BasicBlock) : Option Instruction :=
  match bb.terminators with
  | [terminator,_] => some terminator
  | _ => none

/-- The flags to set at the end of the block. Nothing is to be set behind a terminator, so that
it gets no patch. -/
def terminatorFlags (candidates : List InstructionSpec) (bb : BasicBlock) : Gen (List Flag) :=
  match conditionalTerminator bb with
  | none => pure []
  | some terminator => do return (← patchInstruction conf candidates terminator []).2

def runOnBlock (candidates : List InstructionSpec) (bb : BasicBlock) : Gen BasicBlock := do
  let flagsToSet ← terminatorFlags conf candidates bb
  let instructions ← walk conf candidates bb.instructions.reverse [] flagsToSet
  return { bb with instructions }

/-- `run_on_test_case`. -/
def runOnTestCase (candidates : List InstructionSpec) (tc : TestCase) : Gen TestCase := do
  return ⟨← tc.functions.mapM fun func => do
    return { func with
      entry := ← runOnBlock conf candidates func.entry
      nodes := ← func.nodes.mapM (runOnBlock conf candidates)
      exit := ← runOnBlock conf candidates func.exit }⟩

end Patch

end X86PatchUndefinedFlagsPass

namespace X86PatchUndefinedResultPass

def isBitScan (inst : Instruction) : Bool := inst.name ∈ ["BSF","BSR"]

/-- `patch_bit_scan`: the instruction with what comes before it. -/
def patchBitScan (inst : Instruction) : Gen (List Instruction) :=
  match inst.operands with
  | _ :: source :: _ =>
    if source.width ∈ [64,32] then
      pure [.instrumentation "OR" [source,.imm "0b1000000000000000000000000000000" 32],inst]
    else if source.width=0 then throw .value
    else pure [.instrumentation "OR"
      [source,.imm ("0b1" ++ String.ofList (List.replicate (source.width-1) '0')) source.width],inst]
  | _ => throw .index

def runOnBlock (bb : BasicBlock) : Gen BasicBlock := do
  let pieces ← bb.instructions.mapM fun inst =>
    if isBitScan inst then patchBitScan inst else pure [inst]
  return { bb with instructions := pieces.flatten }

/-- `run_on_test_case`: the entry is left alone. -/
def runOnTestCase (tc : TestCase) : Gen TestCase := do
  return ⟨← tc.functions.mapM fun func => do
    return { func with
      nodes := ← func.nodes.mapM runOnBlock
      exit := ← runOnBlock func.exit }⟩

end X86PatchUndefinedResultPass

end ProteanAmulet.Generator
