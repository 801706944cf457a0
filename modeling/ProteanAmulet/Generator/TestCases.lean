import Mathlib.Data.Rat.Defs
import ProteanAmulet.Generator.Passes

/-! The instruction set that the generator works with, and the test cases it creates from it. -/
namespace ProteanAmulet.Generator

namespace InstructionSet
variable (conf : GeneratorConf)

/-- The implicit operands of a supported instruction. An operand RIP ends the check. -/
def implicitSupported : List OperandSpec → Except GeneratorError Bool
  | [] => pure true
  | .label :: _ => throw .assertion
  | .mem [] .. :: _ => throw .index
  | .mem (v :: _) .. :: rest => if v ∈ conf.gprBlocklist then pure false else implicitSupported rest
  | .reg [] .. :: _ => throw .index
  | .reg (v :: vs) .. :: rest =>
    if v ∈ conf.gprBlocklist then
      if vs ≠ [] then throw .assertion else pure (v = "RIP")
    else implicitSupported rest
  | _ :: rest => implicitSupported rest

/-- The base of a memory operand that has only blocked choices. -/
def blockedMem : OperandSpec → Bool
  | .mem (v :: _) .. => v ∈ conf.gprBlocklist
  | _ => false

/-- `is_supported`. -/
def isSupported (includeCategories : List String) (spec : InstructionSpec) :
    Except GeneratorError Bool :=
  if conf.noGeneration then pure true
  else if includeCategories ≠ [] ∧ spec.category ∉ includeCategories then pure false
  else if spec.name ∈ conf.instructionBlocklist then pure false
  else if spec.operands.any (blockedMem conf) then pure false
  else implicitSupported conf spec.implicitOperands

/-- High byte registers are replaced by low ones. -/
def lowByte (reg : String) : String :=
  if reg.toList.getLast? = some 'H' then
    String.ofList (reg.toList.map fun c => if c = 'H' then 'L' else c)
  else reg

/-- The choices for an explicit operand; `none` is an operand without any. -/
def reduceOperand : OperandSpec → Except GeneratorError (Option OperandSpec)
  | .reg values width src dest =>
    let choices := (values.filter (· ∉ conf.gprBlocklist)).dedup
    if choices = [] then pure none
    else if "" ∈ choices then throw .index
    else pure (some (.reg (choices.map lowByte) width src dest))
  | op => pure (some op)

def reduceOperands : List OperandSpec → Except GeneratorError (Option (List OperandSpec))
  | [] => pure (some [])
  | op :: ops => do
    match ← reduceOperand conf op with
    | none => pure none
    | some op => return (← reduceOperands ops).map (op :: ·)

def reduceSpec (includeCategories : List String) (spec : InstructionSpec) :
    Except GeneratorError (Option InstructionSpec) := do
  if ← isSupported conf includeCategories spec then
    return (← reduceOperands conf spec.operands).map ({ spec with operands := · })
  else return none

/-- `reduce`. -/
def reduce (includeCategories : List String) (instructions : List InstructionSpec) :
    Except GeneratorError (List InstructionSpec) := do
  return (← instructions.mapM (reduceSpec conf includeCategories)).filterMap id

/-- Whether `dedup` takes two operands for the same. -/
def sameOperand : OperandSpec → OperandSpec → Bool
  | .reg v w .., .reg v' w' .. => v=v' && w=w'
  | .mem v w .., .mem v' w' .. => v=v' && w=w'
  | .imm v _, .imm v' _ => v=v'
  | .label, .label => true
  | .agen w, .agen w' => w=w'
  | .flags v, .flags v' => v=v'
  | .cond, .cond => true
  | _, _ => false

def sameSpec (s s' : InstructionSpec) : Bool :=
  s.name=s'.name && s.operands.length=s'.operands.length &&
    (s.operands.zip s'.operands).all fun p => sameOperand p.1 p.2

/-- `dedup`: the last copy stays. -/
def dedup : List InstructionSpec → List InstructionSpec
  | [] => []
  | s :: rest => if rest.any (sameSpec s) then dedup rest else s :: dedup rest

/-- The constructor, on what is read from the file. -/
def init (includeCategories : List String) (instructions : List InstructionSpec) :
    Except GeneratorError (List InstructionSpec) := do
  return dedup (← reduce conf includeCategories instructions)

section Operands
variable {conf : GeneratorConf} {categories : List String} {P : OperandSpec → Prop}
  (hP : ∀ op op', reduceOperand conf op = .ok (some op') → P op')
include hP

lemma reduceOperands_forall {ops ops' : List OperandSpec}
    (h : reduceOperands conf ops = .ok (some ops')) : ∀ op ∈ ops', P op := by
  induction ops generalizing ops' with
  | nil =>
    cases h
    simp
  | cons op ops ih =>
    obtain ⟨o,ho,h⟩ := Except.bind_eq_ok.mp h
    cases o with
    | none => cases h
    | some op' =>
      obtain ⟨rest,hrest,h⟩ := Except.bind_eq_ok.mp h
      obtain ⟨l,rfl,rfl⟩ := Option.map_eq_some_iff.mp (Except.ok.inj h)
      exact List.forall_mem_cons.mpr ⟨hP op op' ho,ih hrest⟩

lemma reduceSpec_operands {spec spec' : InstructionSpec}
    (h : reduceSpec conf categories spec = .ok (some spec')) : ∀ op ∈ spec'.operands, P op := by
  obtain ⟨b,-,h⟩ := Except.bind_eq_ok.mp h
  cases b with
  | false => cases h
  | true =>
    obtain ⟨o,ho,h⟩ := Except.bind_eq_ok.mp h
    obtain ⟨l,rfl,rfl⟩ := Option.map_eq_some_iff.mp (Except.ok.inj h)
    exact reduceOperands_forall hP ho

omit hP in
lemma dedup_subset (l : List InstructionSpec) : dedup l ⊆ l := by
  induction l with
  | nil => exact List.Subset.refl _
  | cons s l ih =>
    rw [dedup]
    split_ifs
    · exact List.Subset.trans ih (List.subset_cons_self s l)
    · exact List.cons_subset_cons s ih

/-- What `reduce` ensures of every explicit operand holds in the instruction set. -/
theorem init_operands {raw instructions : List InstructionSpec}
    (h : init conf categories raw = .ok instructions) :
    ∀ spec ∈ instructions, ∀ op ∈ spec.operands, P op := by
  obtain ⟨reduced,hr,h⟩ := Except.bind_eq_ok.mp h
  cases h
  intro spec hs
  obtain ⟨all,hall,hr⟩ := Except.bind_eq_ok.mp hr
  cases hr
  obtain ⟨o,ho,ho'⟩ := List.mem_filterMap.mp (dedup_subset _ hs)
  obtain rfl : o = some spec := ho'
  obtain ⟨s,-,h⟩ := Except.exists_of_mapM hall _ ho
  exact reduceSpec_operands hP h

end Operands

/-- `has_conditional_branch`. -/
def hasConditionalBranch (instructions : List InstructionSpec) : Bool :=
  instructions.any fun s => s.controlFlow && s.category ≠ "BASE-UNCOND_BR"

end InstructionSet

section Create
variable (conf : GeneratorConf) (instructions : List InstructionSpec)

def bbName (i : ℕ) : String := s!".bb_main.{i}"
def entryName : String := ".bb_main.entry"
def exitName : String := ".bb_main.exit"

/-- The further successors of a block: `count` different ones of the options. -/
def pickSuccessors : ℕ → List String → Gen (List String)
  | 0, _ => pure []
  | count+1, options => do
    let target ← Drawing.choice .index options
    return target :: (← pickSuccessors count (options.erase target))

/-- The successors of the block with number `i`. -/
def successors (nodeCount i : ℕ) : Gen (List String) := do
  if i+1=nodeCount then return [exitName]
  let maxSuccessors : ℤ := if InstructionSet.hasConditionalBranch instructions then 2 else 1
  let drawn ← Drawing.randint .value 1 maxSuccessors
  let count := if drawn.toNat+i>nodeCount then nodeCount-i else drawn.toNat
  let options := (List.range' (i+2) (nodeCount-(i+2))).map bbName ++ [exitName]
  return bbName (i+1) :: (← pickSuccessors (count-1) options)

/-- `generate_function`, for the main function. -/
def generateFunction : Gen Function := do
  let drawn ← Drawing.randint .value conf.minBbPerFunction conf.maxBbPerFunction
  let nodeCount := drawn.toNat
  if nodeCount=0 then throw .index
  let nodes ← (List.range nodeCount).mapM fun i => do
    return ({ name := bbName i, successors := ← successors instructions nodeCount i } : BasicBlock)
  return { name := ".function_main"
           entry := { name := entryName, successors := [bbName 0] }
           nodes
           exit := { name := exitName } }

/-- `get_unconditional_jump_instruction`, with its label. -/
def unconditionalJump (label : String) : Instruction :=
  { name := "JMP", category := "UNCOND_BR", controlFlow := true, operands := [.label label] }

/-- The conditional terminator: of the implicit operands it keeps the flags. -/
def conditionalJump (spec : InstructionSpec) (label : String) : Instruction :=
  { Instruction.fromSpec spec with
    operands := [.label label]
    implicitOperands := ((spec.implicitOperands.findSome? (·.flagsOperand)).map .flags).toList }

/-- The terminators of a block. -/
def terminators (bb : BasicBlock) : Gen (List Instruction) :=
  match bb.successors with
  | [] => pure []
  | [successor] => pure (if successor = exitName then [] else [unconditionalJump successor])
  | [first,second] => do
    let spec ← Drawing.choice .index (instructions.filter (·.controlFlow))
    return [conditionalJump spec first,unconditionalJump second]
  | _ => throw .notSupported

def addTerminators (bb : BasicBlock) : Gen BasicBlock := do
  return { bb with terminators := ← terminators instructions bb }

/-- `add_terminators_in_function`. -/
def addTerminatorsInFunction (func : Function) : Gen Function := do
  return { func with
    entry := ← addTerminators instructions func.entry
    nodes := ← func.nodes.mapM (addTerminators instructions)
    exit := ← addTerminators instructions func.exit }

/-- `random.random() < p`, where the random number is at least 0 and below 1. -/
def randomBelow (p : ℚ) : Gen Bool := do
  let drawn ← Drawing.draw
  return decide (0<p) && (decide (1 ≤ p) || decide (drawn % 2 = 1))

/-- `memory_access_probability`, in a test case of at least one instruction. -/
def memoryAccessProbability (recent : Bool) : Gen ℚ :=
  let average : ℚ := conf.avgMemAccesses
  let rest := conf.testCaseSize-average/2
  if !conf.generateMemoryAccessesInPairs then return average/conf.testCaseSize
  else if recent then return 1
  else if rest=0 then throw .zeroDivision
  else return average/2/rest

/-- `_pick_random_instruction_spec`, with the new `had_recent_memory_access`. The source draws until
the specification is of the wanted kind, which never happens when there is none. -/
def pickRandomInstructionSpec (recent : Bool) : Gen (InstructionSpec × Bool) := do
  let searchForMemoryAccess ← randomBelow (← memoryAccessProbability conf recent)
  let searchForStore ← randomBelow (1/2)
  let spec ← Drawing.choice .diverges (instructions.filter fun spec => !spec.controlFlow &&
    if searchForMemoryAccess then spec.hasMemOperand && spec.hasWrite == searchForStore
    else !spec.hasMemOperand)
  return (spec,recent ^^ searchForMemoryAccess)

/-- One turn of the loop of `add_instructions_in_function`. -/
def addInstruction (recent : Bool) (nodes : List BasicBlock) : Gen (List BasicBlock × Bool) := do
  let i ← Drawing.choice .index (List.range nodes.length)
  let (spec,recent) ← pickRandomInstructionSpec conf instructions recent
  let inst ← generateInstruction conf spec
  return (nodes.modify i fun bb => { bb with instructions := bb.instructions ++ [inst] },recent)

def addInstructions : ℕ → Bool → List BasicBlock → Gen (List BasicBlock)
  | 0, _, nodes => pure nodes
  | n+1, recent, nodes => do
    let (nodes,recent) ← addInstruction conf instructions recent nodes
    addInstructions n recent nodes

/-- `add_instructions_in_function`. -/
def addInstructionsInFunction (func : Function) : Gen Function := do
  return { func with
    nodes := ← addInstructions conf instructions conf.testCaseSize conf.hadRecentMemoryAccess
      func.nodes }

/-- The test case before the passes. -/
def generateTestCase : Gen TestCase := do
  let func ← generateFunction conf instructions
  let func ← addTerminatorsInFunction instructions func
  let func ← addInstructionsInFunction conf instructions func
  return ⟨[func]⟩

/-- `create_test_case`, up to the printer: the test case after the passes. -/
def createTestCase : Gen TestCase := do
  let candidates ← X86PatchUndefinedFlagsPass.init instructions
  let tc ← generateTestCase conf instructions
  let tc ← X86SandboxPass.runOnTestCase conf tc
  let tc ← X86PatchUndefinedFlagsPass.runOnTestCase conf candidates tc
  X86PatchUndefinedResultPass.runOnTestCase tc

end Create

end ProteanAmulet.Generator
