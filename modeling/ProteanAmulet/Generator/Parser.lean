import ProteanAmulet.Generator.TestCases
import ProteanAmulet.Library.Text

/-! How existing test cases are read: `parse_existing_test_case` collects the labels of a file, then
parses its instructions into the blocks, connects the blocks and maps addresses to instructions. -/
namespace ProteanAmulet.Generator.X86Generator
open Text

/-- A line of a file, with its newline. -/
abbrev Line := List Char

def memorySizes (size : List Char) : Option ℕ :=
  [("byte",8),("word",16),("dword",32),("qword",64)].findSome? fun p =>
    if p.1.toList = size then some p.2 else none

def asmPrefixes : List (List Char) := ["LOCK","REX","REP","REPE","REPNE"].map String.toList

def asmSynonyms (name : List Char) : Option (List Char) :=
  [("JE","JZ"),("JNE","JNZ"),("JNAE","JB"),("JC","JB"),("JAE","JNB"),("JNC","JNB"),("JNA","JBE"),
    ("JA","JNBE"),("JNGE","JL"),("JGE","JNL"),("JNG","JLE"),("JG","JNLE"),("JPE","JP"),
    ("JPO","JNP"),("CMOVE","CMOVZ"),("CMOVNE","CMOVNZ"),("CMOVNAE","CMOVB"),("CMOVC","CMOVB"),
    ("CMOVAE","CMOVNB"),("CMOVNC","CMOVNB"),("CMOVNA","CMOVBE"),("CMOVA","CMOVNBE"),
    ("CMOVNGE","CMOVL"),("CMOVGE","CMOVNL"),("CMOVNG","CMOVLE"),("CMOVG","CMOVNLE"),
    ("CMOVPE","CMOVP"),("CMOVPO","CMOVNP")].findSome? fun p =>
      if p.1.toList = name then some p.2.toList else none

def upper (l : List Char) : List Char := l.map Char.toUpper
def lower (l : List Char) : List Char := l.map Char.toLower

section Operands

/-- `[0-9]+`. -/
def isNumber (l : List Char) : Bool := l ≠ [] && l.all Char.isDigit

/-- `[0-9]+\ *[+-]\ *[0-9]+`. -/
def isSum (l : List Char) : Bool :=
  let rest := (l.dropWhile Char.isDigit).dropWhile (· = ' ')
  isNumber (l.takeWhile Char.isDigit) && (rest.head? = some '+' || rest.head? = some '-') &&
    isNumber ((rest.drop 1).dropWhile (· = ' '))

/-- The four patterns of an immediate value. -/
def isImmediate (raw : List Char) : Bool :=
  let value := if raw.head? = some '-' then raw.drop 1 else raw
  let digits := value.drop 2
  isNumber value || isSum value ||
    (value.take 2 = ['0','x'] && digits ≠ [] &&
      digits.all fun c => c.isDigit || c ∈ "abcdef".toList) ||
    (value.take 2 = ['0','b'] && digits ≠ [] && digits.all fun c => c = '0' || c = '1')

/-- What an operand of the file says about a candidate: it goes on, it is dropped at once, or it is
dropped after the other operands have been looked at. -/
inductive OperandMatch where
  | yes | dropped | mismatch
  deriving DecidableEq

variable (conf : GeneratorConf) (li : ℕ)

def matchOperand (op : OperandSpec) (raw : List Char) : Except GeneratorError OperandMatch :=
  if raw = [] then throw .index
  else if raw.head? = some '.' then return if op = .label then .yes else .dropped
  else if '[' ∈ raw then
    match op with
    | .mem _ width _ _ | .agen width =>
      match memorySizes ((words raw).headD []) with
      | some size => return if width = size then .yes else .dropped
      | none => throw (.asmParser li "Pointer size must be declared explicitly")
    | _ => return .dropped
  else if isImmediate raw then
    match op with
    | .imm .. => return .yes
    | _ => return .dropped
  else
    match op with
    | .reg _ width _ _ =>
      match X86Registers.registers conf width with
      | some registers => return if String.ofList (upper raw) ∈ registers then .yes else .dropped
      | none => throw .key
    | _ => return .mismatch

def matchOperands : List (OperandSpec × List Char) → Except GeneratorError Bool
  | [] => return true
  | (op,raw) :: rest => do
    match ← matchOperand conf li op raw with
    | .yes => matchOperands rest
    | .dropped => return false
    | .mismatch => do
      let _ ← matchOperands rest
      return false

def matchSpec (operandsRaw : List (List Char)) (spec : InstructionSpec) :
    Except GeneratorError Bool :=
  if spec.operands.length ≠ operandsRaw.length then return false
  else matchOperands conf li (spec.operands.zip operandsRaw)

/-- The candidates that match. -/
def matchingSpecs (operandsRaw : List (List Char)) :
    List InstructionSpec → Except GeneratorError (List InstructionSpec)
  | [] => return []
  | spec :: specs => do
    let here ← matchSpec conf li operandsRaw spec
    let rest ← matchingSpecs operandsRaw specs
    return if here then spec :: rest else rest

/-- The group of `\[(.*)\]`. -/
def bracketed (raw : List Char) : Option (List Char) :=
  let inside := (raw.dropWhile (· ≠ '[')).drop 1
  if ']' ∈ inside then some (beforeLast ']' inside) else none

/-- The operand that is made of its text. The text of an address is kept as one term. -/
def parseOperand (controlFlow : Bool) (op : OperandSpec) (raw : List Char) :
    Except GeneratorError Operand :=
  match op with
  | .reg _ width src dest => return .reg (String.ofList (upper raw)) width src dest
  | .mem _ width src dest =>
    match bracketed raw with
    | some address => return .mem [String.ofList (upper address)] width src dest
    | none => throw (.asmParser li "Invalid memory address")
  | .imm _ width => return .imm (String.ofList (lower raw)) width
  | .label => if controlFlow then return .label (String.ofList raw) else throw .assertion
  | .agen width => return .agen [String.ofList (upper raw)] width
  | .flags _ | .cond => return .agen [String.ofList (upper raw)] 0

def parseOperands (controlFlow : Bool) :
    List (OperandSpec × List Char) → Except GeneratorError (List Operand)
  | [] => return []
  | (op,raw) :: rest => return (← parseOperand li controlFlow op raw) :: (← parseOperands controlFlow rest)

end Operands

section Instructions
variable (conf : GeneratorConf) (instructions : List InstructionSpec)

/-- The name as it is written, with its prefixes, and the key of its specifications. -/
def findName (name : List Char) : List (List Char) → List Char × Option (List Char)
  | [] => (name,none)
  | word :: rest =>
    if word ∈ asmPrefixes then findName (name ++ word ++ [' ']) rest
    else (name ++ word,some (match asmSynonyms (upper word) with
      | some key => upper name ++ key
      | none => upper (name ++ word)))

/-- `instruction_map.get(key, [])`. -/
def specsFor (key : Option (List Char)) : List InstructionSpec :=
  instructions.filter fun spec => some spec.name.toList = key

/-- The operands behind the name, without comments. -/
def operandsRaw (name line : List Char) : List (List Char) :=
  let line := if '#' ∈ line then strip (beforeLast '#' line) else line
  let parts := splitOn ',' ((afterPrefix name line).getD line)
  if parts = [[]] then [] else parts.map strip

/-- `\s*\.byte\s+0x36`, at the beginning of a line. -/
def isProtectPrefix (line : List Char) : Bool :=
  match afterPrefix ".byte".toList line with
  | some rest => rest.head?.any isSpace && "0x36".toList.isPrefixOf (rest.dropWhile isSpace)
  | none => false

def protectPrefix : Instruction := { name := ".byte 0x36" }

/-- The specification that the text of an instruction selects, and the texts of its operands. -/
def findSpec (line : List Char) (li : ℕ) :
    Except GeneratorError (InstructionSpec × List (List Char)) := do
  let (name,key) := findName [] (words line)
  let specs := specsFor instructions key
  if specs = [] then throw (.asmParser li ("Unknown instruction " ++ String.ofList line))
  let raw := operandsRaw name line
  let matching ← matchingSpecs conf li raw specs
  let magic := matching.filter (·.hasMagicValue)
  match if 1 < matching.length ∧ magic ≠ [] then magic else matching with
  | [] => throw (.asmParser li ("Could not find a matching spec for " ++ String.ofList line))
  | spec :: _ => return (spec,raw)

/-- `_parse_instruction`. -/
def parseInstruction (line : List Char) (li : ℕ) : Gen Instruction := do
  if isProtectPrefix line then return protectPrefix
  let (spec,raw) ← findSpec conf instructions line li
  let operands ← parseOperands li spec.controlFlow (spec.operands.zip raw)
  let (implicitOperands,_) ← generateOperands conf spec.implicitOperands none
  return { Instruction.fromSpec spec ("# instrumentation".toList.isSuffixOf line) with
    operands,implicitOperands }

end Instructions

section Labels

def testCaseEnter : List Char := ".test_case_enter:".toList
def testCaseExit : List Char := ".test_case_exit:".toList

/-- Empty lines and comments. -/
def isTrivial (line : List Char) : Bool :=
  line = [] || line.head? = some '#' || line.head? = some '/'

/-- A line that is skipped or parsed as an instruction, but is no label. -/
def isByte (line : List Char) : Bool := ".byte".toList.isPrefixOf line

def isFunctionLabel (line : List Char) : Bool := ".function_".toList.isPrefixOf line

/-- `lstrip(".function_")`, which removes all these characters. -/
def strippedName (name : List Char) : List Char :=
  name.dropWhile fun c => c ∈ ".function_".toList

def entryOf (name : List Char) : List Char :=
  ".bb_".toList ++ strippedName name ++ ".entry".toList
def exitOf (name : List Char) : List Char := ".bb_".toList ++ strippedName name ++ ".exit".toList

/-- A `Function` before its blocks are filled: the blocks between the entry and the exit. -/
structure FunctionLabels where
  name : List Char
  nodes : List (List Char) := []
  deriving DecidableEq

/-- `_all_bb`. -/
def FunctionLabels.allBb (func : FunctionLabels) : List (List Char) :=
  entryOf func.name :: func.nodes ++ [exitOf func.name]

/-- What the first pass has found; the last function is the current one. -/
structure FirstPass where
  started : Bool := false
  functions : List FunctionLabels := [⟨".function_main".toList,[]⟩]
  numPrologueInstructions : ℕ := 0

/-- `current_function.insert`. -/
def insertNode (name : List Char) (functions : List FunctionLabels) : List FunctionLabels :=
  functions.modify (functions.length-1) fun func => { func with nodes := func.nodes ++ [name] }

/-- The first pass at a line between the header and the footer. -/
def addLabel (functions : List FunctionLabels) (line : List Char) : List FunctionLabels :=
  let name := line.dropLast
  if line.head? ≠ some '.' || isByte line then functions
  else if isFunctionLabel line then
    if name = ".function_main".toList then functions else functions ++ [⟨name,[]⟩]
  else if "entry".toList.isSuffixOf name || "exit".toList.isSuffixOf name then functions
  else insertNode name functions

def firstPass (s : FirstPass) : List Line → FirstPass
  | [] => s
  | raw :: rest =>
    let line := strip raw
    if isTrivial line then firstPass s rest
    else if !s.started then
      firstPass { s with
        started := line = testCaseEnter
        numPrologueInstructions := s.numPrologueInstructions +
          if line.head? = some '.' then 0 else 1 } rest
    else if line = testCaseExit then s
    else firstPass { s with functions := addLabel s.functions line } rest

end Labels

/-- The place of the last occurrence, as a dictionary keeps it. -/
def lastIndex (name : List Char) : List (List Char) → Option ℕ
  | [] => none
  | other :: names =>
    match lastIndex name names with
    | some i => some (i+1)
    | none => if other=name then some 0 else none

/-- A `BasicBlock`. Instructions come with the number of the line that they were made from, which
tells the objects apart. Successors are given by their places in the test case. -/
structure ParsedBlock where
  name : List Char
  instructions : List (ℕ × Instruction) := []
  terminators : List (ℕ × Instruction) := []
  successors : List ℕ := []
  deriving DecidableEq

/-- The state of the second pass; `current` is the place of `current_bb`. -/
structure SecondPass where
  started : Bool := false
  current : ℕ := 0
  terminatorsStarted : Bool := false
  blocks : List ParsedBlock
  deriving DecidableEq

namespace SecondPass

/-- `insert_terminator`, in the current block. -/
def insertTerminator (s : SecondPass) (li : ℕ) (inst : Instruction) : SecondPass :=
  { s with
    terminatorsStarted := true
    blocks := s.blocks.modify s.current fun bb =>
      { bb with terminators := bb.terminators ++ [(li,inst)] } }

/-- `insert_after`, at the end of the current block. -/
def insertAfter (s : SecondPass) (li : ℕ) (inst : Instruction) : SecondPass :=
  { s with
    blocks := s.blocks.modify s.current fun bb =>
      { bb with instructions := bb.instructions ++ [(li,inst)] } }

end SecondPass

section Second
variable (conf : GeneratorConf) (instructions : List InstructionSpec) (names : List (List Char))

/-- The block that a label selects. -/
def selectBlock (s : SecondPass) (name : List Char) : Gen SecondPass :=
  match lastIndex name names with
  | some i => return { s with current := i, terminatorsStarted := false }
  | none => throw .key

/-- A terminator, for the parser. -/
def isTerminator (inst : Instruction) : Bool := inst.controlFlow && inst.category ≠ "BASE-CALL"

/-- The second pass at a line between the header and the footer. -/
def parseLine (s : SecondPass) (li : ℕ) (line : List Char) : Gen SecondPass :=
  if isTrivial line then return s
  else if isFunctionLabel line then selectBlock names s (entryOf line.dropLast)
  else if line.head? = some '.' && !isByte line then selectBlock names s line.dropLast
  else do
    let inst ← parseInstruction conf instructions line li
    if isTerminator inst then return s.insertTerminator li inst
    else if s.terminatorsStarted then throw (.asmParser li "Terminator in the middle of BB")
    else return s.insertAfter li inst

def secondPass (s : SecondPass) (li : ℕ) : List Line → Gen SecondPass
  | [] => return s
  | raw :: rest =>
    let line := strip raw
    if !s.started then secondPass { s with started := line = testCaseEnter } (li+1) rest
    else if line = testCaseExit then return s
    else do secondPass (← parseLine conf instructions names s li line) (li+1) rest

/-- The blocks that labels name. -/
def targets : List Operand → Except GeneratorError (List ℕ)
  | [] => return []
  | .label value :: ops =>
    match lastIndex value.toList names with
    | some i => return i :: (← targets ops)
    | none => throw .key
  | _ :: ops => targets ops

/-- The successors of the block at place `i`: the targets of its terminators, and the next block
unless the last terminator is a direct jump. The source asks `if previous_bb:`, which is also false
for a block without instructions, whose `__len__` is 0. -/
def connect (count i : ℕ) (bb : ParsedBlock) : Except GeneratorError ParsedBlock := do
  let taken ← targets names (bb.terminators.flatMap fun t => t.2.operands)
  let fallthrough := i+1<count ∧ bb.instructions ≠ [] ∧
    bb.terminators.getLast?.map (·.2.category) ≠ some "BASE-UNCOND_BR"
  return { bb with successors := taken ++ if fallthrough then [i+1] else [] }

def connectFrom (count : ℕ) : ℕ → List ParsedBlock → Except GeneratorError (List ParsedBlock)
  | _, [] => return []
  | i, bb :: blocks => return (← connect names count i bb) :: (← connectFrom count (i+1) blocks)

end Second

/-- A `TestCase`, with its blocks in the order of its functions. -/
structure ParsedTestCase where
  functions : List FunctionLabels
  blocks : List ParsedBlock
  numPrologueInstructions : ℕ

/-- The places and names of all blocks. -/
def blockNames (functions : List FunctionLabels) : List (List Char) :=
  functions.flatMap (·.allBb)

/-- `parse_existing_test_case`, up to the assembler. -/
def parseText (conf : GeneratorConf) (instructions : List InstructionSpec) (file : List Line) :
    Gen ParsedTestCase := do
  let first := firstPass {} file
  if !first.started then throw (.asmParser 0 "Could not find .test_case_enter")
  let names := blockNames first.functions
  let second ← secondPass conf instructions names
    { blocks := names.map fun name => { name } } 0 file
  let blocks ← connectFrom names names.length 0 second.blocks
  return { functions := first.functions, blocks
           numPrologueInstructions := first.numPrologueInstructions }

/-- What an address is mapped to. -/
inductive Mapped where
  | parsed (li : ℕ) (inst : Instruction)
  | unmapped
  deriving DecidableEq

/-- The instructions in the order in which addresses are counted. -/
def inMemory (blocks : List ParsedBlock) : List (ℕ × Instruction) :=
  (blocks.flatMap fun bb => bb.instructions ++ bb.terminators).filter fun p =>
    p.2.name ≠ ".byte 0x36"

/-- `map_addresses`, on the addresses that the decoder has found: the pairs in the order in which
they are put into the dictionary. -/
def mapAddresses (tc : ParsedTestCase) (addressList : List ℕ) :
    Except GeneratorError (List (ℕ × Mapped)) :=
  let insts := inMemory tc.blocks
  if addressList.length<tc.numPrologueInstructions+insts.length ∨ addressList = [] then throw .index
  else
    let mapped := (addressList.drop tc.numPrologueInstructions).zip
      (insts.map fun p => Mapped.parsed p.1 p.2)
    return mapped ++ (addressList.filter (· ∉ mapped.map (·.1))).map fun a => (a,.unmapped)

/-- `address_map[address]`: the last pair counts. -/
def addressMap (pairs : List (ℕ × Mapped)) (address : ℕ) : Option Mapped :=
  pairs.reverse.lookup address

/-- `parse_existing_test_case`, over what assembler and decoder make of a file; `none` is an error of
the assembler. -/
def parseExistingTestCase (assemble : List Line → Option (List ℕ)) (conf : GeneratorConf)
    (instructions : List InstructionSpec) (file : List Line) :
    Gen (ParsedTestCase × List (ℕ × Mapped)) := do
  let tc ← parseText conf instructions file
  match assemble file with
  | none => throw .assembler
  | some addressList => return (tc,← mapAddresses tc addressList)

end ProteanAmulet.Generator.X86Generator
