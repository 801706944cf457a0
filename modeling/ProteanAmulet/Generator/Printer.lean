import ProteanAmulet.Generator.Flags
import ProteanAmulet.Generator.Reading
import Mathlib.Data.List.DropRight

/-! How test cases are printed, and what is left of them when the file is read again. The terminators
that the generator makes carry at most the flags of their specification; those that are parsed carry
all of its implicit operands. -/
namespace ProteanAmulet.Generator
open Drawing Text

namespace X86Printer
open X86Generator (Line)

def memoryPrefixes : ℕ → Option String
  | 8 => some "byte ptr"
  | 16 => some "word ptr"
  | 32 => some "dword ptr"
  | 64 => some "qword ptr"
  | 512 => some ""
  | _ => none

/-- `operand_to_str`. -/
def operandToStr (op : Operand) : Except GeneratorError String :=
  match op with
  | .mem _ width _ _ | .agen _ width =>
    match memoryPrefixes width with
    | some size => return size ++ " [" ++ op.value ++ "]"
    | none => throw .key
  | _ => return op.value

/-- `instruction_to_str`. -/
def instructionToStr (inst : Instruction) : Except GeneratorError String := do
  let operands := ", ".intercalate (← inst.operands.mapM operandToStr)
  let comment := if inst.isInstrumentation then "# instrumentation" else ""
  return inst.name ++ " " ++ operands ++ " " ++ comment

def instructionLine (inst : Instruction) : Except GeneratorError Line := do
  return ((← instructionToStr inst) ++ "\n").toList

/-- `print_basic_block`. -/
def printBasicBlock (bb : BasicBlock) : Except GeneratorError (List Line) := do
  let instructions ← bb.instructions.mapM instructionLine
  let terminators ← bb.terminators.mapM instructionLine
  return (bb.name ++ ":\n").toList :: instructions ++ terminators

def printFunction (func : Function) : Except GeneratorError (List Line) := do
  return (func.name ++ ":\n").toList :: (← func.allBb.mapM printBasicBlock).flatten

def prologue (cacheLineOffset : ℕ) : List Line :=
  [".intel_syntax noprefix\n".toList,
    ("LEA R14, [R14 + " ++ toString cacheLineOffset ++ "] # instrumentation\n").toList,
    "MFENCE # instrumentation\n".toList,
    ".test_case_enter:\n".toList]

def epilogue (cacheLineOffset : ℕ) : List Line :=
  [".test_case_exit:\n".toList,
    "MFENCE # instrumentation\n".toList,
    ("LEA R14, [R14 - " ++ toString cacheLineOffset ++ "] # instrumentation\n").toList]

/-- The memory slots are 4 bytes wide. -/
def cacheLineOffset (conf : GeneratorConf) : Gen ℕ :=
  if conf.randomizedMemAlignment then do return (← Drawing.randint .value 0 15).toNat*4 else return 0

/-- `print`: the lines of the file. -/
def print (conf : GeneratorConf) (tc : TestCase) : Gen (List Line) := do
  let cacheLineOffset ← cacheLineOffset conf
  let body ← (tc.functions.mapM printFunction : Except GeneratorError (List (List Line)))
  return prologue cacheLineOffset ++ body.flatten ++ epilogue cacheLineOffset

end X86Printer

section Agreement

/-- The registers that an instruction reads. -/
def Instruction.readRegisters (inst : Instruction) : List String :=
  inst.allOperands.filterMap fun op => match op with
    | .reg value _ true _ => some value
    | _ => none

def Instruction.writtenRegisters (inst : Instruction) : List String :=
  inst.allOperands.filterMap fun op => match op with
    | .reg value _ _ true => some value
    | _ => none

/-- The flags that the flags operand of an instruction names. -/
def Instruction.flags (f : FlagsOperand → List Flag) (inst : Instruction) : List Flag :=
  (inst.getFlagsOperand.map f).getD []

/-- A memory operand by its text. -/
def memoryAccess (op : Operand) : String × ℕ × Bool × Bool := (op.value,op.width,op.src,op.dest)

/-- Two instructions that are the same for tracing and tainting. -/
structure SameInstruction (inst parsed : Instruction) : Prop where
  name : parsed.name = inst.name
  readRegisters : ∀ r, r ∈ parsed.readRegisters ↔ r ∈ inst.readRegisters
  writtenRegisters : ∀ r, r ∈ parsed.writtenRegisters ↔ r ∈ inst.writtenRegisters
  readFlags : ∀ f, f ∈ parsed.flags (·.getReadFlags) ↔ f ∈ inst.flags (·.getReadFlags)
  writtenFlags : ∀ f, f ∈ parsed.flags (·.getWriteFlags) ↔ f ∈ inst.flags (·.getWriteFlags)
  memory : ∀ a, a ∈ parsed.getMemOperands.map memoryAccess ↔ a ∈ inst.getMemOperands.map memoryAccess
  controlFlow : parsed.controlFlow = inst.controlFlow

/-- The successors of a parsed block are places among the names of the blocks. -/
structure SameBlock (names : List (List Char)) (bb : BasicBlock) (parsed : X86Generator.ParsedBlock) :
    Prop where
  name : parsed.name = bb.name.toList
  instructions : List.Forall₂ SameInstruction bb.instructions (parsed.instructions.map (·.2))
  terminators : List.Forall₂ SameInstruction bb.terminators (parsed.terminators.map (·.2))
  successors : ∀ name : String, name ∈ bb.successors ↔
    ∃ i ∈ parsed.successors, names[i]? = some name.toList

/-- The same instructions in the same blocks with the same successors. -/
def Agrees (tc : TestCase) (parsed : X86Generator.ParsedTestCase) : Prop :=
  List.Forall₂ (SameBlock (X86Generator.blockNames parsed.functions)) tc.blocks parsed.blocks

/-- As x86 has it, a jump names the instruction pointer as its implicit operand. -/
def JumpsUseRip (instructions : List InstructionSpec) : Prop :=
  ∀ spec ∈ instructions, spec.name = "JMP" → ∃ width src dest,
    spec.implicitOperands = [.reg ["RIP"] width src dest] ∧ (src || dest)

/-- The printed file is read again as the same test case, with the random choices of `t` and `u`. -/
def RoundTrips (conf : GeneratorConf) (instructions : List InstructionSpec) (tc : TestCase)
    (t u : Stream' ℕ) : Prop :=
  ∃ file parsed t' u', X86Printer.print conf tc t = .ok (file,t') ∧
    X86Generator.parseText conf instructions file u = .ok (parsed,u') ∧ Agrees tc parsed

end Agreement

section Entry
variable {conf : GeneratorConf} {instructions : List InstructionSpec}

/-- The entry of every test case: it holds nothing but a jump to the first block. -/
def entryBlock : BasicBlock where
  name := entryName
  successors := [bbName 0]
  terminators := [unconditionalJump (bbName 0)]

lemma bbName_ne_exitName : bbName 0 ≠ exitName := by decide

def MainFunction (func : Function) : Prop := func.name = ".function_main" ∧ func.entry = entryBlock

lemma generateTestCase_main : Ensures (generateTestCase conf instructions)
    fun tc => ∃ func, MainFunction func ∧ tc.functions = [func] := by
  have generated : Ensures (generateFunction conf instructions) fun func =>
      func.name = ".function_main" ∧ func.entry = { name := entryName, successors := [bbName 0] } := by
    refine Outcome.any.bind fun drawn _ => ?_
    dsimp only
    split_ifs
    · exact Outcome.throw trivial
    · exact Outcome.any.bind fun nodes _ => Outcome.pure ⟨rfl,rfl⟩
  refine generated.bind fun func h => ?_
  have terminated : Ensures (addTerminatorsInFunction instructions func) MainFunction := by
    have entry : Ensures (addTerminators instructions func.entry) (· = entryBlock) := by
      rw [h.2]
      refine Outcome.bind (P := (· = [unconditionalJump (bbName 0)])) ?_ fun l hl => ?_
      · exact Outcome.pure (if_neg bbName_ne_exitName)
      · rw [hl]
        exact Outcome.pure rfl
    refine entry.bind fun entry he => ?_
    exact Outcome.any.bind fun _ _ => Outcome.any.bind fun _ _ => Outcome.pure ⟨h.1,he⟩
  refine terminated.bind fun func h => ?_
  have filled : Ensures (addInstructionsInFunction conf instructions func) MainFunction :=
    Outcome.any.bind fun _ _ => Outcome.pure h
  exact filled.bind fun func h => Outcome.pure ⟨func,h,rfl⟩

/-- A pass that keeps the main function. -/
lemma pass_main {f : Function → Gen Function} {tc : TestCase}
    (hf : ∀ func, MainFunction func → Ensures (f func) MainFunction)
    (h : ∃ func, MainFunction func ∧ tc.functions = [func]) :
    Ensures (do return (⟨← tc.functions.mapM f⟩ : TestCase))
      fun tc => ∃ func, MainFunction func ∧ tc.functions = [func] := by
  obtain ⟨func,hm,hs⟩ := h
  rw [hs,List.mapM_cons,List.mapM_nil]
  refine Outcome.bind (P := fun l => ∃ func, MainFunction func ∧ l = [func]) ?_
    fun l hl => Outcome.pure hl
  refine (hf func hm).bind fun func' h' => ?_
  exact Outcome.pure ⟨func',h',rfl⟩

lemma createTestCase_main : Ensures (createTestCase conf instructions)
    fun tc => ∃ func, MainFunction func ∧ tc.functions = [func] := by
  refine Outcome.any.bind fun candidates _ => generateTestCase_main.bind fun tc h => ?_
  refine (pass_main ?_ h).bind fun tc h => ?_
  · intro func hm
    exact Outcome.any.bind fun _ _ => Outcome.any.bind fun _ _ => Outcome.pure hm
  refine (pass_main ?_ h).bind fun tc h => pass_main ?_ h
  · intro func hm
    have entry : Ensures (X86PatchUndefinedFlagsPass.runOnBlock conf candidates func.entry)
        (· = entryBlock) := by
      rw [hm.2]
      exact Outcome.pure rfl
    refine entry.bind fun entry he => ?_
    exact Outcome.any.bind fun _ _ => Outcome.any.bind fun _ _ => Outcome.pure ⟨hm.1,he⟩
  · intro func hm
    exact Outcome.any.bind fun _ _ => Outcome.any.bind fun _ _ => Outcome.pure hm

end Entry

namespace X86Generator

/-- The lines of every printed file up to the jump of its entry. -/
def opening (cacheLineOffset : ℕ) : List Line :=
  X86Printer.prologue cacheLineOffset ++ [".function_main:\n".toList,".bb_main.entry:\n".toList,
    "JMP .bb_main.0 \n".toList]

lemma printFunction_opening {func : Function} {l : List Line} (hm : MainFunction func)
    (h : X86Printer.printFunction func = .ok l) : ∃ rest, l = ".function_main:\n".toList ::
      ".bb_main.entry:\n".toList :: "JMP .bb_main.0 \n".toList :: rest := by
  rw [X86Printer.printFunction,Function.allBb,hm.1,hm.2,List.cons_append,List.mapM_cons] at h
  obtain ⟨blocks,hb,h⟩ := Except.bind_eq_ok.mp h
  obtain ⟨entry,he,hb⟩ := Except.bind_eq_ok.mp hb
  obtain ⟨others,-,hb⟩ := Except.bind_eq_ok.mp hb
  cases hb
  cases h
  have printed : X86Printer.printBasicBlock entryBlock =
      .ok [".bb_main.entry:\n".toList,"JMP .bb_main.0 \n".toList] := by decide +kernel
  rw [printed] at he
  cases he
  exact ⟨others.flatten,rfl⟩

lemma print_opening {conf : GeneratorConf} {tc : TestCase} {t : Stream' ℕ}
    {r : List Line × Stream' ℕ} (h : ∃ func, MainFunction func ∧ tc.functions = [func])
    (hp : X86Printer.print conf tc t = .ok r) : ∃ offset rest, r.1 = opening offset ++ rest := by
  obtain ⟨func,hm,hf⟩ := h
  obtain ⟨offset,t₁,-,hp⟩ := bind_eq_ok.mp hp
  obtain ⟨body,t₂,hb,hp⟩ := bind_eq_ok.mp hp
  obtain ⟨hb,-⟩ := lift_eq_ok.mp hb
  rw [hf,List.mapM_cons,List.mapM_nil] at hb
  obtain ⟨l,hl,hb⟩ := Except.bind_eq_ok.mp hb
  obtain ⟨rest,hr⟩ := printFunction_opening hm hl
  cases hb
  cases hp
  refine ⟨offset,rest ++ X86Printer.epilogue offset,?_⟩
  rw [hr]
  simp [opening]

section Rereading
variable {conf : GeneratorConf} {instructions : List InstructionSpec} {names : List (List Char)}
  {s s' : SecondPass} {li : ℕ}

lemma mem_of_matchingSpecs {raw : List (List Char)} {specs matching : List InstructionSpec}
    (h : matchingSpecs conf li raw specs = .ok matching) : matching ⊆ specs := by
  induction specs generalizing matching with
  | nil =>
    cases h
    exact List.Subset.refl _
  | cons spec specs ih =>
    obtain ⟨here,_,h⟩ := Except.bind_eq_ok.mp h
    obtain ⟨rest,hr,h⟩ := Except.bind_eq_ok.mp h
    cases h
    split_ifs
    · exact List.cons_subset_cons spec (ih hr)
    · exact List.subset_cons_of_subset spec (ih hr)

/-- The specification that is selected has the name that the line starts with. -/
lemma findSpec_mem {line : List Char} {r : InstructionSpec × List (List Char)}
    (h : findSpec conf instructions line li = .ok r) :
    r.1 ∈ specsFor instructions (findName [] (words line)).2 := by
  unfold findSpec at h
  dsimp only at h
  split_ifs at h with unknown
  · cases h
  · obtain ⟨matching,hm,h⟩ := Except.bind_eq_ok.mp h
    have found : (if 1 < matching.length ∧ matching.filter (·.hasMagicValue) ≠ [] then
        matching.filter (·.hasMagicValue) else matching) ⊆ matching := by
      split_ifs
      · exact List.filter_sublist.subset
      · exact List.Subset.refl _
    generalize (if 1 < matching.length ∧ matching.filter (·.hasMagicValue) ≠ [] then
      matching.filter (·.hasMagicValue) else matching) = chosen at h found
    cases chosen with
    | nil => cases h
    | cons spec rest =>
      cases h
      exact mem_of_matchingSpecs hm (found List.mem_cons_self)

def UsesRip (inst : Instruction) : Prop :=
  "RIP" ∈ inst.readRegisters ∨ "RIP" ∈ inst.writtenRegisters

lemma not_usesRip_unconditionalJump (label : String) : ¬UsesRip (unconditionalJump label) := by
  rintro (h | h) <;> cases h

lemma generateOperands_rip {width : ℕ} {src dest : Bool} {t t' : Stream' ℕ} {ops : List Operand}
    {latest : Option Operand}
    (h : generateOperands conf [.reg ["RIP"] width src dest] none t = .ok ((ops,latest),t')) :
    ops = [.reg "RIP" width src dest] := by
  have choices : regChoices conf ["RIP"] width = .ok ["RIP"] := rfl
  have chosen : Ensures (do
      return Operand.reg (← Drawing.choice .index ["RIP"]).toUpper width src dest : Gen Operand)
      (· = .reg "RIP" width src dest) := by
    refine (Outcome.choice trivial _).bind fun v hv => Outcome.pure ?_
    rw [List.mem_singleton.mp hv,show "RIP".toUpper = "RIP" by decide +kernel]
  have generated : Ensures (generateRegOperand conf ["RIP"] width src dest none)
      fun p => p.1 = .reg "RIP" width src dest := by
    rw [generateRegOperand,choices]
    refine Outcome.bind (P := (· = ["RIP"])) (Outcome.pure rfl) ?_
    rintro _ rfl
    dsimp only
    split_ifs
    · exact chosen.bind fun op hop => Outcome.pure hop
    · exact chosen.bind fun op hop => Outcome.pure hop
  obtain ⟨p,t₁,hp,h⟩ := bind_eq_ok.mp h
  cases h
  rw [generated.ok hp]

lemma parseInstruction_jump (rip : JumpsUseRip instructions) {t : Stream' ℕ}
    {r : Instruction × Stream' ℕ}
    (h : parseInstruction conf instructions "JMP .bb_main.0".toList li t = .ok r) : UsesRip r.1 := by
  obtain ⟨spec,raw,operands,implicitOperands,hs,_,⟨latest,t',hi⟩,hr⟩ :=
    parseInstruction_spec (by decide +kernel) h
  have named : (findName [] (words "JMP .bb_main.0".toList)).2 = some "JMP".toList := by decide +kernel
  have mem := findSpec_mem hs
  rw [named,specsFor,List.mem_filter] at mem
  obtain ⟨width,src,dest,himp,used⟩ := rip spec mem.1 (String.toList_inj.mp (by simpa using mem.2))
  rw [himp] at hi
  rw [hr,generateOperands_rip hi]
  cases src with
  | true => exact .inl (by simp [Instruction.readRegisters,Instruction.allOperands])
  | false =>
    cases dest with
    | true => exact .inr (by simp [Instruction.writtenRegisters,Instruction.allOperands])
    | false => cases used

/-- The name of the first block. -/
def mainEntry : List Char := ".bb_main.entry".toList

lemma lastIndex_zero {name : List Char} (h : lastIndex name names = some 0) :
    names.head? = some name := by
  cases names with
  | nil => cases h
  | cons other names =>
    rw [lastIndex] at h
    cases hi : lastIndex name names with
    | some i =>
      rw [hi] at h
      cases h
    | none =>
      rw [hi] at h
      dsimp only at h
      split_ifs at h with same
      rw [same,List.head?_cons]

/-- A block that is not the entry of the generated test case. -/
def Strays (bb : ParsedBlock) : Prop :=
  bb.instructions ≠ [] ∨ ∀ t ∈ bb.terminators.head?, UsesRip t.2

/-- The first block strays, and nothing more can be said of it than that it comes from a jump when
there is anything in it or it is the current one. -/
def EntryStrays (names : List (List Char)) (s : SecondPass) : Prop :=
  ∀ bb, s.blocks[0]? = some bb → Strays bb ∧
    (s.current = 0 ∨ lastIndex mainEntry names = some 0 →
      bb.instructions ≠ [] ∨ bb.terminators ≠ [])

lemma getElem?_modify_zero {α : Type} {l : List α} {i : ℕ} {f : α → α} {b : α}
    (h : (l.modify i f)[0]? = some b) : (i = 0 ∧ ∃ a, l[0]? = some a ∧ b = f a) ∨
      (i ≠ 0 ∧ l[0]? = some b) := by
  rw [List.getElem?_modify] at h
  obtain ⟨a,ha,h⟩ := Option.map_eq_some_iff.mp h
  split_ifs at h with here
  · exact .inl ⟨here,a,ha,h.symm⟩
  · exact .inr ⟨here,h ▸ ha⟩

/-- What is added to the first block comes behind what is there already. -/
lemma EntryStrays.step {line : List Char} (head : names.head? = some mainEntry)
    (h : EntryStrays names s) (step : LineStep conf instructions names s li line s') :
    EntryStrays names s' := by
  cases step with
  | skip => exact h
  | @label i _ _ found =>
    intro bb hbb
    refine ⟨(h bb hbb).1,fun current => (h bb hbb).2 (.inr ?_)⟩
    rcases current with rfl | current
    · have same := lastIndex_zero found
      rw [head] at same
      rwa [Option.some.inj same]
    · exact current
  | @terminator inst =>
    intro bb hbb
    rcases getElem?_modify_zero hbb with ⟨here,old,hold,rfl⟩ | ⟨elsewhere,hbb⟩
    · obtain ⟨strays,filled⟩ := h old hold
      refine ⟨?_,fun _ => .inr (by simp)⟩
      refine (filled (.inl here)).elim .inl fun filled => strays.imp_right fun rip t ht => ?_
      obtain ⟨first,rest,hfirst⟩ := List.exists_cons_of_ne_nil filled
      rw [hfirst] at rip ht
      exact rip t ht
    · refine ⟨(h bb hbb).1,fun current => (h bb hbb).2 ?_⟩
      exact current
  | @instruction inst =>
    intro bb hbb
    rcases getElem?_modify_zero hbb with ⟨_,old,_,rfl⟩ | ⟨elsewhere,hbb⟩
    · exact ⟨.inl (by simp),fun _ => .inl (by simp)⟩
    · exact ⟨(h bb hbb).1,(h bb hbb).2⟩

/-- A line between header and footer. -/
lemma secondPass_line {raw : Line} {rest : List Line} {t : Stream' ℕ} {r : SecondPass × Stream' ℕ}
    (started : s.started) (exit : strip raw ≠ testCaseExit)
    (h : secondPass conf instructions names s li (raw :: rest) t = .ok r) :
    ∃ s' t', LineStep conf instructions names s li (strip raw) s' ∧ s'.started ∧
      secondPass conf instructions names s' (li+1) rest t' = .ok r := by
  rw [secondPass,started,Bool.not_true,if_neg Bool.false_ne_true,if_neg exit] at h
  obtain ⟨s',t',hs,h⟩ := bind_eq_ok.mp h
  have step := parseLine_step hs
  refine ⟨s',t',step,?_,h⟩
  cases step with
  | skip => exact started
  | label => exact started
  | terminator => exact started
  | instruction => exact started

lemma EntryStrays.run (head : names.head? = some mainEntry) {l : List Line} {t : Stream' ℕ}
    {r : SecondPass × Stream' ℕ} (started : s.started) (h : EntryStrays names s)
    (ok : secondPass conf instructions names s li l t = .ok r) : EntryStrays names r.1 := by
  induction l generalizing s li t with
  | nil =>
    cases ok
    exact h
  | cons raw l ih =>
    by_cases exit : strip raw = testCaseExit
    · rw [secondPass,started,Bool.not_true,if_neg Bool.false_ne_true,if_pos exit] at ok
      cases ok
      exact h
    · obtain ⟨s',t',step,started',ok⟩ := secondPass_line started exit ok
      exact ih started' (h.step head step) ok

/-- Behind the jump of the entry, which is the first instruction of the file. -/
lemma entryStrays_jump (rip : JumpsUseRip instructions)
    (found : lastIndex mainEntry names = some s.current)
    (fresh : s.blocks = (emptyBlocks names).blocks)
    (step : LineStep conf instructions names s li "JMP .bb_main.0".toList s') :
    EntryStrays names s' := by
  have text : isTrivial "JMP .bb_main.0".toList = false := by decide +kernel
  have plain : isLabel "JMP .bb_main.0".toList = false := by decide +kernel
  have empty {bb : ParsedBlock} (h : s.blocks[0]? = some bb) : bb.terminators = [] := by
    rw [fresh,emptyBlocks,List.getElem?_map] at h
    obtain ⟨name,_,rfl⟩ := Option.map_eq_some_iff.mp h
    rfl
  have away (elsewhere : s.current ≠ 0) : ¬(s.current = 0 ∨ lastIndex mainEntry names = some 0) := by
    rintro (here | here)
    · exact elsewhere here
    · rw [found] at here
      exact elsewhere (Option.some.inj here)
  cases step with
  | skip trivial => exact absurd trivial (text ▸ Bool.false_ne_true)
  | label _ label => exact absurd label (plain ▸ Bool.false_ne_true)
  | @terminator inst _ _ _ _ parsed =>
    intro bb hbb
    rcases getElem?_modify_zero hbb with ⟨_,old,hold,rfl⟩ | ⟨elsewhere,hbb⟩
    · refine ⟨.inr fun t ht => ?_,fun _ => .inr (by simp)⟩
      rw [empty hold] at ht
      cases ht
      exact parseInstruction_jump rip parsed
    · refine ⟨.inr ?_,fun here => absurd here (away elsewhere)⟩
      rw [empty hbb]
      nofun
  | @instruction inst _ _ _ _ parsed =>
    intro bb hbb
    rcases getElem?_modify_zero hbb with ⟨_,old,_,rfl⟩ | ⟨elsewhere,hbb⟩
    · exact ⟨.inl (by simp),fun _ => .inl (by simp)⟩
    · refine ⟨.inr ?_,fun here => absurd here (away elsewhere)⟩
      rw [empty hbb]
      nofun

/-- In front of the header nothing is parsed. -/
lemma secondPass_header {raw : Line} {rest : List Line} (started : s.started = false)
    {enter : Bool} (h : (strip raw = testCaseEnter : Bool) = enter) :
    secondPass conf instructions names s li (raw :: rest) =
      secondPass conf instructions names { s with started := enter } (li+1) rest := by
  rw [secondPass,started,Bool.not_false,if_pos rfl,← h]

lemma strip_ne_testCaseEnter (line : List Char) :
    strip ('L' :: line) ≠ testCaseEnter := by
  intro h
  have start : strip ('L' :: line) <+: 'L' :: line := List.rdropWhile_prefix isSpace _
  rw [h] at start
  cases (List.cons_prefix_cons.mp start).1

lemma lea_ne_testCaseEnter (offset : ℕ) :
    strip ("LEA R14, [R14 + " ++ toString offset ++ "] # instrumentation\n").toList ≠
      testCaseEnter := by
  rw [String.toList_append,String.toList_append]
  exact strip_ne_testCaseEnter _

lemma LineStep.of_label {line : List Char} (step : LineStep conf instructions names s li line s')
    (text : isTrivial line = false) (label : isLabel line) :
    lastIndex (labelName line) names = some s'.current ∧ s'.blocks = s.blocks := by
  cases step with
  | skip trivial => exact absurd trivial (text ▸ Bool.false_ne_true)
  | label _ _ found => exact ⟨found,rfl⟩
  | terminator _ plain => exact absurd label (plain ▸ Bool.false_ne_true)
  | instruction _ plain => exact absurd label (plain ▸ Bool.false_ne_true)

lemma secondPass_prologue (names : List (List Char)) (offset : ℕ) (rest : List Line) :
    secondPass conf instructions names (emptyBlocks names) 0 (X86Printer.prologue offset ++ rest) =
      secondPass conf instructions names { emptyBlocks names with started := true } 4 rest := by
  have enter (raw : Line) (h : strip raw ≠ testCaseEnter) :
      decide (strip raw = testCaseEnter) = false := decide_eq_false h
  rw [X86Printer.prologue,List.cons_append,List.cons_append,List.cons_append,List.cons_append,
    List.nil_append,secondPass_header rfl (enter _ (by decide +kernel)),
    secondPass_header rfl (enter _ (lea_ne_testCaseEnter offset)),
    secondPass_header rfl (enter _ (by decide +kernel)),
    secondPass_header rfl (decide_eq_true (by decide +kernel))]

lemma secondPass_opening {offset : ℕ} {rest : List Line} {t : Stream' ℕ}
    {r : SecondPass × Stream' ℕ} (rip : JumpsUseRip instructions)
    (head : names.head? = some mainEntry)
    (ok : secondPass conf instructions names (emptyBlocks names) 0 (opening offset ++ rest) t = .ok r) :
    EntryStrays names r.1 := by
  rw [opening,List.append_assoc,secondPass_prologue] at ok
  obtain ⟨s₁,t₁,step₁,started₁,ok₁⟩ := secondPass_line rfl (by decide +kernel) ok
  obtain ⟨s₂,t₂,step₂,started₂,ok₂⟩ := secondPass_line started₁ (by decide +kernel) ok₁
  obtain ⟨s₃,t₃,step₃,started₃,ok₃⟩ := secondPass_line started₂ (by decide +kernel) ok₂
  have blocks₁ := (step₁.of_label (by decide +kernel) (by decide +kernel)).2
  obtain ⟨found,blocks₂⟩ := step₂.of_label (by decide +kernel) (by decide +kernel)
  rw [show labelName (strip ".bb_main.entry:\n".toList) = mainEntry by decide +kernel] at found
  rw [show strip "JMP .bb_main.0 \n".toList = "JMP .bb_main.0".toList by decide +kernel] at step₃
  exact (entryStrays_jump rip found (blocks₂.trans blocks₁) step₃).run head started₃ ok₃

def MainFirst (functions : List FunctionLabels) : Prop :=
  ∃ nodes rest, functions = ⟨".function_main".toList,nodes⟩ :: rest

lemma MainFirst.addLabel {functions : List FunctionLabels} (h : MainFirst functions)
    (line : List Char) : MainFirst (addLabel functions line) := by
  obtain ⟨nodes,rest,rfl⟩ := h
  unfold X86Generator.addLabel
  dsimp only
  split_ifs
  · exact ⟨nodes,rest,rfl⟩
  · exact ⟨nodes,rest,rfl⟩
  · exact ⟨nodes,rest ++ [_],rfl⟩
  · exact ⟨nodes,rest,rfl⟩
  · cases rest with
    | nil => exact ⟨_,[],rfl⟩
    | cons func rest => exact ⟨nodes,_,rfl⟩

/-- The first function is always the main function. -/
lemma MainFirst.firstPass {p : FirstPass} (h : MainFirst p.functions) (l : List Line) :
    MainFirst (firstPass p l).functions :=
  firstPass_keeps (P := MainFirst) (fun _ line h => h.addLabel line) h l

lemma blockNames_head (file : List Line) :
    (blockNames (firstPass {} file).functions).head? = some mainEntry := by
  have main : MainFirst ({} : FirstPass).functions := ⟨[],[],rfl⟩
  obtain ⟨nodes,rest,h⟩ := main.firstPass file
  rw [h]
  exact congrArg some (show entryOf ".function_main".toList = mainEntry by decide +kernel)

lemma connectFrom_head {n i : ℕ} {blocks connected : List ParsedBlock} {bb : ParsedBlock}
    (h : connectFrom names n i blocks = .ok (bb :: connected)) : ∃ old, blocks[0]? = some old ∧
      old.instructions = bb.instructions ∧ old.terminators = bb.terminators := by
  cases blocks with
  | nil => cases h
  | cons old blocks =>
    obtain ⟨bb',hbb,h⟩ := Except.bind_eq_ok.mp h
    obtain ⟨rest,_,h⟩ := Except.bind_eq_ok.mp h
    cases h
    obtain ⟨taken,_,hbb⟩ := Except.bind_eq_ok.mp hbb
    cases hbb
    exact ⟨old,rfl,rfl,rfl⟩

end Rereading

end X86Generator

section RoundTrip
variable {conf : GeneratorConf} {instructions : List InstructionSpec}
open X86Generator X86PatchUndefinedFlagsPass

/-- The jump of the entry has lost its instruction pointer. -/
lemma not_roundTrips_of_main (rip : JumpsUseRip instructions) {tc : TestCase}
    (h : ∃ func, MainFunction func ∧ tc.functions = [func]) (t u : Stream' ℕ) :
    ¬RoundTrips conf instructions tc t u := by
  rintro ⟨file,parsed,t₁,t₂,printed,ok,agrees⟩
  obtain ⟨offset,rest,hfile⟩ := print_opening h printed
  obtain ⟨_,functions,_,second,hsecond,connected⟩ := parseText_eq_ok.mp ok
  have head : (blockNames parsed.functions).head? = some mainEntry := by
    rw [functions]
    exact blockNames_head file
  rw [show file = _ from hfile] at hsecond
  have strays := secondPass_opening rip head hsecond
  obtain ⟨func,⟨_,entry⟩,hf⟩ := h
  rw [Agrees,TestCase.blocks,hf,List.flatMap_singleton,Function.allBb,entry] at agrees
  obtain ⟨bb,blocks,same,_,hblocks⟩ := List.forall₂_cons_left_iff.mp agrees
  rw [hblocks] at connected
  obtain ⟨old,hold,instructions,terminators⟩ := connectFrom_head connected
  have left : bb.instructions = [] :=
    List.map_eq_nil_iff.mp (List.forall₂_nil_left_iff.mp same.instructions)
  obtain ⟨jump,jumps,sameJump,_,hjump⟩ := List.forall₂_cons_left_iff.mp same.terminators
  obtain ⟨p,hp⟩ : ∃ p, bb.terminators.head? = some p ∧ p.2 = jump := by
    cases hl : bb.terminators with
    | nil =>
      rw [hl] at hjump
      cases hjump
    | cons p l =>
      rw [hl] at hjump
      exact ⟨p,rfl,(List.cons.inj hjump).1⟩
  rw [← terminators] at hp
  rcases (strays old hold).1 with filled | jumps
  · exact filled (instructions.trans left)
  · have uses := jumps p hp.1
    rw [hp.2] at uses
    refine not_usesRip_unconditionalJump (bbName 0) ?_
    exact uses.imp (sameJump.readRegisters _).mp (sameJump.writtenRegisters _).mp

/-- No test case that the generator creates is read again as it has been created. -/
theorem createTestCase_not_roundTrips (rip : JumpsUseRip instructions) {tc : TestCase}
    {t t' : Stream' ℕ} (h : createTestCase conf instructions t = .ok (tc,t')) (u v : Stream' ℕ) :
    ¬RoundTrips conf instructions tc u v :=
  not_roundTrips_of_main rip (createTestCase_main.ok h) u v

section Example

def gprs : List String := ["RAX","RBX","RCX","RDX"]

/-- An operation on a register and an immediate value. -/
def immSpec (name category : String) (width : ℕ) (implicitOperands : List OperandSpec) :
    InstructionSpec :=
  { name, category, operands := [.reg gprs 64 true true,.imm [] width], implicitOperands }

/-- Jumps and what the passes insert. -/
def jumpSet : List InstructionSpec :=
  [immSpec "AND" "BASE-LOGICAL" 32 [.flags (statusFlags .w .w .undef .w .w .w)],
    immSpec "OR" "BASE-LOGICAL" 8 [.flags (statusFlags .w .w .undef .w .w .w)],
    immSpec "ADD" "BASE-BINARY" 32 [.flags (statusFlags .w .w .w .w .w .w)],
    immSpec "SHR" "BASE-SHIFT" 8 [.flags (statusFlags .w .w .undef .w .w .undef)],
    { name := "MOV", category := "BASE-DATAXFER"
      operands := [.reg ["AX","BX"] 16 false true,.imm [] 16], implicitOperands := [] },
    { name := "STC", category := "BASE-FLAGOP", operands := []
      implicitOperands := [.flags (statusFlags .w .none .none .none .none .none)] },
    { name := "JMP", category := "BASE-UNCOND_BR", controlFlow := true
      operands := [.label], implicitOperands := [.reg ["RIP"] 64 true true] }]

lemma jumpSet_rip : JumpsUseRip jumpSet := by
  intro spec hs name
  have jump : spec.implicitOperands = [.reg ["RIP"] 64 true true] := by
    revert spec
    decide +kernel
  exact ⟨64,true,true,jump,rfl⟩

/-- Two instructions, none of which accesses memory. -/
def jumpConf : GeneratorConf := { testCaseSize := 2, avgMemAccesses := 0 }

/-- A test case is created, printed and read again. -/
def reread : Gen ParsedTestCase := do
  let tc ← createTestCase jumpConf jumpSet
  let file ← X86Printer.print jumpConf tc
  parseText jumpConf jumpSet file

lemma reread_ok : ∃ tc file parsed t₁ t₂ t₃, createTestCase jumpConf jumpSet (fun _ => 0) = .ok (tc,t₁) ∧
    X86Printer.print jumpConf tc t₁ = .ok (file,t₂) ∧
    parseText jumpConf jumpSet file t₂ = .ok (parsed,t₃) := by
  have some : (reread fun _ => 0).toOption.isSome := by decide +kernel
  cases ok : reread fun _ => 0 with
  | error e =>
    rw [ok] at some
    cases some
  | ok r =>
    obtain ⟨tc,t₁,created,ok⟩ := bind_eq_ok.mp ok
    obtain ⟨file,t₂,printed,ok⟩ := bind_eq_ok.mp ok
    exact ⟨tc,file,r.1,t₁,t₂,r.2,created,printed,ok⟩

theorem createTestCase_not_roundTrips_jumpSet : ∃ tc t' u v,
    createTestCase jumpConf jumpSet (fun _ => 0) = .ok (tc,t') ∧
      ¬RoundTrips jumpConf jumpSet tc u v := by
  obtain ⟨tc,_,_,t₁,t₂,_,created,_⟩ := reread_ok
  exact ⟨tc,t₁,t₁,t₂,created,createTestCase_not_roundTrips jumpSet_rip created t₁ t₂⟩

/-- The test case can be read again, but it is not the same. -/
theorem not_agrees_reread : ∃ tc file parsed t₁ t₂ t₃,
    createTestCase jumpConf jumpSet (fun _ => 0) = .ok (tc,t₁) ∧
    X86Printer.print jumpConf tc t₁ = .ok (file,t₂) ∧
    parseText jumpConf jumpSet file t₂ = .ok (parsed,t₃) ∧ ¬Agrees tc parsed := by
  obtain ⟨tc,file,parsed,t₁,t₂,t₃,created,printed,read⟩ := reread_ok
  refine ⟨tc,file,parsed,t₁,t₂,t₃,created,printed,read,fun agrees => ?_⟩
  exact not_roundTrips_of_main jumpSet_rip (createTestCase_main.ok created) t₁ t₂
    ⟨file,parsed,t₂,t₃,printed,read,agrees⟩

end Example

end RoundTrip

end ProteanAmulet.Generator
