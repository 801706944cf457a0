import Mathlib.Algebra.Group.Int.Defs
import ProteanAmulet.Generator.Interfaces

/-! Random instructions that follow a specification. Choices are sorted in the source, so that a
seed gives the same test case in every run; which draw stands for which choice is left open
here. -/
namespace ProteanAmulet.Generator

/-- The options of `config.py` that the generator reads, and the attribute that an earlier test case
leaves in the generator. -/
structure GeneratorConf extends Conf where
  minBbPerFunction : ℕ := 2
  maxBbPerFunction : ℕ := 2
  testCaseSize : ℕ := 24
  avgMemAccesses : ℕ := 12
  generateMemoryAccessesInPairs : Bool := false
  hadRecentMemoryAccess : Bool := false
  randomizedMemAlignment : Bool := true
  avoidDataDependencies : Bool := false
  memoryAccessZeroedBits : ℕ := 6
  noGeneration : Bool := false
  gprBlocklist : List String := [
    "R8","R9","R10","R11","R12","R13","R14","R15","RSP","RBP",
    "R8D","R9D","R10D","R11D","R12D","R13D","R14D","R15D","ESP","EBP",
    "R8W","R9W","R10W","R11W","R12W","R13W","R14W","R15W","SP","BP",
    "R8B","R9B","R10B","R11B","R12B","R13B","R14B","R15B","SPL","BPL",
    "ES","CS","SS","DS","FS","GS",
    "CR0","CR2","CR3","CR4","CR8",
    "DR0","DR1","DR2","DR3","DR4","DR5","DR6","DR7","RIP"]
  instructionBlocklist : List String := [
    "STI","CLI","CMPXCHG8B","LOCK CMPXCHG8B","UD","UD2","CPUID","XLAT","XLATB","IDIV","REX IDIV",
    "ENTERW","ENTER","LEAVEW","LEAVE","CMPSB","CMPSD","CMPSW","MOVSB","MOVSD","MOVSW",
    "REPE LODSB","REPE LODSD","REPE LODSW","REPE SCASB","REPE SCASD","REPE SCASW",
    "REPE STOSB","REPE STOSD","REPE STOSW","REPE CMPSB","REPE CMPSD","REPE CMPSW",
    "REPE MOVSB","REPE MOVSD","REPE MOVSW","REPNE LODSB","REPNE LODSD","REPNE LODSW",
    "REPNE SCASB","REPNE SCASD","REPNE SCASW","REPNE STOSB","REPNE STOSD","REPNE STOSW",
    "REPNE CMPSB","REPNE CMPSD","REPNE CMPSW","REPNE MOVSB","REPNE MOVSD","REPNE MOVSW",
    "LFENCE","MFENCE","SFENCE","CLFLUSH","CLFLUSHOPT",
    "BTS","LOCK BTS","BTR","LOCK BTR","BTC","LOCK BTC","BT",
    "LODSD","LODSW","LODSB","STOSD","STOSW","STOSB","LAHF","SAHF"]

namespace X86Registers

/-- The table `registers`. -/
def allRegisters : ℕ → Option (List String)
  | 8 => some ["AL","BL","CL","DL","SIL","DIL","R8B","R9B","R10B","R11B","R12B","R13B",
      "R14B","R15B"]
  | 16 => some ["AX","BX","CX","DX","SI","DI","R8W","R9W","R10W","R11W","R12W","R13W",
      "R14W","R15W"]
  | 32 => some ["EAX","EBX","ECX","EDX","ESI","EDI","R8D","R9D","R10D","R11D","R12D",
      "R13D","R14D","R15D"]
  | 64 => some ["RAX","RBX","RCX","RDX","RSI","RDI","R8","R9","R10","R11","R12","R13",
      "R14","R15","RSP","RBP","RIP"]
  | _ => none

/-- `registers` without the blocked ones; `none` is a `KeyError`. -/
def registers (conf : GeneratorConf) (width : ℕ) : Option (List String) :=
  (allRegisters width).map fun l => l.filter (· ∉ conf.gprBlocklist)

/-- `simd_registers`. -/
def simdRegisters : ℕ → Option (List String)
  | 64 => some ((List.range 8).map fun i => s!"MM{i}")
  | 128 => some ((List.range 32).map fun i => s!"XMM{i}")
  | 256 => some ((List.range 32).map fun i => s!"YMM{i}")
  | 512 => some ((List.range 32).map fun i => s!"ZMM{i}")
  | _ => none

end X86Registers

section Generate
variable (conf : GeneratorConf)

/-- The names that `generate_reg_operand` chooses from. -/
def regChoices (values : List String) (width : ℕ) : Except GeneratorError (List String) :=
  match values with
  | [] => throw .index
  | regType :: _ =>
    if regType = "GPR" then
      match X86Registers.registers conf width with
      | some choices => pure choices
      | none => throw .key
    else if regType = "SIMD" then
      match X86Registers.simdRegisters width with
      | some choices => pure choices
      | none => throw .key
    else pure values

/-- `generate_reg_operand`. The second component is the `latest_reg_operand` of the
instruction. -/
def generateRegOperand (values : List String) (width : ℕ) (src dest : Bool)
    (latest : Option Operand) : Gen (Operand × Option Operand) := do
  let choices ← regChoices conf values width
  let fresh : Gen Operand := do
    return .reg (← Drawing.choice .index choices).toUpper width src dest
  if conf.avoidDataDependencies then
    match latest with
    | some (.reg value w s d) =>
      if value ∈ choices then return (.reg value w s d,latest)
      else
        let op ← fresh
        return (op,some op)
    | _ =>
      let op ← fresh
      return (op,some op)
  else return (← fresh,latest)

/-- `generate_mem_operand`. -/
def generateMemOperand (values : List String) (width : ℕ) (src dest : Bool) : Gen Operand := do
  match values, X86Registers.registers conf 64 with
  | [], some choices => return .mem [(← Drawing.choice .index choices).toUpper] width src dest
  | [], none => throw .key
  | _ :: _, _ => return .mem [(← Drawing.choice .index values).toUpper] width src dest

/-- `generate_imm_operand`. -/
def generateImmOperand (values : List String) (width : ℕ) : Gen Operand := do
  match values, width with
  | value :: _, _ => return .imm value.toLower width
  | [], 0 => throw .value
  | [], w+1 => return .imm (toString (← Drawing.randint .value (-2^w) (2^w-1))).toLower width

/-- `generate_agen_operand`. -/
def generateAgenOperand (width : ℕ) : Gen Operand := do
  let n ← Drawing.randint .value 1 3
  let choices := (X86Registers.registers conf 64).getD []
  let reg1 ← Drawing.choice .index choices
  if n=1 then return .agen [reg1.toUpper] width
  let reg2 ← Drawing.choice .index choices
  if n=2 then return .agen [reg1.toUpper,reg2.toUpper] width
  let imm := toString (← Drawing.randint .value 0 (2^16-1))
  return .agen [reg1.toUpper,reg2.toUpper,imm] width

/-- `generate_operand`: labels are not supported, and conditions have no generator. -/
def generateOperand (latest : Option Operand) : OperandSpec → Gen (Operand × Option Operand)
  | .reg values width src dest => generateRegOperand conf values width src dest latest
  | .mem values width src dest => do return (← generateMemOperand conf values width src dest,latest)
  | .imm values width => do return (← generateImmOperand values width,latest)
  | .label => throw .notSupported
  | .agen width => do return (← generateAgenOperand conf width,latest)
  | .flags values => return (.flags values,latest)
  | .cond => throw .key

def generateOperands : List OperandSpec → Option Operand → Gen (List Operand × Option Operand)
  | [], latest => return ([],latest)
  | spec :: specs, latest => do
    let (op,latest) ← generateOperand conf latest spec
    let (ops,latest) ← generateOperands specs latest
    return (op :: ops,latest)

/-- `generate_instruction`. -/
def generateInstruction (spec : InstructionSpec) : Gen Instruction := do
  let (operands,latest) ← generateOperands conf spec.operands none
  let (implicitOperands,_) ← generateOperands conf spec.implicitOperands latest
  return { Instruction.fromSpec spec with operands,implicitOperands }

end Generate

/-- A register operand that a specification of the list `all` asks for. -/
def RegFrom (conf : GeneratorConf) (all : List OperandSpec) (value : String) (width : ℕ)
    (src dest : Bool) : Prop :=
  ∃ values choices, .reg values width src dest ∈ all ∧ regChoices conf values width = .ok choices ∧
    ∃ v ∈ choices, value = v.toUpper

/-- The operand follows the specification. With `avoid_data_dependencies`, a register operand
may be one that another specification of the instruction has asked for. -/
def OperandFrom (conf : GeneratorConf) (all : List OperandSpec) : OperandSpec → Operand → Prop
  | .reg .., .reg value width src dest => RegFrom conf all value width src dest
  | .mem values width src dest, .mem address width' src' dest' =>
    width'=width ∧ src'=src ∧ dest'=dest ∧ ∃ r, address = [r.toUpper] ∧
      (r ∈ values ∨ values = [] ∧ ∃ l, X86Registers.registers conf 64 = some l ∧ r ∈ l)
  | .imm _ width, .imm _ width' => width'=width
  | .agen width, .agen _ width' => width'=width
  | .flags o, .flags o' => o'=o
  | _, _ => False

/-- The instruction follows the specification. -/
structure FromSpec (conf : GeneratorConf) (spec : InstructionSpec) (inst : Instruction) :
    Prop where
  name_eq : inst.name = spec.name
  category_eq : inst.category = spec.category
  controlFlow_eq : inst.controlFlow = spec.controlFlow
  operands : List.Forall₂ (OperandFrom conf spec.operands) spec.operands inst.operands
  implicitOperands :
    List.Forall₂ (OperandFrom conf spec.allOperands) spec.implicitOperands inst.implicitOperands

section Spec
variable {conf : GeneratorConf} {all : List OperandSpec}

/-- What `latest_reg_operand` holds. -/
def Latest (conf : GeneratorConf) (all : List OperandSpec) (latest : Option Operand) : Prop :=
  ∀ value width src dest, latest = some (.reg value width src dest) →
    RegFrom conf all value width src dest

open Drawing in
lemma generateRegOperand_from {values : List String} {width : ℕ} {src dest : Bool}
    (mem : .reg values width src dest ∈ all) {latest : Option Operand}
    (hl : Latest conf all latest) :
    Ensures (generateRegOperand conf values width src dest latest) fun r =>
      OperandFrom conf all (.reg values width src dest) r.1 ∧ Latest conf all r.2 := by
  unfold generateRegOperand
  refine (Outcome.lift (P := fun c => regChoices conf values width = .ok c) (fun _ h => h)
    fun _ _ => trivial).bind fun choices hc => ?_
  have fresh : Ensures (do
      return .reg (← Drawing.choice .index choices).toUpper width src dest : Gen Operand)
      fun op => ∃ v ∈ choices, op = .reg v.toUpper width src dest :=
    (Outcome.choice trivial choices).bind fun v hv => Outcome.pure ⟨v,hv,rfl⟩
  have asked {v : String} (hv : v ∈ choices) : RegFrom conf all v.toUpper width src dest :=
    ⟨values,choices,mem,hc,v,hv,rfl⟩
  have new {v : String} (hv : v ∈ choices) :
      Latest conf all (some (.reg v.toUpper width src dest)) := by
    intro value w s d h
    cases h
    exact asked hv
  split_ifs with ha
  · split
    · next value w s d =>
      split_ifs with hv
      · exact Outcome.pure ⟨hl value w s d rfl,hl⟩
      · refine fresh.bind ?_
        rintro _ ⟨v,hv,rfl⟩
        exact Outcome.pure ⟨asked hv,new hv⟩
    · refine fresh.bind ?_
      rintro _ ⟨v,hv,rfl⟩
      exact Outcome.pure ⟨asked hv,new hv⟩
  · refine fresh.bind ?_
    rintro _ ⟨v,hv,rfl⟩
    exact Outcome.pure ⟨asked hv,hl⟩

open Drawing in
lemma generateMemOperand_from (values : List String) (width : ℕ) (src dest : Bool) :
    Ensures (generateMemOperand conf values width src dest) fun op =>
      OperandFrom conf all (.mem values width src dest) op := by
  unfold generateMemOperand
  split
  · next choices hc =>
    exact (Outcome.choice trivial choices).bind fun r hr =>
      Outcome.pure ⟨rfl,rfl,rfl,r,rfl,Or.inr ⟨rfl,choices,hc,hr⟩⟩
  · exact Outcome.throw trivial
  · exact (Outcome.choice trivial _).bind fun r hr =>
      Outcome.pure ⟨rfl,rfl,rfl,r,rfl,Or.inl hr⟩

open Drawing in
lemma generateImmOperand_from (values : List String) (width : ℕ) :
    Ensures (generateImmOperand values width) fun op =>
      OperandFrom conf all (.imm values width) op := by
  unfold generateImmOperand
  split
  · exact Outcome.pure rfl
  · exact Outcome.throw trivial
  · exact (Outcome.randint trivial _ _).bind fun _ _ => Outcome.pure rfl

open Drawing in
lemma generateAgenOperand_from (width : ℕ) :
    Ensures (generateAgenOperand conf width) fun op => OperandFrom conf all (.agen width) op := by
  unfold generateAgenOperand
  refine (Outcome.randint trivial _ _).bind fun n _ => ?_
  refine (Outcome.choice trivial _).bind fun reg1 _ => ?_
  split_ifs
  · exact Outcome.pure rfl
  · exact (Outcome.choice trivial _).bind fun reg2 _ => Outcome.pure rfl
  · refine (Outcome.choice trivial _).bind fun reg2 _ => ?_
    exact (Outcome.randint trivial _ _).bind fun _ _ => Outcome.pure rfl

open Drawing in
lemma generateOperand_from {latest : Option Operand} (hl : Latest conf all latest)
    {spec : OperandSpec} (mem : spec ∈ all) :
    Ensures (generateOperand conf latest spec) fun r =>
      OperandFrom conf all spec r.1 ∧ Latest conf all r.2 := by
  cases spec with
  | reg values width src dest => exact generateRegOperand_from mem hl
  | mem values width src dest =>
    exact (generateMemOperand_from values width src dest).bind fun op h => Outcome.pure ⟨h,hl⟩
  | imm values width =>
    exact (generateImmOperand_from values width).bind fun op h => Outcome.pure ⟨h,hl⟩
  | label => exact Outcome.throw trivial
  | agen width => exact (generateAgenOperand_from width).bind fun op h => Outcome.pure ⟨h,hl⟩
  | flags values => exact Outcome.pure ⟨rfl,hl⟩
  | cond => exact Outcome.throw trivial

open Drawing in
lemma generateOperands_from : ∀ {specs : List OperandSpec} {latest : Option Operand},
    specs ⊆ all → Latest conf all latest →
    Ensures (generateOperands conf specs latest) fun r =>
      List.Forall₂ (OperandFrom conf all) specs r.1 ∧ Latest conf all r.2
  | [], _, _, hl => Outcome.pure ⟨.nil,hl⟩
  | spec :: specs, latest, hs, hl => by
    refine (generateOperand_from hl (hs (by simp))).bind fun r hr => ?_
    refine (generateOperands_from (fun o ho => hs (by simp [ho])) hr.2).bind fun rs hrs => ?_
    exact Outcome.pure ⟨.cons hr.1 hrs.1,hrs.2⟩

open Drawing in
/-- Whatever is drawn, the instruction follows its specification. -/
theorem generateInstruction_from (spec : InstructionSpec) :
    Ensures (generateInstruction conf spec) (FromSpec conf spec) := by
  have start : Latest conf spec.operands none := by simp [Latest]
  refine (generateOperands_from (List.Subset.refl _) start).bind fun r hr => ?_
  have next : Latest conf spec.allOperands r.2 := by
    intro value width src dest h
    obtain ⟨values,choices,mem,h⟩ := hr.2 value width src dest h
    exact ⟨values,choices,by simp [InstructionSpec.allOperands,mem],h⟩
  refine (generateOperands_from (by simp [InstructionSpec.allOperands]) next).bind fun r' hr' => ?_
  exact Outcome.pure ⟨rfl,rfl,rfl,hr.1,hr'.1⟩

lemma OperandFrom.flagsOperand {spec : OperandSpec} {op : Operand}
    (h : OperandFrom conf all spec op) : op.flagsOperand = spec.flagsOperand := by
  cases spec <;> cases op <;> simp_all [OperandFrom,Operand.flagsOperand,OperandSpec.flagsOperand]

lemma OperandFrom.isMem {spec : OperandSpec} {op : Operand}
    (h : OperandFrom conf all spec op) : op.isMem = spec.isMem := by
  cases spec <;> cases op <;> simp_all [OperandFrom,Operand.isMem,OperandSpec.isMem]

lemma exists_operandSpec {specs : List OperandSpec} {ops : List Operand}
    (h : List.Forall₂ (OperandFrom conf all) specs ops) {op : Operand} (hop : op ∈ ops) :
    ∃ o ∈ specs, OperandFrom conf all o op := by
  induction h with
  | nil => simp at hop
  | cons hd _ ih =>
    rcases List.mem_cons.mp hop with rfl | hop
    · exact ⟨_,by simp,hd⟩
    · obtain ⟨o,ho,h⟩ := ih hop
      exact ⟨o,by simp [ho],h⟩

lemma findSome?_flags {specs : List OperandSpec} {ops : List Operand}
    (h : List.Forall₂ (OperandFrom conf all) specs ops) :
    ops.findSome? (·.flagsOperand) = specs.findSome? (·.flagsOperand) := by
  induction h with
  | nil => rfl
  | cons hd _ ih => rw [List.findSome?_cons,List.findSome?_cons,hd.flagsOperand,ih]

namespace FromSpec
variable {spec : InstructionSpec} {inst : Instruction}

/-- The flags of an instruction are those of its specification. -/
lemma getFlagsOperand (h : FromSpec conf spec inst) :
    inst.getFlagsOperand = spec.flagsOperand := by
  rw [Instruction.getFlagsOperand,InstructionSpec.flagsOperand,List.findSome?_append,
    List.findSome?_append,findSome?_flags h.implicitOperands,findSome?_flags h.operands]

end FromSpec

end Spec

end ProteanAmulet.Generator
