import Mathlib.Data.List.ProdSigma
import Mathlib.Algebra.Order.Group.Nat
import ProteanAmulet.Generator.Passes
import ProteanAmulet.Library.Text
import ProteanAmulet.Model.Tracer

/-! The coverage of pairs of instructions that depend on each other: which dependencies are found
between two traced instructions, and how many pairs of each type there can be. -/
namespace ProteanAmulet.DependentPairCoverage
open Generator (InstructionSpec OperandSpec GeneratorError contains)

/-- `DT`. -/
inductive DT where
  | regGpr | regFlags | memLL | memLS | memSL | memSS | controlDirect | controlCond
  deriving DecidableEq, Repr

inductive AccessKind where
  | load | store
  deriving DecidableEq, Repr

/-- The type with a letter for the first and one for the second instruction. -/
def DT.mem : AccessKind → AccessKind → DT
  | .load, .load => .memLL
  | .load, .store => .memLS
  | .store, .load => .memSL
  | .store, .store => .memSS

/-- The addresses of the accesses of one kind. -/
def addresses (kind : AccessKind) (t : TracedInstruction) : List ℤ :=
  (t.accesses.filter fun a => a.isStore == (kind == .store)).map (·.address)

/-- `_search_memory_dependency`. -/
def searchMemoryDependency (instr1 instr2 : TracedInstruction) : List DT :=
  let readAddresses1 := addresses .load instr1
  let writeAddresses1 := addresses .store instr1
  -- the branches of the second loop are the other way round
  let readAddresses2 := addresses .store instr2
  let writeAddresses2 := addresses .load instr2
  (if readAddresses1.any (· ∈ readAddresses2) then [.memLL] else []) ++
  (if readAddresses1.any (· ∈ writeAddresses2) then [.memLS] else []) ++
  (if writeAddresses1.any (· ∈ readAddresses2) then [.memSL] else []) ++
  if writeAddresses1.any (· ∈ writeAddresses2) then [.memSS] else []

section MaxCoverage

def hasRegSrc (spec : InstructionSpec) : Bool := spec.allOperands.any fun
  | .reg _ _ src _ => src
  | _ => false

def hasRegDest (spec : InstructionSpec) : Bool := spec.allOperands.any fun
  | .reg _ _ _ dest => dest
  | _ => false

def hasMemSrc (spec : InstructionSpec) : Bool := spec.allOperands.any fun
  | .mem _ _ src _ => src
  | _ => false

/-- `flag_ops[0]`. -/
def firstFlags (spec : InstructionSpec) : List FlagMode :=
  ((spec.allOperands.findSome? (·.flagsOperand)).map (·.flagValues)).getD []

/-- `'r' in v`. -/
def isRead (mode : FlagMode) : Bool := mode ∈ [.r,.rw,.rcw]

/-- `'w' in v`. -/
def isWritten (mode : FlagMode) : Bool := mode ∈ [.w,.rw,.rcw,.cw]

def isDirect (spec : InstructionSpec) : Bool :=
  spec.controlFlow && spec.category = "BASE-UNCOND_BR"

def isConditional (spec : InstructionSpec) : Bool :=
  spec.controlFlow && spec.category ≠ "BASE-UNCOND_BR"

/-- `_calculate_max_coverage`. -/
def calculateMaxCoverage (instructions : List InstructionSpec) : DT → ℕ :=
  let all := instructions.length
  let regSrc := instructions.countP hasRegSrc
  let regDest := instructions.countP hasRegDest
  let flagsSrc := instructions.countP fun spec => (firstFlags spec).any isRead
  let flagsDest := instructions.countP fun spec => (firstFlags spec).any isWritten
  let memSrc := instructions.countP hasMemSrc
  let memDest := instructions.countP (·.hasWrite)
  let controlDirect := 1+instructions.countP isDirect
  let controlCond := instructions.countP isConditional
  fun
  | .regGpr => regSrc*(regDest+memSrc+memDest)
  | .regFlags => flagsSrc*flagsDest
  | .memLL => memSrc*memSrc
  | .memLS => memSrc*memDest
  | .memSL => memDest*memSrc
  | .memSS => memDest*memDest
  | .controlDirect => controlDirect*all
  | .controlCond => controlCond*all

/-- The instruction has an operand for accesses of the kind. -/
def accesses : AccessKind → InstructionSpec → Bool
  | .load => hasMemSrc
  | .store => (·.hasWrite)

lemma countP_product (p q : InstructionSpec → Bool) (l l' : List InstructionSpec) :
    (l ×ˢ l').countP (fun pair => p pair.1 && q pair.2) = l.countP p*l'.countP q := by
  induction l with
  | nil => simp
  | cons spec l ih =>
    rw [List.product_cons,List.countP_append,ih,List.countP_map,List.countP_cons,Nat.add_mul]
    by_cases hp : p spec <;> simp [hp,Function.comp_def,Nat.add_comm]

/-- The first factor counts the first instructions of the pairs, and the second one the second. -/
lemma maxCoverage_pairs (instructions : List InstructionSpec) (k₁ k₂ : AccessKind) :
    calculateMaxCoverage instructions (.mem k₁ k₂) =
      (instructions ×ˢ instructions).countP fun pair => accesses k₁ pair.1 && accesses k₂ pair.2 := by
  rw [countP_product]
  cases k₁ <;> cases k₂ <;> rfl

end MaxCoverage

section Memory
variable {instr1 instr2 : TracedInstruction}

/-- Both instructions access a common address, each in its own way. -/
def Shares (k₁ k₂ : AccessKind) (instr1 instr2 : TracedInstruction) : Prop :=
  ∃ a ∈ addresses k₁ instr1, a ∈ addresses k₂ instr2

/-- Each type is reported exactly when the accesses are those of its letters. -/
def MemoryExact (instr1 instr2 : TracedInstruction) : Prop :=
  ∀ t, t ∈ searchMemoryDependency instr1 instr2 ↔
    ∃ k₁ k₂, t = .mem k₁ k₂ ∧ Shares k₁ k₂ instr1 instr2

/-- A type has one pair of letters only. -/
lemma exists_mem_iff {p : AccessKind → AccessKind → Prop} {k₁ k₂ : AccessKind} :
    (∃ l₁ l₂, DT.mem k₁ k₂ = .mem l₁ l₂ ∧ p l₁ l₂) ↔ p k₁ k₂ := by
  constructor
  · rintro ⟨l₁,l₂,h,hp⟩
    cases k₁ <;> cases k₂ <;> cases l₁ <;> cases l₂ <;> first | exact hp | cases h
  · intro h
    exact ⟨k₁,k₂,rfl,h⟩

/-- The kind that the second loop takes an access for. -/
def AccessKind.other : AccessKind → AccessKind
  | .load => .store
  | .store => .load

/-- What is reported: the letter of the second instruction is the wrong one. -/
lemma mem_searchMemoryDependency {t : DT} : t ∈ searchMemoryDependency instr1 instr2 ↔
    ∃ k₁ k₂, t = .mem k₁ k₂ ∧ Shares k₁ k₂.other instr1 instr2 := by
  have kinds {p : AccessKind → Prop} : (∃ k, p k) ↔ p .load ∨ p .store :=
    ⟨fun ⟨k,h⟩ => by cases k <;> simp [h],fun h => h.elim (⟨_,·⟩) (⟨_,·⟩)⟩
  have found (k₁ k₂ : AccessKind) :
      ((addresses k₁ instr1).any (· ∈ addresses k₂ instr2)) = true ↔ Shares k₁ k₂ instr1 instr2 := by
    simp [Shares]
  simp only [searchMemoryDependency,found,List.mem_append,List.mem_ite_nil_right,List.mem_singleton,
    kinds,DT.mem,AccessKind.other]
  tauto

/-- The classification is right exactly when the second instruction loads one of the addresses that
the first one loads (or stores) if and only if it stores one of them. -/
theorem searchMemoryDependency_exact_iff (instr1 instr2 : TracedInstruction) :
    (∀ instructions k₁ k₂, calculateMaxCoverage instructions (.mem k₁ k₂) =
      (instructions ×ˢ instructions).countP fun pair => accesses k₁ pair.1 && accesses k₂ pair.2) ∧
    (MemoryExact instr1 instr2 ↔
      ∀ k, Shares k .load instr1 instr2 ↔ Shares k .store instr1 instr2) := by
  refine ⟨maxCoverage_pairs,?_⟩
  unfold MemoryExact
  simp only [mem_searchMemoryDependency]
  constructor
  · intro exact k
    -- the type whose second letter is a load shows both directions
    have reported := exact (.mem k .load)
    rw [exists_mem_iff,exists_mem_iff] at reported
    exact reported.symm
  · intro same t
    have other (k₁ k₂ : AccessKind) :
        Shares k₁ k₂.other instr1 instr2 ↔ Shares k₁ k₂ instr1 instr2 := by
      cases k₂ with
      | load => exact (same k₁).symm
      | store => exact same k₁
    simp only [other]

/-- Two loads of one address are reported as a load and a store. -/
theorem searchMemoryDependency_not_exact :
    searchMemoryDependency ⟨0,[⟨0x40,7,false⟩]⟩ ⟨4,[⟨0x40,7,false⟩]⟩ = [.memLS] ∧
      ¬MemoryExact ⟨0,[⟨0x40,7,false⟩]⟩ ⟨4,[⟨0x40,7,false⟩]⟩ := by
  have reported : searchMemoryDependency ⟨0,[⟨0x40,7,false⟩]⟩ ⟨4,[⟨0x40,7,false⟩]⟩ = [.memLS] := by
    decide
  refine ⟨reported,fun exact => ?_⟩
  have loads := (exact .memLL).mpr ⟨.load,.load,rfl,0x40,by decide,by decide⟩
  rw [reported] at loads
  cases loads with
  | tail _ h => cases h

end Memory

section Registers

/-- `X86Registers.gpr_normalized`, on the texts of the operands. -/
def normalizedTable : List (String × String) := [
  ("RAX","A"),("EAX","A"),("AX","A"),("AL","A"),("AH","A"),
  ("RBX","B"),("EBX","B"),("BX","B"),("BL","B"),("BH","B"),
  ("RCX","C"),("ECX","C"),("CX","C"),("CL","C"),("CH","C"),
  ("RDX","D"),("EDX","D"),("DX","D"),("DL","D"),("DH","D"),
  ("RSI","SI"),("ESI","SI"),("SI","SI"),("SIL","SI"),
  ("RDI","DI"),("EDI","DI"),("DI","DI"),("DIL","DI"),
  ("R8","8"),("R8D","8"),("R8W","8"),("R8B","8"),
  ("R9","9"),("R9D","9"),("R9W","9"),("R9B","9"),
  ("R10","10"),("R10D","10"),("R10W","10"),("R10B","10"),
  ("R11","11"),("R11D","11"),("R11W","11"),("R11B","11"),
  ("R12","12"),("R12D","12"),("R12W","12"),("R12B","12"),
  ("R13","13"),("R13D","13"),("R13W","13"),("R13B","13"),
  ("R14","14"),("R14D","14"),("R14W","14"),("R14B","14"),
  ("R15","15"),("R15D","15"),("R15W","15"),("R15B","15"),
  ("FLAGS","FLAGS"),("RIP","RIP"),("RSP","RSP")]

def gprNormalized (name : String) : Option String := normalizedTable.lookup name

/-- `[X86Registers.gpr_normalized[r] for r in names]`. -/
def normalizeAll : List String → Except GeneratorError (List String)
  | [] => return []
  | name :: names =>
    match gprNormalized name with
    | some label => return label :: (← normalizeAll names)
    | none => throw .key

variable (inst inst1 inst2 : Generator.Instruction)

/-- The text of a register operand. -/
def register : Generator.Operand → Option String
  | .reg value .. => some value
  | _ => none

/-- The registers of `get_dest_operands(True)`. -/
def destRegs : List String := (inst.allOperands.filter (·.dest)).filterMap register

/-- The registers of `get_src_operands(True)`. -/
def srcRegs : List String := (inst.allOperands.filter (·.src)).filterMap register

/-- `_search_reg_dependency`. -/
def searchRegDependency : Except GeneratorError (Option DT) := do
  let destRegs ← normalizeAll (destRegs inst1)
  let srcRegs ← normalizeAll (srcRegs inst2)
  if destRegs.any (· ∈ srcRegs) then return some .regGpr
  let memOperands := inst2.getMemOperands.map (·.value)
  if destRegs.any fun r => memOperands.any (contains r) then return some .regGpr
  return none

/-- The characters that `start_instruction` of the taint tracker cuts an address at. -/
def isOperator (c : Char) : Bool := c ∈ ['+','-','*',' ']

/-- The pieces of the addresses of the memory operands, explicit and implicit. -/
def addressTerms : List String := inst.getMemOperands.flatMap fun m =>
  (m.value.toList.splitOnP isOperator).map String.ofList

/-- The second instruction reads a register that is an alias of a destination of the first one. -/
def Depends : Prop := ∃ d ∈ destRegs inst1, ∃ s ∈ srcRegs inst2 ++ addressTerms inst2,
  ∃ label, gprNormalized d = some label ∧ gprNormalized s = some label

/-- A dependency is reported exactly when there is one. -/
def RegExact : Prop :=
  ∃ r, searchRegDependency inst1 inst2 = .ok r ∧ (r = some .regGpr ↔ Depends inst1 inst2)

/-- All registers that are looked up have a normalised name. -/
def Known : Prop := ∀ r ∈ destRegs inst1 ++ srcRegs inst2, (gprNormalized r).isSome

/-- The normalised name of a destination occurs somewhere in the text of an address. -/
def Occurs : Prop := ∃ d ∈ destRegs inst1, ∃ label, gprNormalized d = some label ∧
  ∃ m ∈ inst2.getMemOperands, contains label m.value

end Registers

section RegisterDependency
variable {inst1 inst2 : Generator.Instruction}

lemma normalizeAll_of_known {names : List String} (h : ∀ r ∈ names, (gprNormalized r).isSome) :
    normalizeAll names = .ok (names.filterMap gprNormalized) := by
  induction names with
  | nil => rfl
  | cons name names ih =>
    obtain ⟨hd,tl⟩ := List.forall_mem_cons.mp h
    obtain ⟨label,hlabel⟩ := Option.isSome_iff_exists.mp hd
    rw [normalizeAll,hlabel,ih tl,List.filterMap_cons_some hlabel]
    rfl

lemma known_of_normalizeAll {names labels : List String} (h : normalizeAll names = .ok labels) :
    ∀ r ∈ names, (gprNormalized r).isSome := by
  induction names generalizing labels with
  | nil => simp
  | cons name names ih =>
    rw [normalizeAll] at h
    split at h
    next label hlabel =>
      obtain ⟨rest,hrest,-⟩ := Except.bind_eq_ok.mp h
      exact List.forall_mem_cons.mpr ⟨by simp [hlabel],ih hrest⟩
    next => cases h

/-- Every name of a register contains its normalised form. -/
lemma contains_normalized {name label : String} (h : gprNormalized name = some label) :
    label.toList <:+: name.toList := by
  have table : ∀ p ∈ normalizedTable, p.2.toList <:+: p.1.toList := by decide +kernel
  obtain ⟨before,after,split,-⟩ := List.lookup_eq_some_iff.mp h
  exact table (name,label) (by rw [split]; simp)

/-- A register inside of an address is found in its text. -/
lemma occurs_of_addressTerm {d t label : String} (hd : d ∈ destRegs inst1)
    (hlabel : gprNormalized d = some label) (ht : t ∈ addressTerms inst2)
    (htl : gprNormalized t = some label) : Occurs inst1 inst2 := by
  obtain ⟨m,hm,ht⟩ := List.mem_flatMap.mp ht
  obtain ⟨piece,hpiece,rfl⟩ := List.mem_map.mp ht
  refine ⟨d,hd,label,hlabel,m,hm,?_⟩
  rw [contains,decide_eq_true_iff]
  have inside := contains_normalized htl
  rw [String.toList_ofList] at inside
  exact inside.trans ((Text.infix_of_mem_splitOnP isOperator m.value.toList).1 piece hpiece)

/-- The test on the normalised source registers. -/
def SourceMatch (inst1 inst2 : Generator.Instruction) : Prop := ∃ d ∈ destRegs inst1,
  ∃ s ∈ srcRegs inst2, ∃ label, gprNormalized d = some label ∧ gprNormalized s = some label

/-- What is reported if no lookup fails. -/
lemma searchRegDependency_of_known (h : Known inst1 inst2) :
    ∃ r, searchRegDependency inst1 inst2 = .ok r ∧
      (r = some .regGpr ↔ SourceMatch inst1 inst2 ∨ Occurs inst1 inst2) := by
  have hd := normalizeAll_of_known fun r hr => h r (List.mem_append_left _ hr)
  have hs := normalizeAll_of_known fun r hr => h r (List.mem_append_right _ hr)
  have source : (((destRegs inst1).filterMap gprNormalized).any
      (· ∈ (srcRegs inst2).filterMap gprNormalized)) = true ↔ SourceMatch inst1 inst2 := by
    simp only [List.any_eq_true,List.mem_filterMap,decide_eq_true_iff,SourceMatch]
    constructor
    · rintro ⟨label,⟨d,hd,hl⟩,s,hs,hl'⟩
      exact ⟨d,hd,s,hs,label,hl,hl'⟩
    · rintro ⟨d,hd,s,hs,label,hl,hl'⟩
      exact ⟨label,⟨d,hd,hl⟩,s,hs,hl'⟩
  have address : (((destRegs inst1).filterMap gprNormalized).any fun r =>
      (inst2.getMemOperands.map (·.value)).any (contains r)) = true ↔ Occurs inst1 inst2 := by
    simp only [List.any_eq_true,List.mem_filterMap,List.mem_map,exists_exists_and_eq_and,Occurs]
    constructor
    · rintro ⟨label,⟨d,hd,hl⟩,m,hm,hc⟩
      exact ⟨d,hd,label,hl,m,hm,hc⟩
    · rintro ⟨d,hd,label,hl,m,hm,hc⟩
      exact ⟨label,⟨d,hd,hl⟩,m,hm,hc⟩
  unfold searchRegDependency
  rw [hd,hs]
  simp only [bind,Except.bind,pure,Except.pure]
  split_ifs with hsource haddress
  · exact ⟨_,rfl,by simp [source.mp hsource]⟩
  · exact ⟨_,rfl,by simp [address.mp haddress]⟩
  · rw [source] at hsource
    rw [address] at haddress
    exact ⟨_,rfl,by simp [hsource,haddress]⟩

lemma known_of_ok {r : Option DT} (h : searchRegDependency inst1 inst2 = .ok r) :
    Known inst1 inst2 := by
  obtain ⟨dest,hd,h⟩ := Except.bind_eq_ok.mp h
  obtain ⟨src,hs,-⟩ := Except.bind_eq_ok.mp h
  intro r hr
  rcases List.mem_append.mp hr with hr | hr
  · exact known_of_normalizeAll hd r hr
  · exact known_of_normalizeAll hs r hr

lemma depends_iff : Depends inst1 inst2 ↔ SourceMatch inst1 inst2 ∨
    ∃ d ∈ destRegs inst1, ∃ t ∈ addressTerms inst2,
      ∃ label, gprNormalized d = some label ∧ gprNormalized t = some label := by
  simp only [Depends,SourceMatch,List.mem_append,or_and_right,exists_or,and_or_left]

/-- The search is exact if and only if no lookup fails, and no normalised name of a destination is
found in the text of an address without a register that is really read. -/
theorem searchRegDependency_exact_iff (inst1 inst2 : Generator.Instruction) :
    RegExact inst1 inst2 ↔
      Known inst1 inst2 ∧ (Occurs inst1 inst2 → Depends inst1 inst2) := by
  constructor
  · rintro ⟨r,hr,hiff⟩
    have known := known_of_ok hr
    obtain ⟨r',hr',reported⟩ := searchRegDependency_of_known known
    obtain rfl : r = r' := Except.ok.inj (hr.symm.trans hr')
    exact ⟨known,fun occurs => hiff.mp (reported.mpr (.inr occurs))⟩
  · rintro ⟨known,read⟩
    obtain ⟨r,hr,reported⟩ := searchRegDependency_of_known known
    refine ⟨r,hr,reported.trans ⟨?_,?_⟩⟩
    · rintro (source | occurs)
      · exact depends_iff.mpr (.inl source)
      · exact read occurs
    · intro depends
      rcases depends_iff.mp depends with source | ⟨d,hd,t,ht,label,hl,hl'⟩
      · exact .inl source
      · exact .inr (occurs_of_addressTerm hd hl ht hl')

/-- `MOV RDX, 1`. -/
def movRdx : Generator.Instruction :=
  { name := "MOV", operands := [.reg "RDX" 64 false true,.imm "1" 32] }

/-- `MOV RAX, qword ptr [RDI]`. -/
def loadRdi : Generator.Instruction :=
  { name := "MOV", operands := [.reg "RAX" 64 false true,.mem ["RDI"] 64 true false] }

/-- The letter of RDX is found in the name of RDI. -/
theorem searchRegDependency_not_exact :
    searchRegDependency movRdx loadRdi = .ok (some .regGpr) ∧ ¬RegExact movRdx loadRdi := by
  have found : searchRegDependency movRdx loadRdi = .ok (some .regGpr) := by decide +kernel
  refine ⟨found,?_⟩
  rintro ⟨r,hr,hiff⟩
  obtain rfl := Except.ok.inj (found.symm.trans hr)
  obtain ⟨d,hd,s,hs,label,hl,hl'⟩ := hiff.mp rfl
  have apart : ∀ d ∈ destRegs movRdx, ∀ s ∈ srcRegs loadRdi ++ addressTerms loadRdi,
      gprNormalized d ≠ gprNormalized s := by decide +kernel
  exact apart d hd s hs (hl.trans hl'.symm)

end RegisterDependency

end ProteanAmulet.DependentPairCoverage
