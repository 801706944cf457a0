import ProteanAmulet.Generator.Parser

/-! What the parser makes of a line depends neither on the number of the line nor on random choices,
except for the values of implicit operands. -/
namespace ProteanAmulet.Generator.X86Generator
open Drawing Text

section Lines
variable {conf : GeneratorConf} {instructions : List InstructionSpec} {li : ℕ} (li' : ℕ)

lemma matchOperand_line {op : OperandSpec} {raw : List Char} {m : OperandMatch}
    (h : matchOperand conf li op raw = .ok m) : matchOperand conf li' op raw = .ok m := by
  unfold matchOperand at h ⊢
  split_ifs at h ⊢ with h₁ h₂ h₃ h₄
  · exact h
  · exact h
  · cases op <;> first | exact h | skip
    all_goals
      dsimp only at h ⊢
      cases hs : memorySizes ((words raw).headD []) with
      | none =>
        rw [hs] at h
        cases h
      | some size =>
        rw [hs] at h
        exact h
  · exact h
  · exact h

lemma matchOperands_line {l : List (OperandSpec × List Char)} {b : Bool}
    (h : matchOperands conf li l = .ok b) : matchOperands conf li' l = .ok b := by
  induction l generalizing b with
  | nil => exact h
  | cons p l ih =>
    obtain ⟨m,hm,h⟩ := Except.bind_eq_ok.mp h
    refine Except.bind_eq_ok.mpr ⟨m,matchOperand_line li' hm,?_⟩
    cases m with
    | yes => exact ih h
    | dropped => exact h
    | mismatch =>
      obtain ⟨c,hc,h⟩ := Except.bind_eq_ok.mp h
      exact Except.bind_eq_ok.mpr ⟨c,ih hc,h⟩

lemma matchingSpecs_line {raw : List (List Char)} {specs matching : List InstructionSpec}
    (h : matchingSpecs conf li raw specs = .ok matching) :
    matchingSpecs conf li' raw specs = .ok matching := by
  induction specs generalizing matching with
  | nil => exact h
  | cons spec specs ih =>
    obtain ⟨here,hh,h⟩ := Except.bind_eq_ok.mp h
    obtain ⟨rest,hr,h⟩ := Except.bind_eq_ok.mp h
    refine Except.bind_eq_ok.mpr ⟨here,?_,Except.bind_eq_ok.mpr ⟨rest,ih hr,h⟩⟩
    unfold matchSpec at hh ⊢
    split_ifs at hh ⊢
    · exact hh
    · exact matchOperands_line li' hh

lemma findSpec_line {line : List Char} {r : InstructionSpec × List (List Char)}
    (h : findSpec conf instructions line li = .ok r) :
    findSpec conf instructions line li' = .ok r := by
  unfold findSpec at h ⊢
  dsimp only at h ⊢
  split_ifs at h ⊢ with unknown
  · cases h
  · obtain ⟨matching,hm,h⟩ := Except.bind_eq_ok.mp h
    refine Except.bind_eq_ok.mpr ⟨matching,matchingSpecs_line li' hm,?_⟩
    generalize (if 1 < matching.length ∧ matching.filter (·.hasMagicValue) ≠ [] then
      matching.filter (·.hasMagicValue) else matching) = found at h ⊢
    cases found with
    | nil => cases h
    | cons spec rest => exact h

lemma parseOperand_line {cf : Bool} {op : OperandSpec} {raw : List Char} {o : Operand}
    (h : parseOperand li cf op raw = .ok o) : parseOperand li' cf op raw = .ok o := by
  unfold parseOperand at h ⊢
  cases op with
  | mem values width src dest =>
    dsimp only at h ⊢
    cases hb : bracketed raw with
    | none =>
      rw [hb] at h
      cases h
    | some address =>
      rw [hb] at h
      exact h
  | _ => exact h

lemma parseOperands_line {cf : Bool} {l : List (OperandSpec × List Char)} {ops : List Operand}
    (h : parseOperands li cf l = .ok ops) : parseOperands li' cf l = .ok ops := by
  induction l generalizing ops with
  | nil => exact h
  | cons p l ih =>
    obtain ⟨o,ho,h⟩ := Except.bind_eq_ok.mp h
    obtain ⟨os,hos,h⟩ := Except.bind_eq_ok.mp h
    exact Except.bind_eq_ok.mpr ⟨o,parseOperand_line li' ho,Except.bind_eq_ok.mpr ⟨os,ih hos,h⟩⟩

end Lines

section Implicit
variable {conf : GeneratorConf}

/-- Whether a register operand can be generated does not depend on what has been drawn. -/
lemma generateRegOperand_always {values : List String} {width : ℕ} {src dest : Bool}
    {latest : Option Operand} {t : Stream' ℕ} {r : (Operand × Option Operand) × Stream' ℕ}
    (h : generateRegOperand conf values width src dest latest t = .ok r)
    (latest' : Option Operand) :
    Always (generateRegOperand conf values width src dest latest') fun _ => True := by
  obtain ⟨choices,t',hc,h⟩ := bind_eq_ok.mp h
  obtain ⟨hc,-⟩ := lift_eq_ok.mp hc
  have drawn {k : Operand → Gen (Operand × Option Operand)}
      (h : ((do return Operand.reg (← Drawing.choice .index choices).toUpper width src dest : Gen Operand)
        >>= k) t' = .ok r) : choices ≠ [] := by
    obtain ⟨op,t'',hop,-⟩ := bind_eq_ok.mp h
    obtain ⟨v,t₃,hv,-⟩ := bind_eq_ok.mp hop
    exact choice_eq_ok hv
  have some : choices ≠ [] := by
    split_ifs at h with avoid
    · split at h
      · split_ifs at h with mem
        · exact List.ne_nil_of_mem mem
        · exact drawn h
      · exact drawn h
    · exact drawn h
  have fresh : Always (do
      return Operand.reg (← Drawing.choice .index choices).toUpper width src dest : Gen Operand)
      fun _ => True :=
    (Outcome.choice_of_ne_nil some).bind fun v _ => .pure trivial
  refine Outcome.bind (P := fun c => c=choices) (.lift (fun c h => ?_) fun e h => ?_) ?_
  · rw [hc] at h
    exact (Except.ok.inj h).symm
  · rw [hc] at h
    cases h
  · rintro _ rfl
    split_ifs
    · split
      · split_ifs
        · exact .pure trivial
        · exact fresh.bind fun _ _ => .pure trivial
      · exact fresh.bind fun _ _ => .pure trivial
    · exact fresh.bind fun _ _ => .pure trivial

lemma generateMemOperand_always {values : List String} {width : ℕ} {src dest : Bool}
    {t : Stream' ℕ} {r : Operand × Stream' ℕ}
    (h : generateMemOperand conf values width src dest t = .ok r) :
    Always (generateMemOperand conf values width src dest) fun _ => True := by
  have drawn {l : List String} (h : (do
      return .mem [(← Drawing.choice .index l).toUpper] width src dest : Gen Operand) t = .ok r) :
      Always (do return .mem [(← Drawing.choice .index l).toUpper] width src dest : Gen Operand)
        fun _ => True := by
    obtain ⟨v,t',hv,-⟩ := bind_eq_ok.mp h
    exact (Outcome.choice_of_ne_nil (choice_eq_ok hv)).bind fun _ _ => .pure trivial
  cases values with
  | nil => exact drawn h
  | cons v values => exact drawn h

lemma generateImmOperand_always {values : List String} {width : ℕ} {t : Stream' ℕ}
    {r : Operand × Stream' ℕ} (h : generateImmOperand values width t = .ok r) :
    Always (generateImmOperand values width) fun _ => True := by
  unfold generateImmOperand at h ⊢
  split at h
  · exact .pure trivial
  · cases h
  · obtain ⟨v,t',hv,-⟩ := bind_eq_ok.mp h
    exact (Outcome.randint_of_le (randint_eq_ok hv)).bind fun _ _ => .pure trivial

lemma generateAgenOperand_always {width : ℕ} {t : Stream' ℕ} {r : Operand × Stream' ℕ}
    (h : generateAgenOperand conf width t = .ok r) :
    Always (generateAgenOperand conf width) fun _ => True := by
  obtain ⟨n,t',hn,h⟩ := bind_eq_ok.mp h
  obtain ⟨v,t'',hv,-⟩ := bind_eq_ok.mp h
  have some := choice_eq_ok hv
  refine (Outcome.randint_of_le (by decide)).bind fun n _ => ?_
  refine (Outcome.choice_of_ne_nil some).bind fun _ _ => ?_
  by_cases one : n=1
  · rw [if_pos one]
    exact .pure trivial
  rw [if_neg one]
  refine (Outcome.choice_of_ne_nil some).bind fun _ _ => ?_
  by_cases two : n=2
  · rw [if_pos two]
    exact .pure trivial
  rw [if_neg two]
  exact (Outcome.randint_of_le (by decide)).bind fun _ _ => .pure trivial

lemma generateOperand_always {spec : OperandSpec} {latest : Option Operand} {t : Stream' ℕ}
    {r : (Operand × Option Operand) × Stream' ℕ} (h : generateOperand conf latest spec t = .ok r)
    (latest' : Option Operand) : Always (generateOperand conf latest' spec) fun _ => True := by
  cases spec with
  | reg values width src dest => exact generateRegOperand_always h latest'
  | mem values width src dest =>
    obtain ⟨o,t',ho,-⟩ := bind_eq_ok.mp h
    exact (generateMemOperand_always ho).bind fun _ _ => .pure trivial
  | imm values width =>
    obtain ⟨o,t',ho,-⟩ := bind_eq_ok.mp h
    exact (generateImmOperand_always ho).bind fun _ _ => .pure trivial
  | label => cases h
  | agen width =>
    obtain ⟨o,t',ho,-⟩ := bind_eq_ok.mp h
    exact (generateAgenOperand_always ho).bind fun _ _ => .pure trivial
  | flags values => exact .pure trivial
  | cond => cases h

lemma generateOperands_always {specs : List OperandSpec} {latest : Option Operand} {t : Stream' ℕ}
    {r : (List Operand × Option Operand) × Stream' ℕ}
    (h : generateOperands conf specs latest t = .ok r) (latest' : Option Operand) :
    Always (generateOperands conf specs latest') fun _ => True := by
  induction specs generalizing latest latest' t r with
  | nil => exact .pure trivial
  | cons spec specs ih =>
    obtain ⟨o,t',ho,h⟩ := bind_eq_ok.mp h
    obtain ⟨os,t'',hos,-⟩ := bind_eq_ok.mp h
    refine (generateOperand_always ho latest').bind fun p _ => ?_
    exact (ih hos p.2).bind fun _ _ => .pure trivial

end Implicit

/-- The same instruction up to the values of its implicit operands. -/
structure SameText (inst inst' : Instruction) : Prop where
  name : inst'.name = inst.name
  operands : inst'.operands = inst.operands
  category : inst'.category = inst.category
  controlFlow : inst'.controlFlow = inst.controlFlow

lemma SameText.isTerminator {inst inst' : Instruction} (h : SameText inst inst') :
    isTerminator inst' = isTerminator inst := by
  rw [X86Generator.isTerminator,X86Generator.isTerminator,h.controlFlow,h.category]

section Instructions
variable {conf : GeneratorConf} {instructions : List InstructionSpec} {line : List Char} {li : ℕ}

/-- What is parsed from a line follows the specification that its text selects. -/
lemma parseInstruction_spec (hp : isProtectPrefix line = false) {t : Stream' ℕ}
    {r : Instruction × Stream' ℕ} (h : parseInstruction conf instructions line li t = .ok r) :
    ∃ spec raw operands implicitOperands, findSpec conf instructions line li = .ok (spec,raw) ∧
      parseOperands li spec.controlFlow (spec.operands.zip raw) = .ok operands ∧
      (∃ latest t', generateOperands conf spec.implicitOperands none t =
        .ok ((implicitOperands,latest),t')) ∧
      r.1 = { Instruction.fromSpec spec ("# instrumentation".toList.isSuffixOf line) with
        operands,implicitOperands } := by
  unfold parseInstruction at h
  rw [hp,if_neg Bool.false_ne_true] at h
  obtain ⟨⟨spec,raw⟩,t₁,hs,h₁⟩ := bind_eq_ok.mp h
  obtain ⟨hs,ht₁⟩ := lift_eq_ok.mp hs
  obtain ⟨operands,t₂,ho,h₂⟩ := bind_eq_ok.mp h₁
  obtain ⟨ho,ht₂⟩ := lift_eq_ok.mp ho
  obtain ⟨⟨implicitOperands,latest⟩,t₃,hi,h₃⟩ := bind_eq_ok.mp h₂
  rw [show t₂ = t from ht₂.trans ht₁] at hi
  cases h₃
  exact ⟨spec,raw,operands,implicitOperands,hs,ho,⟨latest,t₃,hi⟩,rfl⟩

lemma parseInstruction_protect (hp : isProtectPrefix line) :
    parseInstruction conf instructions line li = pure protectPrefix := by
  unfold parseInstruction
  rw [hp]
  rfl

/-- A line that has been parsed once is parsed at any place and with any random choices. -/
theorem parseInstruction_always {t t' : Stream' ℕ} {inst : Instruction}
    (h : parseInstruction conf instructions line li t = .ok (inst,t')) (li' : ℕ) :
    Always (parseInstruction conf instructions line li') (SameText inst) := by
  cases hp : isProtectPrefix line with
  | true =>
    rw [parseInstruction_protect hp] at h ⊢
    cases h
    exact .pure ⟨rfl,rfl,rfl,rfl⟩
  | false =>
    obtain ⟨spec,raw,operands,_,hs,ho,⟨latest,t₁,hi⟩,hr⟩ := parseInstruction_spec hp h
    unfold parseInstruction
    rw [hp,if_neg Bool.false_ne_true,findSpec_line li' hs]
    refine Outcome.bind (P := fun p => p = (spec,raw)) (.pure rfl) ?_
    rintro _ rfl
    dsimp only
    rw [parseOperands_line li' ho]
    refine Outcome.bind (P := fun ops => ops = operands) (.pure rfl) ?_
    rintro _ rfl
    refine (generateOperands_always hi none).bind fun p _ => .pure ?_
    rw [show inst = _ from hr]
    exact ⟨rfl,rfl,rfl,rfl⟩

/-- Whether the text of a line selects a terminator. -/
def lineTerminates (conf : GeneratorConf) (instructions : List InstructionSpec)
    (line : List Char) : Bool :=
  !isProtectPrefix line && match findSpec conf instructions line 0 with
    | .ok (spec,_) => spec.controlFlow && spec.category ≠ "BASE-CALL"
    | .error _ => false

lemma parseInstruction_terminates {t : Stream' ℕ} {r : Instruction × Stream' ℕ}
    (h : parseInstruction conf instructions line li t = .ok r) :
    isTerminator r.1 = lineTerminates conf instructions line := by
  cases hp : isProtectPrefix line with
  | true =>
    rw [parseInstruction_protect hp] at h
    cases h
    rw [lineTerminates,hp]
    rfl
  | false =>
    obtain ⟨spec,raw,operands,_,hs,-,-,hr⟩ := parseInstruction_spec hp h
    rw [hr,lineTerminates,hp,findSpec_line 0 hs]
    rfl

end Instructions

/-- Where the second pass is: before the header, in a block that has terminators or not, or behind
the footer. -/
inductive Phase where
  | header
  | body (terminatorsStarted : Bool)
  | footer
  deriving DecidableEq

section Phases
variable (conf : GeneratorConf) (instructions : List InstructionSpec)

/-- A label, for the second pass. -/
def isLabel (line : List Char) : Bool :=
  isFunctionLabel line || (line.head? = some '.' && !isByte line)

/-- The phase behind a line, from its text. -/
def Phase.next (raw : Line) : Phase → Phase
  | .header => if strip raw = testCaseEnter then .body false else .header
  | .body started =>
    if strip raw = testCaseExit then .footer
    else if isTrivial (strip raw) then .body started
    else if isLabel (strip raw) then .body false
    else .body (started || lineTerminates conf instructions (strip raw))
  | .footer => .footer

/-- The phase behind some lines. -/
def Phase.after (ph : Phase) (l : List Line) : Phase :=
  l.foldl (fun ph raw => ph.next conf instructions raw) ph

end Phases

/-- The state of the second pass is in the phase. -/
def SecondPass.InPhase (s : SecondPass) : Phase → Prop
  | .header => s.started = false ∧ s.terminatorsStarted = false
  | .body started => s.started ∧ s.terminatorsStarted = started
  | .footer => True

section Second
variable {conf : GeneratorConf} {instructions : List InstructionSpec} {names : List (List Char)}
  {s : SecondPass} {li : ℕ} {line : List Char} {t : Stream' ℕ}

lemma Phase.after_footer (l : List Line) :
    Phase.after conf instructions .footer l = .footer := by
  induction l with
  | nil => rfl
  | cons raw l ih => exact ih

/-- The name of the block that a label selects. -/
def labelName (line : List Char) : List Char :=
  if isFunctionLabel line then entryOf line.dropLast else line.dropLast

section Equations
variable (names s li)

lemma parseLine_trivial (h : isTrivial line) :
    parseLine conf instructions names s li line = pure s := by
  rw [parseLine,if_pos h]

lemma parseLine_label (ht : isTrivial line = false) (hl : isLabel line) :
    parseLine conf instructions names s li line = selectBlock names s (labelName line) := by
  rw [parseLine,ht,if_neg Bool.false_ne_true,labelName]
  cases hf : isFunctionLabel line with
  | true => rfl
  | false =>
    rw [isLabel,hf,Bool.false_or] at hl
    rw [if_neg Bool.false_ne_true,if_pos hl]
    rfl

lemma parseLine_instruction (ht : isTrivial line = false) (hl : isLabel line = false) :
    parseLine conf instructions names s li line = (do
      let inst ← parseInstruction conf instructions line li
      if isTerminator inst then return s.insertTerminator li inst
      else if s.terminatorsStarted then throw (.asmParser li "Terminator in the middle of BB")
      else return s.insertAfter li inst) := by
  obtain ⟨hf,hd⟩ := Bool.or_eq_false_iff.mp hl
  rw [parseLine,ht,if_neg Bool.false_ne_true,hf,if_neg Bool.false_ne_true,hd,
    if_neg Bool.false_ne_true]

end Equations

/-- What the second pass can do at a line of the body. -/
inductive LineStep (conf : GeneratorConf) (instructions : List InstructionSpec)
    (names : List (List Char)) (s : SecondPass) (li : ℕ) (line : List Char) : SecondPass → Prop
  | skip (trivial : isTrivial line) : LineStep conf instructions names s li line s
  | label {i : ℕ} (text : isTrivial line = false) (label : isLabel line)
    (found : lastIndex (labelName line) names = some i) :
    LineStep conf instructions names s li line { s with current := i, terminatorsStarted := false }
  | terminator {inst : Instruction} {t t' : Stream' ℕ} (text : isTrivial line = false)
    (label : isLabel line = false)
    (parsed : parseInstruction conf instructions line li t = .ok (inst,t'))
    (terminator : isTerminator inst) :
    LineStep conf instructions names s li line (s.insertTerminator li inst)
  | instruction {inst : Instruction} {t t' : Stream' ℕ} (text : isTrivial line = false)
    (label : isLabel line = false)
    (parsed : parseInstruction conf instructions line li t = .ok (inst,t'))
    (terminator : isTerminator inst = false) (started : s.terminatorsStarted = false) :
    LineStep conf instructions names s li line (s.insertAfter li inst)

lemma parseLine_step {s' : SecondPass} {t' : Stream' ℕ}
    (h : parseLine conf instructions names s li line t = .ok (s',t')) :
    LineStep conf instructions names s li line s' := by
  cases ht : isTrivial line with
  | true =>
    rw [parseLine_trivial names s li ht] at h
    cases h
    exact .skip ht
  | false =>
    cases hl : isLabel line with
    | true =>
      rw [parseLine_label names s li ht hl,selectBlock] at h
      cases hi : lastIndex (labelName line) names with
      | none =>
        rw [hi] at h
        cases h
      | some i =>
        rw [hi] at h
        cases h
        exact .label ht hl hi
    | false =>
      rw [parseLine_instruction names s li ht hl] at h
      obtain ⟨inst,t₁,hi,h'⟩ := bind_eq_ok.mp h
      cases hterm : isTerminator inst with
      | true =>
        rw [hterm,if_pos rfl] at h'
        cases h'
        exact .terminator ht hl hi hterm
      | false =>
        rw [hterm,if_neg Bool.false_ne_true] at h'
        cases hstarted : s.terminatorsStarted with
        | true =>
          rw [hstarted,if_pos rfl] at h'
          cases h'
        | false =>
          rw [hstarted,if_neg Bool.false_ne_true] at h'
          cases h'
          exact .instruction ht hl hi hterm hstarted

/-- A step stays in the phase that the text gives. -/
lemma LineStep.inPhase {s' : SecondPass} {raw : Line}
    (h : LineStep conf instructions names s li (strip raw) s') {b : Bool}
    (hs : s.InPhase (.body b)) (exit : strip raw ≠ testCaseExit) :
    s'.InPhase (Phase.next conf instructions raw (.body b)) := by
  obtain ⟨started,hb⟩ := hs
  rw [Phase.next,if_neg exit]
  cases h with
  | skip trivial =>
    rw [if_pos trivial]
    exact ⟨started,hb⟩
  | label text label found =>
    rw [text,if_neg Bool.false_ne_true,if_pos label]
    exact ⟨started,rfl⟩
  | terminator text label parsed terminator =>
    rw [text,if_neg Bool.false_ne_true,label,if_neg Bool.false_ne_true,
      ← parseInstruction_terminates parsed,terminator,Bool.or_true]
    exact ⟨started,rfl⟩
  | instruction text label parsed terminator free =>
    rw [text,if_neg Bool.false_ne_true,label,if_neg Bool.false_ne_true,
      ← parseInstruction_terminates parsed,terminator,Bool.or_false]
    exact ⟨started,hb⟩

/-- In front of the header only the header itself is looked at. -/
lemma SecondPass.InPhase.header {raw : Line} (hs : s.InPhase .header) :
    ({ s with started := strip raw = testCaseEnter } : SecondPass).InPhase
      (Phase.next conf instructions raw .header) := by
  rw [Phase.next]
  split_ifs with enter
  · exact ⟨decide_eq_true enter,hs.2⟩
  · exact ⟨decide_eq_false enter,hs.2⟩

end Second

section FirstPass

/-- The lines that the first pass searches for labels. -/
def seenLines : Bool → List Line → List (List Char)
  | _, [] => []
  | started, raw :: rest =>
    let line := strip raw
    if isTrivial line then seenLines started rest
    else if !started then seenLines (line = testCaseEnter) rest
    else if line = testCaseExit then []
    else line :: seenLines started rest

/-- The functions that are found are those of the labels, one line after the other. -/
lemma firstPass_eq_foldl (s : FirstPass) (lines : List Line) :
    (firstPass s lines).functions = (seenLines s.started lines).foldl addLabel s.functions := by
  induction lines generalizing s with
  | nil => rfl
  | cons raw rest ih =>
    rw [firstPass,seenLines]
    by_cases text : isTrivial (strip raw)
    · rw [if_pos text,if_pos text]
      exact ih s
    rw [if_neg text,if_neg text]
    by_cases waiting : (!s.started) = true
    · rw [if_pos waiting,if_pos waiting]
      exact ih _
    rw [if_neg waiting,if_neg waiting]
    split_ifs
    · rfl
    · exact ih _

/-- What a label keeps holds of all functions of a file. -/
lemma firstPass_keeps {P : List FunctionLabels → Prop}
    (keeps : ∀ functions line, P functions → P (addLabel functions line)) {s : FirstPass}
    (h : P s.functions) (lines : List Line) : P (firstPass s lines).functions := by
  rw [firstPass_eq_foldl]
  induction seenLines s.started lines generalizing s with
  | nil => exact h
  | cons line rest ih => exact @ih { s with functions := addLabel s.functions line } (keeps _ _ h)

end FirstPass

section Files
variable {conf : GeneratorConf} {instructions : List InstructionSpec} {file : List Line}

/-- The blocks before the second pass. -/
def emptyBlocks (names : List (List Char)) : SecondPass :=
  { blocks := names.map fun name => { name } }

/-- The passes that a file has gone through. -/
lemma parseText_eq_ok {t t' : Stream' ℕ} {tc : ParsedTestCase} :
    parseText conf instructions file t = .ok (tc,t') ↔
      (firstPass {} file).started ∧ tc.functions = (firstPass {} file).functions ∧
      tc.numPrologueInstructions = (firstPass {} file).numPrologueInstructions ∧
      ∃ second, secondPass conf instructions (blockNames tc.functions)
          (emptyBlocks (blockNames tc.functions)) 0 file t = .ok (second,t') ∧
        connectFrom (blockNames tc.functions) (blockNames tc.functions).length 0 second.blocks =
          .ok tc.blocks := by
  unfold parseText
  dsimp only
  cases started : (firstPass {} file).started with
  | false =>
    rw [Bool.not_false,if_pos rfl]
    constructor
    · intro h
      cases h
    · rintro ⟨h,-⟩
      cases h
  | true =>
    rw [Bool.not_true,if_neg Bool.false_ne_true]
    constructor
    · intro h
      obtain ⟨second,t₁,hs,h₁⟩ := bind_eq_ok.mp h
      obtain ⟨blocks,t₂,hc,h₂⟩ := bind_eq_ok.mp h₁
      obtain ⟨connected,ht⟩ := lift_eq_ok.mp hc
      cases h₂
      cases ht
      exact ⟨rfl,rfl,rfl,second,hs,connected⟩
    · rintro ⟨-,functions,prologue,second,hs,hc⟩
      rw [functions] at hs hc
      refine bind_eq_ok.mpr ⟨second,t',hs,bind_eq_ok.mpr ⟨tc.blocks,t',lift_eq_ok.mpr ⟨hc,rfl⟩,?_⟩⟩
      rw [← functions,← prologue]
      rfl

/-- Connecting changes neither instructions nor terminators. -/
lemma inMemory_connectFrom {names : List (List Char)} {n i : ℕ} {blocks connected : List ParsedBlock}
    (h : connectFrom names n i blocks = .ok connected) : inMemory connected = inMemory blocks := by
  have flat : (connected.flatMap fun bb => bb.instructions ++ bb.terminators) =
      blocks.flatMap fun bb => bb.instructions ++ bb.terminators := by
    induction blocks generalizing i connected with
    | nil =>
      cases h
      rfl
    | cons bb blocks ih =>
      obtain ⟨bb',hb,h⟩ := Except.bind_eq_ok.mp h
      obtain ⟨rest,hr,h⟩ := Except.bind_eq_ok.mp h
      obtain ⟨taken,-,hb⟩ := Except.bind_eq_ok.mp hb
      cases h
      cases hb
      rw [List.flatMap_cons,List.flatMap_cons,ih hr]
  rw [inMemory,inMemory,flat]

/-- There have to be enough addresses. -/
lemma mapAddresses_ok_iff {tc : ParsedTestCase} {addressList : List ℕ} :
    (∃ pairs, mapAddresses tc addressList = .ok pairs) ↔
      tc.numPrologueInstructions+(inMemory tc.blocks).length ≤ addressList.length ∧
        addressList ≠ [] := by
  unfold mapAddresses
  dsimp only
  split_ifs with few
  · constructor
    · rintro ⟨pairs,h⟩
      cases h
    · rintro ⟨enough,some⟩
      rcases few with few | none
      · omega
      · exact absurd none some
  · rw [not_or,not_lt] at few
    exact iff_of_true ⟨_,rfl⟩ few

end Files

end ProteanAmulet.Generator.X86Generator
