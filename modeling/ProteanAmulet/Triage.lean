import Mathlib.Data.List.Infix
import Mathlib.Data.Prod.Basic
import ProteanAmulet.Library.Text

/-! The triage of reported violations. Both inputs of a violation are run again, in order and out of
order, and what the runs have written is compared line by line. -/
namespace ProteanAmulet.Triage
open Text

/-- The characters that `\s` and `\w` of a regular expression match. -/
structure CharClasses where
  space : Char → Bool
  word : Char → Bool

/-- The classes on ASCII text. -/
def asciiClasses : CharClasses where
  space c := c.isWhitespace || c.toNat ∈ [0x0b,0x0c,0x1c,0x1d,0x1e,0x1f]
  word c := c.isAlphanum || c = '_'

section Files

/-- The text up to where `$` matches: before a newline at the end. -/
def chomp (line : List Char) : List Char :=
  if line.getLast? = some '\n' then line.dropLast else line

/-- `^key: (\[.*\])$`, with the group that is matched. -/
def matchTraces (key line : List Char) : Option (List Char) :=
  (afterPrefix (key ++ ": ".toList) (chomp line)).filter fun traces =>
    traces.head? = some '[' && traces.getLast? = some ']' && 2 ≤ traces.length

/-- `search_file` with `matchTraces`. -/
def searchFile (key text : List Char) : List (List Char) := (lines text).filterMap (matchTraces key)

/-- `search_file_one`; `none` is the `ValueError`. -/
def searchFileOne (key text : List Char) : Option (List Char) :=
  match searchFile key text with
  | [traces] => some traces
  | _ => none

def getCtraceFromFile : List Char → Option (List Char) := searchFileOne "ctraces".toList

def getHtraceFromFile : List Char → Option (List Char) := searchFileOne "htraces".toList

/-- A line has `Unhandled CPU exception \(UC_ERR_EXCEPTION\)`. -/
def reportsException (text : List Char) : Bool :=
  (lines text).any fun line => "Unhandled CPU exception (UC_ERR_EXCEPTION)".toList <:+: line

end Files

section Lines
variable (cls : CharClasses)

/-- `^system\.cpu: A0 T0 : ([^:]+) :`. The group ends at the blank before the first colon. -/
def searchPc (line : List Char) : Option (List Char) := do
  let rest ← afterPrefix "system.cpu: A0 T0 : ".toList line
  let run := rest.takeWhile (· ≠ ':')
  if run.length<rest.length ∧ run.getLast? = some ' ' ∧ 2 ≤ run.length then some run.dropLast
  else none

/-- The group of `\sA=(\w+)\s` at the beginning of the text. -/
def matchAddress : List Char → Option (List Char)
  | s :: 'A' :: '=' :: rest =>
    let word := rest.takeWhile cls.word
    if cls.space s ∧ word ≠ [] ∧ ((rest.drop word.length).head?.any cls.space) then some word
    else none
  | _ => none

/-- `\sA=(\w+)\s`, at the first place where it matches. -/
def searchAddress : List Char → Option (List Char)
  | [] => none
  | c :: text => matchAddress cls (c :: text) <|> searchAddress text

/-- `check_pattern`: only lines that both have the field are compared. -/
def checkPattern (search : List Char → Option (List Char)) (l₁ l₂ : List Char) : Bool :=
  match search l₁, search l₂ with
  | some m₁, some m₂ => m₁ = m₂
  | _, _ => true

def compareDbgoutLines (l₁ l₂ : List Char) : Bool :=
  checkPattern searchPc l₁ l₂ && checkPattern (searchAddress cls) l₁ l₂

end Lines

/-- What the runs of one input have written: the out-of-order run to its standard output and its
debug output, the in-order run to its standard output. -/
structure Runs where
  oooStdout : List Char
  oooDbgout : List Char
  inorderStdout : List Char

inductive Reason where
  | mismatchingCtraces | matchingHtraces | mismatchingDbgouts | unicornException | none
  deriving DecidableEq

structure Answer where
  truePositive : Bool
  reason : Reason
  culpritLines : Option (List Char × List Char) := .none
  deriving DecidableEq

section Triage
variable (cls : CharClasses) (reference primer : Runs)

/-- The first two lines of the debug outputs that do not match; `zip` ends with the shorter one. -/
def culprit : Option (List Char × List Char) :=
  ((lines reference.oooDbgout).zip (lines primer.oooDbgout)).find? fun p =>
    !compareDbgoutLines cls p.1 p.2

/-- `do_triage_str`; `none` is an exception. -/
def doTriageStr : Option Answer := do
  let ctraces₁ ← getCtraceFromFile reference.oooStdout
  let ctraces₂ ← getCtraceFromFile primer.oooStdout
  let htraces₁ ← getHtraceFromFile reference.oooStdout
  let htraces₂ ← getHtraceFromFile primer.oooStdout
  if ctraces₁ ≠ ctraces₂ then return { truePositive := false, reason := .mismatchingCtraces }
  if htraces₁ = htraces₂ then return { truePositive := false, reason := .matchingHtraces }
  match culprit cls reference primer with
  | some lines =>
    return { truePositive := false, reason := .mismatchingDbgouts, culpritLines := some lines }
  | .none =>
    -- only the run of the reference is searched
    if reportsException reference.inorderStdout then
      return { truePositive := false, reason := .unicornException }
    return { truePositive := true, reason := .none }

/-- The verdict and its reason, without the lines that are shown. -/
def verdict : Option (Bool × Reason) :=
  (doTriageStr cls reference primer).map fun answer => (answer.truePositive,answer.reason)

/-- What a true positive is to be: the contract does not tell the inputs apart, the hardware does,
the debug outputs agree in all lines, and no in-order run has failed. -/
structure Violation : Prop where
  ctraces : getCtraceFromFile reference.oooStdout = getCtraceFromFile primer.oooStdout
  htraces : getHtraceFromFile reference.oooStdout ≠ getHtraceFromFile primer.oooStdout
  length : (lines reference.oooDbgout).length = (lines primer.oooDbgout).length
  agree : ∀ p ∈ (lines reference.oooDbgout).zip (lines primer.oooDbgout),
    searchPc p.1 = searchPc p.2 ∧ searchAddress cls p.1 = searchAddress cls p.2
  reference_quiet : reportsException reference.inorderStdout = false
  primer_quiet : reportsException primer.inorderStdout = false

/-- Verdicts are sound, and the order of the inputs does not matter. -/
def Trustworthy : Prop :=
  (∀ answer, doTriageStr cls reference primer = some answer → answer.truePositive →
    Violation cls reference primer) ∧
  verdict cls reference primer = verdict cls primer reference

/-- The traces and the lines that are compared leave the verdict to the in-order runs. -/
structure Undecided : Prop where
  ctraces : ∃ t, getCtraceFromFile reference.oooStdout = some t ∧
    getCtraceFromFile primer.oooStdout = some t
  htraces : ∃ t t', getHtraceFromFile reference.oooStdout = some t ∧
    getHtraceFromFile primer.oooStdout = some t' ∧ t≠t'
  dbgouts : ∀ p ∈ (lines reference.oooDbgout).zip (lines primer.oooDbgout),
    compareDbgoutLines cls p.1 p.2

/-- The debug outputs have the same number of lines, and lines at the same place have the same
fields. -/
def Aligned : Prop :=
  (lines reference.oooDbgout).length = (lines primer.oooDbgout).length ∧
  ∀ p ∈ (lines reference.oooDbgout).zip (lines primer.oooDbgout),
    (searchPc p.1).isSome = (searchPc p.2).isSome ∧
    (searchAddress cls p.1).isSome = (searchAddress cls p.2).isSome

end Triage

section Verdicts
variable {cls : CharClasses} {reference primer : Runs}

lemma checkPattern_comm (search : List Char → Option (List Char)) (l₁ l₂ : List Char) :
    checkPattern search l₁ l₂ = checkPattern search l₂ l₁ := by
  unfold checkPattern
  cases search l₁ <;> cases search l₂ <;> simp [eq_comm]

lemma compareDbgoutLines_comm (l₁ l₂ : List Char) :
    compareDbgoutLines cls l₁ l₂ = compareDbgoutLines cls l₂ l₁ := by
  rw [compareDbgoutLines,compareDbgoutLines,checkPattern_comm searchPc,
    checkPattern_comm (searchAddress cls)]

/-- Fields that are compared and present on both sides or on none are the same. -/
lemma checkPattern_eq {search : List Char → Option (List Char)} {l₁ l₂ : List Char}
    (h : checkPattern search l₁ l₂) (some_iff : (search l₁).isSome = (search l₂).isSome) :
    search l₁ = search l₂ := by
  unfold checkPattern at h
  cases h₁ : search l₁ <;> cases h₂ : search l₂ <;> simp_all

lemma culprit_comm : culprit cls primer reference = (culprit cls reference primer).map Prod.swap := by
  unfold culprit
  generalize lines reference.oooDbgout = a
  generalize lines primer.oooDbgout = b
  induction a generalizing b with
  | nil => simp
  | cons l₁ a ih =>
    cases b with
    | nil => simp
    | cons l₂ b =>
      rw [List.zip_cons_cons,List.zip_cons_cons,List.find?_cons,List.find?_cons,
        compareDbgoutLines_comm l₂ l₁,ih]
      cases compareDbgoutLines cls l₁ l₂ <;> rfl

lemma culprit_eq_none : culprit cls reference primer = none ↔
    ∀ p ∈ (lines reference.oooDbgout).zip (lines primer.oooDbgout),
      compareDbgoutLines cls p.1 p.2 := by
  simp [culprit,List.find?_eq_none]

lemma Undecided.symm (h : Undecided cls reference primer) : Undecided cls primer reference := by
  obtain ⟨t,ht,ht'⟩ := h.ctraces
  obtain ⟨u,u',hu,hu',ne⟩ := h.htraces
  refine ⟨⟨t,ht',ht⟩,⟨u',u,hu',hu,ne.symm⟩,?_⟩
  rw [← culprit_eq_none,culprit_comm,culprit_eq_none.mpr h.dbgouts]
  rfl

lemma doTriageStr_undecided (h : Undecided cls reference primer) :
    doTriageStr cls reference primer = some (if reportsException reference.inorderStdout then
      { truePositive := false, reason := .unicornException }
      else { truePositive := true, reason := .none }) := by
  obtain ⟨t,ht,ht'⟩ := h.ctraces
  obtain ⟨u,u',hu,hu',ne⟩ := h.htraces
  have lines := culprit_eq_none.mpr h.dbgouts
  simp only [doTriageStr,ht,ht',hu,hu',lines]
  cases reportsException reference.inorderStdout <;> simp [ne]

/-- Before the in-order runs are looked at there are no true positives, and the order of the inputs
does not matter. -/
lemma doTriageStr_decided (h : ¬Undecided cls reference primer) :
    (∀ answer, doTriageStr cls reference primer = some answer → answer.truePositive = false) ∧
      verdict cls reference primer = verdict cls primer reference := by
  cases hc : getCtraceFromFile reference.oooStdout with
  | none => simp [verdict,doTriageStr,hc]
  | some c =>
    cases hc' : getCtraceFromFile primer.oooStdout with
    | none => simp [verdict,doTriageStr,hc']
    | some c' =>
      cases hh : getHtraceFromFile reference.oooStdout with
      | none => simp [verdict,doTriageStr,hh]
      | some t =>
        cases hh' : getHtraceFromFile primer.oooStdout with
        | none => simp [verdict,doTriageStr,hh']
        | some t' =>
          by_cases contract : c=c'
          · subst contract
            by_cases hardware : t=t'
            · simp [verdict,doTriageStr,hc,hc',hh,hh',hardware]
            · cases hl : culprit cls reference primer with
              | none => exact absurd ⟨⟨c,hc,hc'⟩,⟨t,t',hh,hh',hardware⟩,culprit_eq_none.mp hl⟩ h
              | some p =>
                have swapped : culprit cls primer reference = _ := culprit_comm
                simp [verdict,doTriageStr,hc,hc',hh,hh',hardware,Ne.symm hardware,swapped,hl]
          · simp [verdict,doTriageStr,hc,hc',hh,hh',contract,Ne.symm contract]

lemma violation_of_aligned (h : Undecided cls reference primer) (ha : Aligned cls reference primer)
    (hr : reportsException reference.inorderStdout = false)
    (hp : reportsException primer.inorderStdout = false) : Violation cls reference primer := by
  obtain ⟨t,ht,ht'⟩ := h.ctraces
  obtain ⟨u,u',hu,hu',ne⟩ := h.htraces
  refine ⟨by rw [ht,ht'],by rw [hu,hu']; simpa using ne,ha.1,fun p hp => ?_,hr,hp⟩
  have compared := h.dbgouts p hp
  rw [compareDbgoutLines,Bool.and_eq_true] at compared
  obtain ⟨pc,address⟩ := ha.2 p hp
  exact ⟨checkPattern_eq compared.1 pc,checkPattern_eq compared.2 address⟩

lemma Violation.aligned (h : Violation cls reference primer) : Aligned cls reference primer := by
  refine ⟨h.length,fun p hp => ?_⟩
  obtain ⟨pc,address⟩ := h.agree p hp
  rw [pc,address]
  exact ⟨rfl,rfl⟩

/-- The verdict can be trusted exactly when the in-order runs are not asked, when both have failed,
or when none has and the debug outputs are aligned. -/
theorem trustworthy_iff : Trustworthy cls reference primer ↔
    ¬Undecided cls reference primer ∨
    reportsException reference.inorderStdout ∧ reportsException primer.inorderStdout ∨
    ¬reportsException reference.inorderStdout ∧ ¬reportsException primer.inorderStdout ∧
      Aligned cls reference primer := by
  by_cases h : Undecided cls reference primer
  · have answer := doTriageStr_undecided h
    have answer' := doTriageStr_undecided h.symm
    cases hr : reportsException reference.inorderStdout <;>
      cases hp : reportsException primer.inorderStdout <;>
      simp only [hr,hp,if_true,if_false,Bool.false_eq_true] at answer answer' <;>
      simp only [Trustworthy,verdict,answer,answer',Option.some.injEq,forall_eq',Option.map_some]
    · constructor
      · rintro ⟨sound,-⟩
        exact .inr (.inr ⟨by decide,by decide,(sound trivial).aligned⟩)
      · rintro (decided | ⟨failed,-⟩ | ⟨-,-,aligned⟩)
        · exact absurd h decided
        · cases failed
        · exact ⟨fun _ => violation_of_aligned h aligned hr hp,trivial⟩
    · simp [h]
    · simp [h]
    · simp [h]
  · obtain ⟨never,same⟩ := doTriageStr_decided h
    refine iff_of_true ⟨fun answer ha hv => ?_,same⟩ (.inl h)
    rw [never answer ha] at hv
    cases hv

/-- The in-order run of the primer has failed, and that of the reference has not; or one debug output
ends before the other. -/
theorem not_trustworthy : (∃ reference primer : Runs,
    verdict asciiClasses reference primer = some (true,.none) ∧
    verdict asciiClasses primer reference = some (false,.unicornException) ∧
    ¬Trustworthy asciiClasses reference primer) ∧
    ∃ reference primer : Runs, verdict asciiClasses reference primer = some (true,.none) ∧
      (lines reference.oooDbgout).length ≠ (lines primer.oooDbgout).length ∧
      ¬Trustworthy asciiClasses reference primer := by
  constructor
  · refine ⟨⟨"ctraces: [1]\nhtraces: [2]\n".toList,[],[]⟩,⟨"ctraces: [1]\nhtraces: [3]\n".toList,[],
      "Unhandled CPU exception (UC_ERR_EXCEPTION)\n".toList⟩,by decide +kernel,by decide +kernel,?_⟩
    rintro ⟨-,symmetric⟩
    exact absurd symmetric (by decide +kernel)
  · refine ⟨⟨"ctraces: [1]\nhtraces: [2]\n".toList,"system.cpu: A0 T0 : 0x4021e1 :\n".toList,[]⟩,
      ⟨"ctraces: [1]\nhtraces: [3]\n".toList,[],[]⟩,by decide +kernel,by decide +kernel,?_⟩
    rintro ⟨sound,-⟩
    have violation := sound { truePositive := true, reason := .none } (by decide +kernel) rfl
    exact absurd violation.length (by decide +kernel)

end Verdicts

end ProteanAmulet.Triage
