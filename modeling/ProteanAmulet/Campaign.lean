import ProteanAmulet.Library.Programs
import ProteanAmulet.Reports

/-! Fuzzing campaigns. The rounds talk to an executor that keeps a state and may raise exceptions, and
the clock is read wherever a timeout may end the work. Over an executor whose traces are functions of
the inputs, a campaign reports what these functions violate, and what it reports they violate. Debug
files and the other counters of `STAT` are not modelled. -/
namespace ProteanAmulet.Fuzzer
open EquivalenceAnalyser Program

/-- An exception of the executor, its exit when there is no test case, an index out of range, or the
variable `violation` when no round has set it. -/
inductive Failure (ε : Type) where
  | executor (e : ε)
  | noTestCase
  | index
  | unbound

/-- The executor and the clock, over their common state. -/
structure Target (τ ε ι θ : Type) where
  loadTestCase : θ → Program τ (Failure ε) Unit
  traceTestCase : List ι → Program τ (Failure ε) (List HTrace)
  bugged : Program τ (Failure ε) Bool
  startPriming : Program τ (Failure ε) Unit
  stopPriming : Program τ (Failure ε) Unit
  /-- Whether there is a timeout that is over. -/
  expired : Program τ (Failure ε) Bool

/-- What `survives_priming` has come to. -/
inductive Primed (ι : Type) where
  | absorbed
  | expired
  | survived (current input : ι)

/-- How a round of `start` goes on. -/
inductive Message where
  | found
  | count (violations : ℕ)
  | without
  deriving DecidableEq

/-- The variables of `start`, with the rounds that were reported. -/
structure Outcome (ι : Type) where
  testCases : ℕ := 0
  violations : ℕ := 0
  violation : Option (Option (EquivalenceClass ι)) := none
  reports : List (ℕ × EquivalenceClass ι) := []

/-- The parameters of a campaign. What the generators give in a round depends on its number. -/
structure Campaign (ι θ : Type) where
  numTestCases : ℕ
  nonstop : Bool := false
  testCase : ℕ → θ
  round : ℕ → Round ι

section Definitions
variable {τ ε ι θ α : Type}

/-- Python's truth of a result: a class has as many elements as measurements. -/
def isViolation : Option (EquivalenceClass ι) → Bool
  | none => false
  | some v => v.measurements.length ≠ 0

def attempt (result : Option α) : Program τ (Failure ε) α :=
  match result with
  | some a => pure a
  | none => raise .index

namespace Target
variable (t : Target τ ε ι θ)

/-- The inner loop of `survives_priming`. -/
def tryPriming (allInputs : List ι) (currentHtrace : HTrace) (currentInputId : ℕ) :
    List ℕ → Program τ (Failure ε) (Primed ι)
  | [] => pure .absorbed
  | inputId :: ids => do
    if ← t.expired then pure .expired
    else
      let input ← attempt allInputs[inputId]?
      let htraces ← t.traceTestCase ((allInputs.take (currentInputId+1)).set currentInputId input)
      let primedHtrace ← attempt htraces[currentInputId]?
      if primedHtrace = 0 then tryPriming allInputs currentHtrace currentInputId ids
      else if primedHtrace = currentHtrace then
        tryPriming allInputs currentHtrace currentInputId ids
      else
        t.stopPriming
        let current ← attempt allInputs[currentInputId]?
        pure (.survived current input)

/-- The outer loop, over the groups of the class's htrace map. -/
def primeGroups (violation : EquivalenceClass ι) (allInputs : List ι) :
    HTraceMap ι → Program τ (Failure ε) (Primed ι)
  | [] => pure .absorbed
  | (currentHtrace,group) :: rest => do
    let last ← attempt group.getLast?
    let inputIdsToTest := (violation.measurements.filter (·.htrace ≠ currentHtrace)).map
      (·.inputId)
    match ← t.tryPriming allInputs currentHtrace last.inputId inputIdsToTest with
    | .absorbed => primeGroups violation allInputs rest
    | primed => pure primed

/-- `survives_priming`. Priming is not stopped after a timeout. -/
def survivesPriming (violation : EquivalenceClass ι) (allInputs : List ι) :
    Program τ (Failure ε) (Option (ι × ι)) := do
  t.startPriming
  match ← t.primeGroups violation allInputs violation.htraceMap with
  | .absorbed => do
    t.stopPriming
    pure none
  | .expired => pure none
  | .survived current input => pure (some (current,input))

/-- The loop over the nesting bounds; `none` where the round returns early. -/
def detect (r : Round ι) : List ℕ → List (EquivalenceClass ι) × List ι →
    Program τ (Failure ε) (Option (List (EquivalenceClass ι) × List ι))
  | [], found => pure (some found)
  | nesting :: rest, _ => do
    let htraces ← t.traceTestCase (r.boosted nesting)
    if ← t.bugged then pure none
    else if r.existingInputCase && r.existingTestCase then pure none
    else
      let violations ← attempt (filterViolations r.permitSubsets (r.boosted nesting)
        (r.traceTestCase (r.boosted nesting) nesting) htraces)
      if violations.isEmpty then pure none
      else if r.seqClause then pure (some (violations,r.boosted nesting))
      else detect r rest (violations,r.boosted nesting)

/-- `while violations`, on the reversed list. -/
def primeViolations (boosted : List ι) :
    List (EquivalenceClass ι) → Program τ (Failure ε) (Option (EquivalenceClass ι))
  | [] => pure none
  | violation :: rest => do
    match ← t.survivesPriming violation boosted with
    | some _ => pure (some violation)
    | none => primeViolations boosted rest

/-- `fuzzing_round`. -/
def fuzzingRound (testCase : θ) (r : Round ι) :
    Program τ (Failure ε) (Option (EquivalenceClass ι)) := do
  t.loadTestCase testCase
  match ← t.detect r [1,r.modelMaxNesting] ([],[]) with
  | none => pure none
  | some (violations,boosted) =>
    if r.noPriming then pure violations.getLast?
    else t.primeViolations boosted violations.reverse

end Target

/-- The counters after a round. -/
def Outcome.add (o : Outcome ι) (i : ℕ) (violation : Option (EquivalenceClass ι)) : Outcome ι where
  testCases := o.testCases+1
  violations := if isViolation violation then o.violations+1 else o.violations
  violation := some violation
  reports := match violation with
    | some v => if isViolation (some v) then o.reports ++ [(i,v)] else o.reports
    | none => o.reports

/-- The loop of `start`. -/
def rounds (t : Target τ ε ι θ) (c : Campaign ι θ) :
    List ℕ → Outcome ι → Program τ (Failure ε) (Outcome ι)
  | [], o => pure o
  | i :: is, o => do
    let violation ← t.fuzzingRound (c.testCase i) (c.round i)
    if isViolation violation && !c.nonstop then pure (o.add i violation)
    else if ← t.expired then pure (o.add i violation)
    else if (c.round i).existingInputCase then pure (o.add i violation)
    else rounds t c is (o.add i violation)

/-- What `fuzzer_finish` says. -/
def Outcome.message (o : Outcome ι) (violation : Option (EquivalenceClass ι)) : Message :=
  if isViolation violation then .found
  else if o.violations ≠ 0 then .count o.violations
  else .without

def Outcome.finish (o : Outcome ι) : Program τ (Failure ε) Message :=
  match o.violation with
  | none => raise .unbound
  | some violation => pure (o.message violation)

def start (t : Target τ ε ι θ) (c : Campaign ι θ) : Program τ (Failure ε) (Outcome ι × Message) := do
  let o ← rounds t c (List.range c.numTestCases) {}
  let message ← o.finish
  pure (o,message)

end Definitions

/-! ### Campaigns over executors that refine each other -/

section Refinement
variable {τ τ' ε ι θ α : Type}

/-- An executor gives the results of another one, for some test cases. -/
structure Target.Refines (R : τ → τ' → Prop) (Case : θ → Prop) (t : Target τ ε ι θ)
    (t' : Target τ' ε ι θ) : Prop where
  loadTestCase : ∀ case, Case case →
    Program.Refines R (t.loadTestCase case) (t'.loadTestCase case)
  traceTestCase : ∀ inputs, Program.Refines R (t.traceTestCase inputs) (t'.traceTestCase inputs)
  bugged : Program.Refines R t.bugged t'.bugged
  startPriming : Program.Refines R t.startPriming t'.startPriming
  stopPriming : Program.Refines R t.stopPriming t'.stopPriming
  expired : Program.Refines R t.expired t'.expired

variable {R : τ → τ' → Prop} {Case : θ → Prop} {t : Target τ ε ι θ} {t' : Target τ' ε ι θ}

lemma refines_attempt (result : Option α) :
    Program.Refines R (attempt result : Program τ (Failure ε) α) (attempt result) := by
  cases result with
  | none => exact .raise Failure.index
  | some a => exact .pure a

variable (h : Target.Refines R Case t t')
include h

lemma refines_tryPriming (allInputs : List ι) (currentHtrace : HTrace) (currentInputId : ℕ)
    (ids : List ℕ) :
    Program.Refines R (t.tryPriming allInputs currentHtrace currentInputId ids)
      (t'.tryPriming allInputs currentHtrace currentInputId ids) := by
  induction ids with
  | nil => exact .pure Primed.absorbed
  | cons inputId ids ih =>
    refine h.expired.bind fun overdue => .ite (fun _ => .pure Primed.expired) fun _ => ?_
    refine (refines_attempt _).bind fun input => (h.traceTestCase _).bind fun htraces => ?_
    refine (refines_attempt _).bind fun primedHtrace => .ite (fun _ => ih) fun _ => ?_
    refine .ite (fun _ => ih) fun _ => h.stopPriming.bind fun _ => ?_
    exact (refines_attempt _).bind fun current => .pure (Primed.survived current input)

lemma refines_primeGroups (violation : EquivalenceClass ι) (allInputs : List ι)
    (groups : HTraceMap ι) :
    Program.Refines R (t.primeGroups violation allInputs groups)
      (t'.primeGroups violation allInputs groups) := by
  induction groups with
  | nil => exact .pure Primed.absorbed
  | cons group rest ih =>
    refine (refines_attempt _).bind fun last => (refines_tryPriming h _ _ _ _).bind fun primed => ?_
    cases primed with
    | absorbed => exact ih
    | expired => exact .pure Primed.expired
    | survived current input => exact .pure (Primed.survived current input)

lemma refines_survivesPriming (violation : EquivalenceClass ι) (allInputs : List ι) :
    Program.Refines R (t.survivesPriming violation allInputs)
      (t'.survivesPriming violation allInputs) := by
  refine h.startPriming.bind fun _ => (refines_primeGroups h _ _ _).bind fun primed => ?_
  cases primed with
  | absorbed => exact h.stopPriming.bind fun _ => .pure none
  | expired => exact .pure none
  | survived current input => exact .pure (some (current,input))

lemma refines_detect (r : Round ι) (ns : List ℕ) (found : List (EquivalenceClass ι) × List ι) :
    Program.Refines R (t.detect r ns found) (t'.detect r ns found) := by
  induction ns generalizing found with
  | nil => exact .pure (some found)
  | cons n ns ih =>
    refine (h.traceTestCase _).bind fun htraces => h.bugged.bind fun bugged => ?_
    refine .ite (fun _ => .pure none) fun _ => .ite (fun _ => .pure none) fun _ => ?_
    refine (refines_attempt _).bind fun violations => .ite (fun _ => .pure none) fun _ => ?_
    exact .ite (fun _ => .pure _) fun _ => ih _

lemma refines_primeViolations (boosted : List ι) (vs : List (EquivalenceClass ι)) :
    Program.Refines R (t.primeViolations boosted vs) (t'.primeViolations boosted vs) := by
  induction vs with
  | nil => exact .pure none
  | cons v vs ih =>
    refine (refines_survivesPriming h v boosted).bind fun pair => ?_
    cases pair with
    | none => exact ih
    | some pair => exact .pure (some v)

lemma refines_fuzzingRound {case : θ} (hcase : Case case) (r : Round ι) :
    Program.Refines R (t.fuzzingRound case r) (t'.fuzzingRound case r) := by
  refine (h.loadTestCase case hcase).bind fun _ => (refines_detect h r _ _).bind fun found => ?_
  cases found with
  | none => exact .pure none
  | some found =>
    exact .ite (fun _ => .pure found.1.getLast?) fun _ => refines_primeViolations h found.2 _

lemma refines_rounds {c : Campaign ι θ} (hc : ∀ i, Case (c.testCase i)) (is : List ℕ)
    (o : Outcome ι) : Program.Refines R (rounds t c is o) (rounds t' c is o) := by
  induction is generalizing o with
  | nil => exact .pure o
  | cons i is ih =>
    refine (refines_fuzzingRound h (hc i) (c.round i)).bind fun violation => ?_
    refine .ite (fun _ => .pure (o.add i violation)) fun _ => h.expired.bind fun overdue => ?_
    refine .ite (fun _ => .pure (o.add i violation)) fun _ => ?_
    exact .ite (fun _ => .pure (o.add i violation)) fun _ => ih _

/-- Campaigns over executors that refine each other come to the same. -/
lemma refines_start {c : Campaign ι θ} (hc : ∀ i, Case (c.testCase i)) :
    Program.Refines R (start t c) (start t' c) := by
  refine (refines_rounds h hc _ {}).bind fun o => Program.Refines.bind ?_ fun message => .pure _
  unfold Outcome.finish
  cases o.violation with
  | none => exact .raise Failure.unbound
  | some violation => exact .pure _

end Refinement

/-! ### Campaigns over functions -/

section Functions
variable {ε ι θ : Type}

/-- The executor of the test case that is loaded, and how often the clock was read. -/
structure Ticking (ι : Type) where
  executor : Option (Executor ι) := none
  reads : ℕ := 0

/-- The executor of a test case is a function of the inputs, of which there is one at least. -/
def functional (e : θ → Executor ι) (empty : ε) (clock : ℕ → Bool) : Target (Ticking ι) ε ι θ where
  loadTestCase case s := (.ok (),{ s with executor := some (e case) })
  traceTestCase inputs s :=
    match s.executor with
    | none => (.error .noTestCase,s)
    | some x => (if inputs.isEmpty then .error (.executor empty) else .ok (x.traceTestCase inputs),s)
  bugged := pure false
  startPriming := pure ()
  stopPriming := pure ()
  expired s := (.ok (clock s.reads),{ s with reads := s.reads+1 })

/-- The program returns a value with some property and leaves the executor as it is. -/
def Returns {α : Type} (p : Program (Ticking ι) (Failure ε) α) (x : Executor ι) (P : α → Prop) :
    Prop := ∀ n, ∃ a n', p ⟨some x,n⟩ = (.ok a,⟨some x,n'⟩) ∧ P a

variable {x : Executor ι} {α β : Type} {p : Program (Ticking ι) (Failure ε) α} {P : α → Prop}

lemma Returns.pure {a : α} (h : P a) :
    Returns (Pure.pure a : Program (Ticking ι) (Failure ε) α) x P := fun n => ⟨a,n,rfl,h⟩

lemma Returns.bind {f : α → Program (Ticking ι) (Failure ε) β} {Q : β → Prop} (h : Returns p x P)
    (hf : ∀ a, P a → Returns (f a) x Q) : Returns (p >>= f) x Q := by
  intro n
  obtain ⟨a,n',ha,hP⟩ := h n
  rw [bind_ok ha]
  exact hf a hP n'

lemma Returns.mono {Q : α → Prop} (h : Returns p x P) (hPQ : ∀ a, P a → Q a) : Returns p x Q := by
  intro n
  obtain ⟨a,n',ha,hP⟩ := h n
  exact ⟨a,n',ha,hPQ a hP⟩

lemma returns_attempt {result : Option α} {a : α} (h : result = some a) :
    Returns (attempt result : Program (Ticking ι) (Failure ε) α) x (· = a) := by
  subst h
  exact .pure rfl

variable {e : θ → Executor ι} {empty : ε} {clock : ℕ → Bool}

/-- The timeout is over at some time. -/
def Over (clock : ℕ → Bool) : Prop := ∃ k, clock k

lemma returns_expired :
    Returns (functional e empty clock : Target _ ε ι θ).expired x fun b => b → Over clock :=
  fun n => ⟨clock n,n+1,rfl,fun h => ⟨n,h⟩⟩

lemma returns_trace {inputs : List ι} (hne : inputs ≠ []) :
    Returns ((functional e empty clock : Target _ ε ι θ).traceTestCase inputs) x
      (· = x.traceTestCase inputs) := by
  intro n
  refine ⟨_,n,?_,rfl⟩
  dsimp only [functional]
  rw [if_neg (by simpa using hne)]

/-- What priming has come to, as the function gives it. -/
def Primed.of : Option (ι × ι) → Primed ι
  | none => .absorbed
  | some (current,input) => .survived current input

/-- The result of the function, unless the timeout is over. -/
def Agrees (clock : ℕ → Bool) (result : Option (ι × ι)) (primed : Primed ι) : Prop :=
  primed = .of result ∨ primed = .expired ∧ Over clock

lemma returns_tryPriming {inputs : List ι} {h : HTrace} {k : ℕ} {ids : List ℕ}
    {result : Option (ι × ι)} (hr : Fuzzer.tryPriming x inputs h k ids = some result) :
    Returns ((functional e empty clock : Target _ ε ι θ).tryPriming inputs h k ids) x
      (Agrees clock result) := by
  induction ids with
  | nil =>
    cases hr
    exact .pure (.inl rfl)
  | cons id ids ih =>
    obtain ⟨input,hinput,hr⟩ := Option.bind_eq_some_iff.mp hr
    obtain ⟨primedHtrace,hprimed,hr⟩ := Option.bind_eq_some_iff.mp hr
    refine returns_expired.bind fun overdue hover => ?_
    by_cases late : overdue
    · rw [if_pos late]
      exact .pure (.inr ⟨rfl,hover late⟩)
    · rw [if_neg late]
      have primer : (inputs.take (k+1)).set k input ≠ [] := by
        rw [Ne,List.set_eq_nil_iff,List.take_eq_nil_iff]
        rintro (hk | rfl)
        · cases hk
        · cases hinput
      refine (returns_attempt hinput).bind fun _ hi => ?_
      subst hi
      refine (returns_trace primer).bind fun _ ht => ?_
      subst ht
      refine (returns_attempt hprimed).bind fun _ hp => ?_
      subst hp
      split_ifs at hr ⊢ with failed same
      · exact ih hr
      · exact ih hr
      · obtain ⟨current,hcurrent,hr⟩ := Option.bind_eq_some_iff.mp hr
        cases hr
        refine Returns.bind (P := fun _ => True) (fun n => ⟨(),n,rfl,trivial⟩) fun _ _ => ?_
        refine (returns_attempt hcurrent).bind fun _ hc => ?_
        subst hc
        exact .pure (.inl rfl)

lemma returns_primeGroups {v : EquivalenceClass ι} {inputs : List ι} {groups : HTraceMap ι}
    {result : Option (ι × ι)} (hr : Fuzzer.primeGroups x v inputs groups = some result) :
    Returns ((functional e empty clock : Target _ ε ι θ).primeGroups v inputs groups) x
      (Agrees clock result) := by
  induction groups with
  | nil =>
    cases hr
    exact .pure (.inl rfl)
  | cons group rest ih =>
    obtain ⟨last,hlast,hr⟩ := Option.bind_eq_some_iff.mp hr
    obtain ⟨tried,htried,hr⟩ := Option.bind_eq_some_iff.mp hr
    refine (returns_attempt hlast).bind fun _ hl => ?_
    subst hl
    refine (returns_tryPriming htried).bind fun primed hprimed => ?_
    rcases hprimed with rfl | ⟨rfl,overdue⟩
    · cases tried with
      | none => exact ih hr
      | some pair =>
        cases hr
        exact .pure (.inl rfl)
    · exact .pure (.inr ⟨rfl,overdue⟩)

/-- A pair is one that the function gives; and it is found if there is time. -/
lemma returns_survivesPriming {v : EquivalenceClass ι} {inputs : List ι} {result : Option (ι × ι)}
    (hr : Fuzzer.survivesPriming x v inputs = some result) :
    Returns ((functional e empty clock : Target _ ε ι θ).survivesPriming v inputs) x
      fun pair => pair = result ∨ pair = none ∧ Over clock := by
  refine Returns.bind (P := fun _ => True) (fun n => ⟨(),n,rfl,trivial⟩) fun _ _ => ?_
  refine (returns_primeGroups hr).bind fun primed hprimed => ?_
  rcases hprimed with rfl | ⟨rfl,overdue⟩
  · cases result with
    | none =>
      refine Returns.bind (P := fun _ => True) (fun n => ⟨(),n,rfl,trivial⟩) fun _ _ => ?_
      exact .pure (.inl rfl)
    | some pair => exact .pure (.inl rfl)
  · exact .pure (.inr ⟨rfl,overdue⟩)

lemma returns_detect (hx : ∀ xs, x.bugged xs = false) {r : Round ι} (hne : ∀ n, r.boosted n ≠ [])
    {ns : List ℕ}
    {found : List (EquivalenceClass ι) × List ι}
    {result : Option (List (EquivalenceClass ι) × List ι)}
    (hr : Fuzzer.detect r x ns found = some result) :
    Returns ((functional e empty clock : Target _ ε ι θ).detect r ns found) x (· = result) := by
  induction ns generalizing found with
  | nil =>
    cases hr
    exact .pure rfl
  | cons n ns ih =>
    rw [detect_cons r hx] at hr
    refine (returns_trace (hne n)).bind fun _ ht => ?_
    subst ht
    refine Returns.bind (P := (· = false)) (.pure rfl) fun _ hb => ?_
    subst hb
    rw [if_neg Bool.false_ne_true]
    split at hr
    · cases hr
      rw [if_pos ‹_›]
      exact .pure rfl
    · obtain ⟨violations,hviolations,hr⟩ := Option.bind_eq_some_iff.mp hr
      rw [if_neg ‹_›]
      refine (returns_attempt hviolations).bind fun _ hv => ?_
      subst hv
      split at hr
      · cases hr
        rw [if_pos ‹_›]
        exact .pure rfl
      · rw [if_neg ‹_›]
        split at hr
        · cases hr
          rw [if_pos ‹_›]
          exact .pure rfl
        · rw [if_neg ‹_›]
          exact ih hr

/-- What is returned has survived, and without a timeout it is what the function gives. -/
lemma returns_primeViolations (hx : x.Causal) {inputs : List ι} {ctraces : List CTrace}
    {vs : List (EquivalenceClass ι)}
    (hvs : ∀ v ∈ vs, ClassOf inputs ctraces (x.traceTestCase inputs) v) :
    Returns ((functional e empty clock : Target _ ε ι θ).primeViolations inputs vs) x fun y =>
      (∀ v, y = some v → v ∈ vs ∧ Survives x inputs v) ∧
      (¬Over clock → Fuzzer.primeViolations x inputs vs = some y) := by
  induction vs with
  | nil => exact .pure ⟨nofun,fun _ => rfl⟩
  | cons v vs ih =>
    rw [List.forall_mem_cons] at hvs
    have rest : ∀ {y : Option (EquivalenceClass ι)}, (∀ w, y = some w → w ∈ vs ∧ Survives x inputs w) →
        ∀ w, y = some w → w ∈ v :: vs ∧ Survives x inputs w :=
      fun h w hw => ⟨List.mem_cons_of_mem _ (h w hw).1,(h w hw).2⟩
    rcases survivesPriming_cases hx hvs.1 with ⟨survives,⟨p,hp⟩,-⟩ | ⟨-,hp⟩
    · refine (returns_survivesPriming hp).bind fun pair hpair => ?_
      rcases hpair with rfl | ⟨rfl,overdue⟩
      · refine .pure ⟨?_,fun _ => ?_⟩
        · rintro w ⟨⟩
          exact ⟨List.mem_cons_self,survives⟩
        · rw [Fuzzer.primeViolations,hp]
          rfl
      · exact (ih hvs.2).mono fun y hy => ⟨rest hy.1,fun h => absurd overdue h⟩
    · refine (returns_survivesPriming hp).bind fun pair hpair => ?_
      have none : pair = none := by
        rcases hpair with rfl | ⟨rfl,-⟩
        · rfl
        · rfl
      subst none
      refine (ih hvs.2).mono fun y hy => ⟨rest hy.1,fun h => ?_⟩
      rw [Fuzzer.primeViolations,hp]
      exact hy.2 h

/-- Two inputs of the round with the class's contract trace, which the executor tells apart behind
one prefix. -/
def Violates (r : Round ι) (x : Executor ι) (v : EquivalenceClass ι) : Prop :=
  ∃ k m a b, Separates x (r.boosted r.lastNesting)
    (r.traceTestCase (r.boosted r.lastNesting) r.lastNesting) v.ctrace k m a b

/-- What a round may return: violations only, and without a timeout what the round has to report. -/
structure Right (r : Round ι) (x : Executor ι) (clock : ℕ → Bool) (y : Option (EquivalenceClass ι)) :
    Prop where
  sound : ∀ v, y = some v → Violates r x v ∧ isViolation (some v)
  complete : ¬Over clock → ∀ v, y = some v ↔ Reports r x v

lemma Survives.isViolation {inputs : List ι} {v : EquivalenceClass ι} (h : Survives x inputs v) :
    isViolation (some v) := by
  obtain ⟨_,_,_,m,_,_,hm,_,_⟩ := h
  simpa [Fuzzer.isViolation] using List.ne_nil_of_mem hm

/-- A round over functions. -/
lemma fuzzingRound_right {r : Round ι} {case : θ} (h : Regular r (e case))
    (hne : ∀ n, r.boosted n ≠ []) (s : Ticking ι) :
    ∃ y s', (functional e empty clock : Target _ ε ι θ).fuzzingRound case r s = (.ok y,s') ∧
      Right r (e case) clock y := by
  obtain ⟨result,hresult,reports⟩ := h.fuzzingRound
  have loaded : (functional e empty clock : Target _ ε ι θ).loadTestCase case s =
    (.ok (),⟨some (e case),s.reads⟩) := rfl
  have detects : ∀ {found}, Fuzzer.detect r (e case) [1,r.modelMaxNesting] ([],[]) = some found →
      Returns ((functional e empty clock : Target _ ε ι θ).detect r [1,r.modelMaxNesting] ([],[])) (e case)
        (· = found) := fun hd => returns_detect h.runs hne hd
  rw [Target.fuzzingRound,bind_ok loaded]
  rcases h.detect_cases with ⟨hd,-⟩ | ⟨vs,hd,-,-,hvs⟩
  · obtain ⟨_,n,hn,rfl⟩ := detects hd s.reads
    rw [Fuzzer.fuzzingRound,hd] at hresult
    cases hresult
    refine ⟨none,_,bind_ok hn,?_,fun _ => reports⟩
    intro v hv
    cases hv
  · obtain ⟨_,n,hn,rfl⟩ := detects hd s.reads
    obtain ⟨vs',hvs',classes⟩ := h.violations r.lastNesting
    obtain rfl := Option.some.inj (hvs.symm.trans hvs')
    have classes' : ∀ v ∈ vs.reverse, ClassOf _ _ _ v :=
      fun v hv => classes v (List.mem_reverse.mp hv)
    have primes : Returns ((functional e empty clock : Target _ ε ι θ).primeViolations
        (r.boosted r.lastNesting) vs.reverse) (e case) _ := returns_primeViolations h.causal classes'
    obtain ⟨y,n',hy,sound,complete⟩ := primes n
    refine ⟨y,⟨some (e case),n'⟩,(bind_ok hn).trans ?_,?_,?_⟩
    · dsimp only
      rw [h.primes]
      exact hy
    · intro v hv
      obtain ⟨hmem,survives⟩ := sound v hv
      refine ⟨?_,survives.isViolation⟩
      rcases survivesPriming_cases h.causal (classes' v hmem) with ⟨-,-,separates⟩ | ⟨fails,-⟩
      · exact separates
      · exact absurd survives fails
    · intro never
      have same : result = y := by
        have pure := complete never
        rw [Fuzzer.fuzzingRound,hd] at hresult
        simp only [Option.bind_eq_bind,Option.bind_some,h.primes,Bool.false_eq_true,if_false] at hresult
        exact Option.some.inj (hresult.symm.trans pure)
      rw [← same]
      exact reports

end Functions

/-! ### Whole campaigns -/

section Whole
variable {τ ε ι θ : Type}

/-- After a round with this result nothing more is done, whatever the time. -/
def Campaign.Stops (c : Campaign ι θ) (i : ℕ) (y : Option (EquivalenceClass ι)) : Prop :=
  (isViolation y ∧ c.nonstop = false) ∨ (c.round i).existingInputCase

/-- The results of the rounds from `i` on, if so many are left. -/
inductive Results (c : Campaign ι θ) (P : ℕ → Option (EquivalenceClass ι) → Prop) (overdue : Prop) :
    ℕ → ℕ → List (Option (EquivalenceClass ι)) → Prop
  | finished {i} : Results c P overdue i 0 []
  | stopped {i m y} (right : P i y) (stops : c.Stops i y ∨ overdue) : Results c P overdue i (m+1) [y]
  | next {i m y ys} (right : P i y) (goesOn : ¬c.Stops i y) (tail : Results c P overdue (i+1) m ys) :
      Results c P overdue i (m+1) (y :: ys)

/-- The counters after some results. -/
def Outcome.after (ys : List (Option (EquivalenceClass ι))) : Outcome ι :=
  ys.zipIdx.foldl (fun o p => o.add p.2 p.1) {}

lemma Outcome.after_concat (ys : List (Option (EquivalenceClass ι)))
    (y : Option (EquivalenceClass ι)) :
    Outcome.after (ys ++ [y]) = (Outcome.after ys).add ys.length y := by
  simp [Outcome.after,List.zipIdx_append]

/-- The loop of `start`. -/
lemma rounds_results {t : Target τ ε ι θ} {c : Campaign ι θ}
    {P : ℕ → Option (EquivalenceClass ι) → Prop} {overdue : Prop}
    (hround : ∀ i s, ∃ y s', t.fuzzingRound (c.testCase i) (c.round i) s = (.ok y,s') ∧ P i y)
    (hexpired : ∀ s, ∃ b s', t.expired s = (.ok b,s') ∧ (b → overdue)) (m : ℕ)
    (old : List (Option (EquivalenceClass ι))) (s : τ) :
    ∃ ys s', rounds t c (List.range' old.length m) (.after old) s = (.ok (.after (old ++ ys)),s') ∧
      Results c P overdue old.length m ys := by
  induction m generalizing old s with
  | zero =>
    refine ⟨[],s,?_,.finished⟩
    rw [List.append_nil]
    rfl
  | succ m ih =>
    obtain ⟨y,s₁,hy,right⟩ := hround old.length s
    rw [List.range'_succ,rounds,bind_ok hy,← Outcome.after_concat]
    by_cases found : isViolation y && !c.nonstop
    · rw [if_pos found]
      exact ⟨[y],s₁,rfl,.stopped right (.inl (.inl (by simpa using found)))⟩
    · rw [if_neg found]
      obtain ⟨b,s₂,hb,hover⟩ := hexpired s₁
      rw [bind_ok hb]
      by_cases late : b
      · rw [if_pos late]
        exact ⟨[y],s₂,rfl,.stopped right (.inr (hover late))⟩
      · rw [if_neg late]
        by_cases existing : (c.round old.length).existingInputCase
        · rw [if_pos existing]
          exact ⟨[y],s₂,rfl,.stopped right (.inl (.inr existing))⟩
        · rw [if_neg existing]
          obtain ⟨ys,s₃,hys,tail⟩ := ih (old ++ [y]) s₂
          rw [List.length_append,List.length_singleton] at hys tail
          refine ⟨y :: ys,s₃,?_,.next right ?_ tail⟩
          · rw [hys,List.append_assoc,List.singleton_append]
          · rintro (stops | stops)
            · exact found (by simpa using stops)
            · exact existing stops

section Outcomes
variable {ys : List (Option (EquivalenceClass ι))}

@[simp] lemma Outcome.after_testCases : (Outcome.after ys).testCases = ys.length := by
  induction ys using List.reverseRecOn with
  | nil => rfl
  | append_singleton ys y ih => simp [Outcome.after_concat,Outcome.add,ih]

lemma Outcome.after_violation : (Outcome.after ys).violation = ys.getLast? := by
  induction ys using List.reverseRecOn with
  | nil => rfl
  | append_singleton ys y ih => simp [Outcome.after_concat,Outcome.add]

/-- A round is reported if its result is a violation. -/
lemma Outcome.add_reports {o : Outcome ι} {i : ℕ} {y : Option (EquivalenceClass ι)}
    (hy : ∀ v, y = some v → isViolation (some v)) :
    (o.add i y).reports = o.reports ++ y.toList.map (i,·) ∧
      (o.add i y).violations = o.violations+y.toList.length := by
  cases y with
  | none => simp [Outcome.add,isViolation]
  | some v => simp [Outcome.add,hy v rfl]

lemma Outcome.after_reports (h : ∀ v, some v ∈ ys → isViolation (some v)) :
    (∀ i v, (i,v) ∈ (Outcome.after ys).reports ↔ ys[i]? = some (some v)) ∧
      (Outcome.after ys).violations = (Outcome.after ys).reports.length ∧
      ((Outcome.after ys).reports.map Prod.fst).Pairwise (· < ·) := by
  induction ys using List.reverseRecOn with
  | nil => exact ⟨fun i v => by simp [Outcome.after],rfl,.nil⟩
  | append_singleton ys y ih =>
    obtain ⟨reports,violations,ordered⟩ := ih fun v hv => h v (List.mem_append_left _ hv)
    have last : ∀ v, y = some v → isViolation (some v) := fun v hv => h v (by simp [hv])
    rw [Outcome.after_concat,(Outcome.add_reports last).1,(Outcome.add_reports last).2]
    refine ⟨fun i v => ?_,?_,?_⟩
    · rw [List.mem_append,reports,List.getElem?_append]
      by_cases hi : i<ys.length
      · rw [if_pos hi]
        have other : (i,v) ∉ y.toList.map (ys.length,·) := by
          simp
          omega
        simp [other]
      · rw [if_neg hi,List.getElem?_eq_none (by omega)]
        by_cases hlast : i=ys.length
        · subst hlast
          simp
        · have past : [y][i-ys.length]? = none := List.getElem?_eq_none (by simp; omega)
          rw [past]
          simp
          omega
    · simp [violations]
    · rw [List.map_append,List.pairwise_append]
      refine ⟨ordered,?_,?_⟩
      · cases y <;> simp
      · intro i hi j hj
        obtain ⟨⟨i',v⟩,hmem,rfl⟩ := List.mem_map.mp hi
        have inside := (List.getElem?_eq_some_iff.mp ((reports i' v).mp hmem)).1
        have hj : j = ys.length := by
          cases y with
          | none => simp at hj
          | some w => simpa using hj
        rw [hj]
        exact inside

end Outcomes

/-- What a campaign comes to that no timeout ends: the reports are those of its rounds, it ends with
the round that it has to stop after, and the last message is true. -/
structure Exact (c : Campaign ι θ) (Reported : ℕ → EquivalenceClass ι → Prop) (o : Outcome ι)
    (message : Message) : Prop where
  some : 0<o.testCases
  within : o.testCases ≤ c.numTestCases
  reports : ∀ i v, (i,v) ∈ o.reports ↔ i<o.testCases ∧ Reported i v
  ordered : (o.reports.map Prod.fst).Pairwise (· < ·)
  violations : o.violations = o.reports.length
  goesOn : ∀ i, i+1<o.testCases →
    (c.round i).existingInputCase = false ∧ (c.nonstop ∨ ∀ v, ¬Reported i v)
  stops : o.testCases<c.numTestCases → (c.round (o.testCases-1)).existingInputCase ∨
    c.nonstop = false ∧ ∃ v, Reported (o.testCases-1) v
  message : message = .without ↔ o.reports = []

section Exactness
variable {c : Campaign ι θ} {P : ℕ → Option (EquivalenceClass ι) → Prop} {overdue : Prop} {i m : ℕ}
  {ys : List (Option (EquivalenceClass ι))}

lemma Results.length (h : Results c P overdue i m ys) : ys.length ≤ m ∧ (0 < m → 0<ys.length) := by
  induction h with
  | finished => simp
  | stopped => simp
  | next _ _ _ ih => simp [ih.1]

lemma Results.right (h : Results c P overdue i m ys) :
    ∀ j y, ys[j]? = Option.some y → P (i+j) y := by
  induction h with
  | finished => exact fun _ _ => nofun
  | stopped right _ =>
    intro j y hj
    cases j with
    | zero =>
      cases hj
      exact right
    | succ j => cases hj
  | next right _ _ ih =>
    intro j y hj
    cases j with
    | zero =>
      cases hj
      exact right
    | succ j =>
      rw [Nat.add_comm j,← Nat.add_assoc]
      exact ih j y hj

lemma Results.goesOn (h : Results c P overdue i m ys) :
    ∀ j y, ys[j]? = Option.some y → j+1<ys.length → ¬c.Stops (i+j) y := by
  induction h with
  | finished => exact fun _ _ => nofun
  | stopped =>
    intro j y _ hlt
    simp at hlt
  | next _ goesOn _ ih =>
    intro j y hj hlt
    cases j with
    | zero =>
      cases hj
      exact goesOn
    | succ j =>
      rw [Nat.add_comm j,← Nat.add_assoc]
      exact ih j y hj (by simpa using hlt)

lemma Results.stops (h : Results c P overdue i m ys) (hlt : ys.length < m) :
    ∃ y, ys[ys.length-1]? = Option.some y ∧ (c.Stops (i+(ys.length-1)) y ∨ overdue) := by
  induction h with
  | finished => exact absurd hlt (Nat.lt_irrefl 0)
  | stopped _ stops => exact ⟨_,rfl,stops⟩
  | @next i m y ys _ _ tail ih =>
    have hlt : ys.length < m := by simpa using hlt
    obtain ⟨z,hz,hstops⟩ := ih hlt
    have positive := tail.length.2 (by omega)
    obtain ⟨n,hn⟩ := Nat.exists_eq_succ_of_ne_zero positive.ne'
    refine ⟨z,?_,?_⟩
    · rw [hn] at hz
      simpa [hn] using hz
    · rw [hn] at hstops
      rw [List.length_cons,hn]
      rwa [show i+(n.succ+1-1) = i+1+(n.succ-1) by omega]

/-- The counters of results that are those of their rounds. -/
lemma Results.exact {Reported : ℕ → EquivalenceClass ι → Prop}
    (h : Results c P False 0 c.numTestCases ys) (hN : 0<c.numTestCases)
    (violates : ∀ v, Option.some v ∈ ys → isViolation (Option.some v))
    (hP : ∀ i y, P i y → ∀ v, y = Option.some v ↔ Reported i v) {y : Option (EquivalenceClass ι)}
    (hlast : ys.getLast? = Option.some y) :
    Exact c Reported (.after ys) ((Outcome.after ys).message y) := by
  obtain ⟨reports,violations,ordered⟩ := Outcome.after_reports violates
  have result : ∀ j v, j<ys.length → (ys[j]? = Option.some (Option.some v) ↔ Reported j v) := by
    intro j v hj
    obtain ⟨y,hy⟩ : ∃ y, ys[j]? = Option.some y := ⟨_,List.getElem?_eq_getElem hj⟩
    have right := hP _ y (h.right j y hy) v
    rw [Nat.zero_add] at right
    rw [hy,← right,Option.some.injEq]
  have some := h.length.2 hN
  refine ⟨?_,?_,?_,ordered,violations,?_,?_,?_⟩
  · rwa [Outcome.after_testCases]
  · rw [Outcome.after_testCases]
    exact h.length.1
  · intro j v
    rw [reports,Outcome.after_testCases]
    constructor
    · intro hj
      have inside := (List.getElem?_eq_some_iff.mp hj).1
      exact ⟨inside,(result j v inside).mp hj⟩
    · exact fun hj => (result j v hj.1).mpr hj.2
  · intro j hj
    rw [Outcome.after_testCases] at hj
    obtain ⟨y,hy⟩ : ∃ y, ys[j]? = Option.some y := ⟨_,List.getElem?_eq_getElem (by omega)⟩
    have goesOn := h.goesOn j y hy hj
    rw [Nat.zero_add,Campaign.Stops,not_or] at goesOn
    refine ⟨by simpa using goesOn.2,?_⟩
    by_cases nonstop : c.nonstop
    · exact .inl nonstop
    · refine .inr fun v hv => goesOn.1 ?_
      have hv := (result j v (by omega)).mpr hv
      obtain rfl := Option.some.inj (hy.symm.trans hv)
      exact ⟨violates v (List.mem_of_getElem? hv),by simpa using nonstop⟩
  · intro hlt
    rw [Outcome.after_testCases] at hlt ⊢
    obtain ⟨y,hy,hstops⟩ := h.stops hlt
    rw [Nat.zero_add,or_false] at hstops
    rcases hstops with ⟨found,nonstop⟩ | existing
    · cases y with
      | none => cases found
      | some v => exact .inr ⟨nonstop,v,(result _ v (by omega)).mp hy⟩
    · exact .inl existing
  · rw [Outcome.message]
    by_cases found : isViolation y
    · cases y with
      | none => cases found
      | some v =>
        have last : ys[ys.length-1]? = Option.some (Option.some v) := by
          rw [← List.getLast?_eq_getElem?]
          exact hlast
        have reported := List.ne_nil_of_mem ((reports _ v).mpr last)
        simp [found,reported]
    · rw [if_neg found,violations,← List.length_eq_zero_iff]
      by_cases none : (Outcome.after ys).reports.length = 0
      · simp [none]
      · simp [none]

/-- A campaign over functions. -/
lemma start_functional {ε : Type} {e : θ → Executor ι}
    (h : ∀ i, Regular (c.round i) (e (c.testCase i))) (hne : ∀ i n, (c.round i).boosted n ≠ [])
    (hN : 0<c.numTestCases) (empty : ε) (clock : ℕ → Bool) (s : Ticking ι) : ∃ o message s',
      start (functional e empty clock : Target _ ε ι θ) c s = (.ok (o,message),s') ∧
      (∀ i v, (i,v) ∈ o.reports → Violates (c.round i) (e (c.testCase i)) v) ∧
      (¬Over clock → Exact c (fun i => Reports (c.round i) (e (c.testCase i))) o message) := by
  have hround : ∀ i (s : Ticking ι), ∃ y s', (functional e empty clock : Target _ ε ι θ).fuzzingRound
      (c.testCase i) (c.round i) s = (.ok y,s') ∧ Right (c.round i) (e (c.testCase i)) clock y :=
    fun i s => fuzzingRound_right (h i) (hne i) s
  have hexpired : ∀ s : Ticking ι, ∃ b s',
      (functional e empty clock : Target _ ε ι θ).expired s = (.ok b,s') ∧ (b → Over clock) :=
    fun s => ⟨clock s.reads,_,rfl,fun hb => ⟨s.reads,hb⟩⟩
  obtain ⟨ys,s',hrun,results⟩ := rounds_results hround hexpired c.numTestCases [] s
  rw [List.nil_append,List.length_nil] at hrun
  rw [List.length_nil] at results
  have right := results.right
  have violates : ∀ v, Option.some v ∈ ys → isViolation (Option.some v) := by
    intro v hv
    obtain ⟨j,hj⟩ := List.mem_iff_getElem?.mp hv
    exact ((right j _ hj).sound v rfl).2
  obtain ⟨y,hy⟩ : ∃ y, ys.getLast? = Option.some y :=
    ⟨_,List.getLast?_eq_some_getLast (List.ne_nil_of_length_pos (results.length.2 hN))⟩
  refine ⟨.after ys,(Outcome.after ys).message y,s',?_,?_,fun never => ?_⟩
  · have finished : (Outcome.after ys).finish s' =
        ((.ok ((Outcome.after ys).message y),s') : Except (Failure ε) Message × Ticking ι) := by
      rw [Outcome.finish,Outcome.after_violation,hy]
      rfl
    rw [start,List.range_eq_range']
    exact (bind_ok hrun).trans (bind_ok finished)
  · intro i v hv
    have result := ((Outcome.after_reports violates).1 i v).mp hv
    have sound := ((right i _ result).sound v rfl).1
    rwa [Nat.zero_add] at sound
  · rw [eq_false never] at results
    exact results.exact hN violates (fun i y hi => hi.complete never) hy

end Exactness

end Whole

end ProteanAmulet.Fuzzer
