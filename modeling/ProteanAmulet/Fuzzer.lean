import ProteanAmulet.Analyser

/-! Priming and the fuzzing round. A violation found by the analyser is re-measured with the
other inputs of its class put into the same position of the input sequence, so that both
hardware traces are taken in one microarchitectural context. Timeouts, debug files and
statistics are not modelled. -/
namespace ProteanAmulet
open EquivalenceAnalyser
variable {ι : Type}

/-- The executor: the hardware traces of a sequence of inputs, and whether gem5 failed on it. -/
structure Executor (ι : Type) where
  traceTestCase : List ι → List HTrace
  bugged : List ι → Bool := fun _ => false

/-- Deterministic and causal: the trace at a position is a function of the inputs up to it. -/
structure Executor.Causal (e : Executor ι) : Prop where
  length : ∀ xs, (e.traceTestCase xs).length = xs.length
  causal : ∀ xs ys k, xs.take (k+1) = ys.take (k+1) →
    (e.traceTestCase xs)[k]? = (e.traceTestCase ys)[k]?

lemma prefix_eq (inputs : List ι) {k : ℕ} {a : ι} (hk : inputs[k]? = some a) :
    inputs.take k ++ [a] = inputs.take (k+1) := by
  obtain ⟨hlt,rfl⟩ := List.getElem?_eq_some_iff.mp hk
  exact (List.take_succ_eq_append_getElem hlt).symm

/-- The recorded trace of `a` is the one the executor gives on the prefix that ends in it. -/
lemma Executor.Causal.trace_prefix {e : Executor ι} (he : e.Causal) {inputs : List ι} {k : ℕ}
    {a : ι} (hk : inputs[k]? = some a) :
    (e.traceTestCase (inputs.take k ++ [a]))[k]? = (e.traceTestCase inputs)[k]? := by
  rw [prefix_eq inputs hk]
  apply he.causal
  rw [List.take_take,Nat.min_self]

lemma Executor.Causal.trace_isSome {e : Executor ι} (he : e.Causal) (inputs : List ι) {k : ℕ}
    (hk : k < inputs.length) (b : ι) :
    ∃ h, (e.traceTestCase (inputs.take k ++ [b]))[k]? = some h := by
  have hl : k<(e.traceTestCase (inputs.take k ++ [b])).length := by
    rw [he.length]
    simp [Nat.min_eq_left hk.le]
  exact ⟨_,List.getElem?_eq_getElem hl⟩

namespace Fuzzer

/-- The inner loop of `survives_priming`: the inputs `ids` are put in turn at position
`currentInputId`. The outer `Option` is a Python exception. -/
def tryPriming (e : Executor ι) (allInputs : List ι) (currentHtrace : HTrace)
    (currentInputId : ℕ) : List ℕ → Option (Option (ι × ι))
  | [] => some none
  | inputId :: ids => do
    let input ← allInputs[inputId]?
    let primer := (allInputs.take (currentInputId+1)).set currentInputId input
    let primedHtrace ← (e.traceTestCase primer)[currentInputId]?
    if primedHtrace = 0 then tryPriming e allInputs currentHtrace currentInputId ids
    else if primedHtrace = currentHtrace then
      tryPriming e allInputs currentHtrace currentInputId ids
    else
      let current ← allInputs[currentInputId]?
      return some (current,input)

/-- The outer loop, over the groups of the class's htrace map. -/
def primeGroups (e : Executor ι) (violation : EquivalenceClass ι) (allInputs : List ι) :
    HTraceMap ι → Option (Option (ι × ι))
  | [] => some none
  | (currentHtrace,group) :: rest => do
    let last ← group.getLast?
    let inputIdsToTest := (violation.measurements.filter (·.htrace ≠ currentHtrace)).map
      (·.inputId)
    match ← tryPriming e allInputs currentHtrace last.inputId inputIdsToTest with
    | some pair => return some pair
    | none => primeGroups e violation allInputs rest

def survivesPriming (e : Executor ι) (violation : EquivalenceClass ι) (allInputs : List ι) :
    Option (Option (ι × ι)) :=
  primeGroups e violation allInputs violation.htraceMap

/-- The options and the other modules a round depends on. -/
structure Round (ι : Type) where
  existingInputCase : Bool := false
  existingTestCase : Bool := false
  seqClause : Bool := false
  noPriming : Bool := false
  permitSubsets : Bool := true
  modelMaxNesting : ℕ := 5
  inputs : List ι
  boostInputs : List ι → ℕ → List ι
  traceTestCase : List ι → ℕ → List CTrace

/-- The inputs that are run with a nesting bound. -/
def Round.boosted (r : Round ι) (nesting : ℕ) : List ι :=
  if r.existingInputCase then r.inputs else r.boostInputs r.inputs nesting

/-- The detection loop over the nesting bounds: `some none` where the round returns early. -/
def detect (r : Round ι) (e : Executor ι) : List ℕ → List (EquivalenceClass ι) × List ι →
    Option (Option (List (EquivalenceClass ι) × List ι))
  | [], found => some (some found)
  | nesting :: rest, _ =>
    let boosted := if r.existingInputCase then r.inputs else r.boostInputs r.inputs nesting
    let ctraces := r.traceTestCase boosted nesting
    let htraces := e.traceTestCase boosted
    if e.bugged boosted then some none
    else if r.existingInputCase && r.existingTestCase then some none
    else (filterViolations r.permitSubsets boosted ctraces htraces).bind fun violations =>
      if violations.isEmpty then some none
      else if r.seqClause then some (some (violations,boosted))
      else detect r e rest (violations,boosted)

/-- `while violations: violation = violations.pop()`, on the reversed list. -/
def primeViolations (e : Executor ι) (boosted : List ι) :
    List (EquivalenceClass ι) → Option (Option (EquivalenceClass ι))
  | [] => some none
  | violation :: rest => do
    match ← survivesPriming e violation boosted with
    | some _ => return some violation
    | none => primeViolations e boosted rest

def fuzzingRound (r : Round ι) (e : Executor ι) : Option (Option (EquivalenceClass ι)) := do
  match ← detect r e [1,r.modelMaxNesting] ([],[]) with
  | none => return none
  | some (violations,boosted) =>
    if r.noPriming then return violations.getLast?
    else primeViolations e boosted violations.reverse

/-! ### Soundness and completeness of priming -/

/-- Inputs `a` at `k` and `b` at `m` have contract trace `c`, and the executor separates them
at position `k` behind the same prefix. -/
def Separates (e : Executor ι) (inputs : List ι) (ctraces : List CTrace) (c : CTrace)
    (k m : ℕ) (a b : ι) : Prop :=
  inputs[k]? = some a ∧ inputs[m]? = some b ∧ ctraces[k]? = some c ∧ ctraces[m]? = some c ∧
    ∃ h h', (e.traceTestCase (inputs.take k ++ [a]))[k]? = some h ∧
      (e.traceTestCase (inputs.take k ++ [b]))[k]? = some h' ∧ h ≠ 0 ∧ h' ≠ 0 ∧ h ≠ h'

/-- Putting `b` at position `k` reproduced the trace `h` or failed. -/
def Absorbs (e : Executor ι) (inputs : List ι) (h : HTrace) (k : ℕ) (b : ι) : Prop :=
  ∃ h', (e.traceTestCase (inputs.take k ++ [b]))[k]? = some h' ∧ (h'=h ∨ h'=0)

lemma primer_eq (inputs : List ι) {k : ℕ} (hk : k < inputs.length) (b : ι) :
    (inputs.take (k+1)).set k b = inputs.take k ++ [b] := by
  rw [List.take_succ_eq_append_getElem hk,List.set_append_right _ _ (by simp)]
  simp [Nat.min_eq_left hk.le]

/-- The inner loop tries every id, until one is separated. -/
lemma tryPriming_spec {e : Executor ι} (he : e.Causal) (inputs : List ι) (h : HTrace) {k : ℕ}
    {a : ι} (hk : inputs[k]? = some a) (ids : List ℕ) (hids : ∀ m ∈ ids, m < inputs.length) :
    (∃ m ∈ ids, ∃ b h', inputs[m]? = some b ∧ tryPriming e inputs h k ids = some (some (a,b)) ∧
      (e.traceTestCase (inputs.take k ++ [b]))[k]? = some h' ∧ h' ≠ 0 ∧ h' ≠ h) ∨
    (tryPriming e inputs h k ids = some none ∧
      ∀ m ∈ ids, ∀ b, inputs[m]? = some b → Absorbs e inputs h k b) := by
  have hlt : k < inputs.length := (List.getElem?_eq_some_iff.mp hk).1
  induction ids with
  | nil => exact Or.inr ⟨rfl,by simp⟩
  | cons m ids ih =>
    have hm : m < inputs.length := hids m List.mem_cons_self
    have hb : inputs[m]? = some inputs[m] := List.getElem?_eq_getElem hm
    obtain ⟨h',hh'⟩ := he.trace_isSome inputs hlt inputs[m]
    have hstep : tryPriming e inputs h k (m :: ids) =
        if h'=0 then tryPriming e inputs h k ids
        else if h'=h then tryPriming e inputs h k ids
        else some (some (a,inputs[m])) := by
      rw [tryPriming,hb]
      simp only [Option.bind_eq_bind,Option.bind_some,primer_eq inputs hlt,hh',hk]
      rfl
    -- either the new id separates, or both loops continue alike
    by_cases hsep : h' ≠ 0 ∧ h' ≠ h
    · refine Or.inl ⟨m,List.mem_cons_self,inputs[m],h',hb,?_,hh',hsep.1,hsep.2⟩
      rw [hstep,if_neg hsep.1,if_neg hsep.2]
    · have habs : h'=h ∨ h'=0 := by tauto
      have hcont : tryPriming e inputs h k (m :: ids) = tryPriming e inputs h k ids := by
        rw [hstep]
        split_ifs with h0 h1
        · rfl
        · rfl
        · exact absurd ⟨h0,h1⟩ hsep
      rw [hcont]
      rcases ih (fun m' hm' => hids m' (List.mem_cons_of_mem _ hm')) with
        ⟨m',hm',hrest⟩ | ⟨hnone,hall⟩
      · exact Or.inl ⟨m',List.mem_cons_of_mem _ hm',hrest⟩
      · refine Or.inr ⟨hnone,fun m' hm' b' hb' => ?_⟩
        rcases List.mem_cons.mp hm' with rfl | hm'
        · obtain rfl := Option.some.inj (hb.symm.trans hb')
          exact ⟨h',hh',habs⟩
        · exact hall m' hm' b' hb'

/-- The outer loop: a pair is separated behind a common prefix, and without a pair every
member has been absorbed by every group of another trace. -/
lemma primeGroups_spec {e : Executor ι} (he : e.Causal) {inputs : List ι}
    {ctraces : List CTrace} {c : EquivalenceClass ι}
    (hc : ClassOf inputs ctraces (e.traceTestCase inputs) c) (gs : HTraceMap ι)
    (hgs : ∀ x ∈ gs, x ∈ c.htraceMap) :
    (∃ k m a b, primeGroups e c inputs gs = some (some (a,b)) ∧
      Separates e inputs ctraces c.ctrace k m a b) ∨
    (primeGroups e c inputs gs = some none ∧ ∀ h g, (h,g) ∈ gs →
      ∀ last, g.getLast? = some last → ∀ m ∈ c.measurements, m.htrace ≠ h →
        Absorbs e inputs h last.inputId m.input) := by
  induction gs with
  | nil => exact Or.inr ⟨rfl,by simp⟩
  | cons x gs ih =>
    obtain ⟨h,g⟩ := x
    obtain ⟨last,hlast,hlm,hlh,h0⟩ := hc.representative (hgs _ List.mem_cons_self)
    obtain ⟨hk,-,hkh⟩ := hc.entries last hlm
    set ids := (c.measurements.filter (·.htrace ≠ h)).map (·.inputId) with hids
    have hmem : ∀ i ∈ ids, ∃ m ∈ c.measurements, m.htrace ≠ h ∧ m.inputId=i := by
      intro i hi
      obtain ⟨m,hm,rfl⟩ := List.mem_map.mp hi
      obtain ⟨hm,hne⟩ := List.mem_filter.mp hm
      exact ⟨m,hm,of_decide_eq_true hne,rfl⟩
    have hlt : ∀ i ∈ ids, i < inputs.length := by
      intro i hi
      obtain ⟨m,hm,-,rfl⟩ := hmem i hi
      exact (List.getElem?_eq_some_iff.mp (hc.entries m hm).1).1
    have hstep : primeGroups e c inputs ((h,g) :: gs) =
        (tryPriming e inputs h last.inputId ids).bind fun r => match r with
          | some pair => some (some pair)
          | none => primeGroups e c inputs gs := by
      rw [primeGroups,hlast]
      rfl
    rcases tryPriming_spec he inputs h hk ids hlt with
      ⟨i,hi,b,h',hb,htry,hh',h0',hne⟩ | ⟨hnone,hall⟩
    · obtain ⟨m,hm,-,rfl⟩ := hmem i hi
      refine Or.inl ⟨last.inputId,m.inputId,last.input,b,by rw [hstep,htry]; rfl,hk,hb,
        hc.ctrace_of_mem hlm,hc.ctrace_of_mem hm,h,h',?_,hh',h0,h0',fun he' => hne he'.symm⟩
      rw [he.trace_prefix hk,hkh,hlh]
    · have hcont : primeGroups e c inputs ((h,g) :: gs) = primeGroups e c inputs gs := by
        rw [hstep,hnone]
        rfl
      rw [hcont]
      refine (ih fun x hx => hgs x (List.mem_cons_of_mem _ hx)).imp_right ?_
      rintro ⟨hn,hrest⟩
      refine ⟨hn,fun h₁ g₁ hg₁ last₁ hl₁ m hm hne => ?_⟩
      rcases List.mem_cons.mp hg₁ with heq | hg₁
      · obtain ⟨rfl,rfl⟩ := Prod.mk.inj heq
        obtain rfl := Option.some.inj (hlast.symm.trans hl₁)
        refine hall m.inputId ?_ m.input (hc.entries m hm).1
        exact List.mem_map.mpr ⟨m,List.mem_filter.mpr ⟨hm,decide_eq_true hne⟩,rfl⟩
      · exact hrest h₁ g₁ hg₁ last₁ hl₁ m hm hne

/-- Every class of the filter satisfies `ClassOf`, with or without the subset option. -/
lemma classOf_of_filterViolations {inputs : List ι} {ctraces : List CTrace}
    {htraces : List HTrace} (hi : inputs.length=ctraces.length)
    (hh : htraces.length=ctraces.length) {permit : Bool} {vs : List (EquivalenceClass ι)}
    (hf : filterViolations permit inputs ctraces htraces = some vs) :
    ∀ v ∈ vs, ClassOf inputs ctraces htraces v := by
  obtain ⟨ms,cs,-,hcs,he⟩ := buildEquivalenceClasses_effective inputs ctraces htraces hi hh
  simp only [filterViolations,hcs,Option.bind_eq_bind,Option.bind_some] at hf
  obtain rfl := Option.some.inj hf
  exact fun v hv => he.classOf v (List.mem_filter.mp hv).1

lemma detect_spec {r : Round ι} {e : Executor ι} (he : e.Causal)
    (hr : ∀ xs n, (r.traceTestCase xs n).length = xs.length) (ns : List ℕ)
    (found : List (EquivalenceClass ι) × List ι) {vs : List (EquivalenceClass ι)}
    {boosted : List ι}
    (hfound : ∀ v ∈ found.1, ∃ n ∈ [1,r.modelMaxNesting], found.2 = r.boosted n ∧
      ClassOf found.2 (r.traceTestCase found.2 n) (e.traceTestCase found.2) v)
    (hns : ∀ n ∈ ns, n ∈ [1,r.modelMaxNesting])
    (hd : detect r e ns found = some (some (vs,boosted))) :
    ∀ v ∈ vs, ∃ n ∈ [1,r.modelMaxNesting], boosted = r.boosted n ∧
      ClassOf boosted (r.traceTestCase boosted n) (e.traceTestCase boosted) v := by
  induction ns generalizing found with
  | nil =>
    simp only [detect,Option.some.injEq] at hd
    subst hd
    exact hfound
  | cons n ns ih =>
    simp only [detect] at hd
    set bs := if r.existingInputCase then r.inputs else r.boostInputs r.inputs n
    by_cases hbug : e.bugged bs = true
    · simp [hbug] at hd
    by_cases hex : (r.existingInputCase && r.existingTestCase) = true
    · simp [hbug,hex] at hd
    rw [if_neg hbug,if_neg hex] at hd
    obtain ⟨ws,hfv,hd⟩ := Option.bind_eq_some_iff.mp hd
    have hcls := classOf_of_filterViolations (hr bs n).symm
      ((he.length bs).trans (hr bs n).symm) hfv
    have hn := hns n List.mem_cons_self
    by_cases hempty : ws.isEmpty = true
    · simp [hempty] at hd
    rw [if_neg hempty] at hd
    by_cases hseq : r.seqClause = true
    · rw [if_pos hseq,Option.some.injEq,Option.some.injEq,Prod.mk.injEq] at hd
      obtain ⟨rfl,rfl⟩ := hd
      exact fun v hv => ⟨n,hn,rfl,hcls v hv⟩
    · rw [if_neg hseq] at hd
      exact ih _ (fun v hv => ⟨n,hn,rfl,hcls v hv⟩)
        (fun n' hn' => hns n' (List.mem_cons_of_mem _ hn')) hd

lemma primeViolations_spec {e : Executor ι} (he : e.Causal) {boosted : List ι}
    (Ok : EquivalenceClass ι → List CTrace → Prop) (vs : List (EquivalenceClass ι))
    (hvs : ∀ v ∈ vs, ∃ ctraces, Ok v ctraces ∧
      ClassOf boosted ctraces (e.traceTestCase boosted) v)
    {v : EquivalenceClass ι} (hp : primeViolations e boosted vs = some (some v)) :
    ∃ ctraces, Ok v ctraces ∧ ∃ k m a b, Separates e boosted ctraces v.ctrace k m a b := by
  induction vs with
  | nil => simp [primeViolations] at hp
  | cons w vs ih =>
    obtain ⟨ctraces,hok,hw⟩ := hvs w List.mem_cons_self
    rcases primeGroups_spec he hw w.htraceMap (fun _ hx => hx) with
      ⟨k,m,a,b,hpair,hsep⟩ | ⟨hnone,-⟩
    · simp only [primeViolations,survivesPriming,hpair,Option.bind_eq_bind,Option.bind_some,pure,
        Option.some.injEq] at hp
      subst hp
      exact ⟨ctraces,hok,k,m,a,b,hsep⟩
    · simp only [primeViolations,survivesPriming,hnone,Option.bind_eq_bind,
        Option.bind_some] at hp
      exact ih (fun v hv => hvs v (List.mem_cons_of_mem _ hv)) hp

/-- Priming neither raises nor invents nor overlooks a difference on the classes of the
analyser, and a violation that a round reports after priming is a pair of inputs with one
contract trace that the executor tells apart behind one prefix. -/
theorem survivesPriming_exact (e : Executor ι) (he : e.Causal) :
    (∀ (inputs : List ι) (ctraces : List CTrace) (classes : List (EquivalenceClass ι)),
      inputs.length=ctraces.length →
      buildEquivalenceClasses inputs ctraces (e.traceTestCase inputs) = some classes →
      ∀ c ∈ classes,
        (∃ k m a b, survivesPriming e c inputs = some (some (a,b)) ∧
          Separates e inputs ctraces c.ctrace k m a b) ∨
        (survivesPriming e c inputs = some none ∧ ∀ h g, (h,g) ∈ c.htraceMap →
          ∀ last, g.getLast? = some last → ∀ m ∈ c.measurements, m.htrace ≠ h →
            Absorbs e inputs h last.inputId m.input)) ∧
    (∀ (r : Round ι) (v : EquivalenceClass ι),
      (∀ xs n, (r.traceTestCase xs n).length = xs.length) → r.noPriming=false →
      fuzzingRound r e = some (some v) →
      ∃ n ∈ [1,r.modelMaxNesting], ∃ k m a b,
        Separates e (r.boosted n) (r.traceTestCase (r.boosted n) n) v.ctrace k m a b) := by
  constructor
  · intro inputs ctraces classes hlen hb c hc
    obtain ⟨ms,cs,-,hcs,heff⟩ := buildEquivalenceClasses_effective inputs ctraces
      (e.traceTestCase inputs) hlen ((he.length inputs).trans hlen)
    obtain rfl := Option.some.inj (hcs.symm.trans hb)
    exact primeGroups_spec he (heff.classOf c hc) c.htraceMap fun _ hx => hx
  · intro r v hr hprime hv
    simp only [fuzzingRound,Option.bind_eq_bind] at hv
    cases hd : detect r e [1,r.modelMaxNesting] ([],[]) with
    | none => simp [hd] at hv
    | some found =>
      cases found with
      | none => simp [hd] at hv
      | some p =>
        obtain ⟨vs,boosted⟩ := p
        have hcls := detect_spec he hr _ _ (by simp) (fun _ hn => hn) hd
        simp only [hd,Option.bind_some,hprime,Bool.false_eq_true,if_false] at hv
        obtain ⟨ctraces,⟨n,hn,rfl,rfl⟩,hsep⟩ := primeViolations_spec he
          (fun _ ctraces => ∃ n ∈ [1,r.modelMaxNesting], boosted = r.boosted n ∧
            r.traceTestCase boosted n = ctraces) vs.reverse
          (fun w hw => by
            obtain ⟨n,hn,heq,hw⟩ := hcls w (List.mem_reverse.mp hw)
            exact ⟨_,⟨n,hn,heq,rfl⟩,hw⟩) hv
        exact ⟨n,hn,hsep⟩

/-- An executor whose trace shows the input itself. -/
def echoExecutor : Executor ℕ where
  traceTestCase xs := xs.map Int.ofNat

lemma echoExecutor_causal : echoExecutor.Causal where
  length xs := by simp [echoExecutor]
  causal xs ys k h := by
    have hk : xs[k]? = ys[k]? := by
      have := congrArg (·[k]?) h
      simpa using this
    simp only [echoExecutor,List.getElem?_map,hk]

def echoRound : Round ℕ where
  permitSubsets := false
  inputs := [1,2]
  boostInputs xs _ := xs
  traceTestCase xs _ := xs.map fun _ => 7

/-- The violated class of `echoRound`. -/
def echoClass : EquivalenceClass ℕ where
  ctrace := 7
  measurements := [⟨0,1,7,1⟩,⟨1,2,7,2⟩]
  htraceMap := [(1,[⟨0,1,7,1⟩]),(2,[⟨1,2,7,2⟩])]

/-- Two inputs with one contract trace and different hardware traces are reported. -/
theorem survivesPriming_exact_echo :
    (∃ k m a b, survivesPriming echoExecutor echoClass [1,2] = some (some (a,b)) ∧
      Separates echoExecutor [1,2] [7,7] 7 k m a b) ∧
    ∃ k m a b, Separates echoExecutor [1,2] [7,7] 7 k m a b := by
  obtain ⟨hprime,hround⟩ := survivesPriming_exact echoExecutor echoExecutor_causal
  constructor
  · rcases hprime [1,2] [7,7] [echoClass] rfl (by decide) echoClass (by simp) with h | ⟨h,-⟩
    · exact h
    · exact absurd h (by decide)
  · obtain ⟨n,-,hsep⟩ := hround echoRound echoClass (by simp [echoRound]) rfl (by decide)
    exact hsep

end Fuzzer
end ProteanAmulet
