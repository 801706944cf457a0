import ProteanAmulet.Fuzzer

/-! What a fuzzing round reports: the last class that the analyser has found and that priming does not
explain away. -/
namespace ProteanAmulet.Fuzzer
open EquivalenceAnalyser
variable {ι : Type}

/-- What the analyser finds in them. -/
def Round.violations (r : Round ι) (e : Executor ι) (nesting : ℕ) :
    Option (List (EquivalenceClass ι)) :=
  filterViolations r.permitSubsets (r.boosted nesting) (r.traceTestCase (r.boosted nesting) nesting)
    (e.traceTestCase (r.boosted nesting))

/-- The nesting bound of the violations that are primed. -/
def Round.lastNesting (r : Round ι) : ℕ := if r.seqClause then 1 else r.modelMaxNesting

/-- In the place of the last input of some group, another member of the class has a trace that is
not the one of the group. -/
def Survives (e : Executor ι) (inputs : List ι) (v : EquivalenceClass ι) : Prop :=
  ∃ h g last m, (h,g) ∈ v.htraceMap ∧ g.getLast? = some last ∧ m ∈ v.measurements ∧
    m.htrace ≠ h ∧ ¬Absorbs e inputs h last.inputId m.input

/-- The round reports `v`. -/
structure Reports (r : Round ι) (e : Executor ι) (v : EquivalenceClass ι) : Prop where
  generated : ¬(r.existingInputCase ∧ r.existingTestCase)
  first : r.violations e 1 ≠ some []
  last : ∃ pre post, r.violations e r.lastNesting = some (pre ++ v :: post) ∧
    Survives e (r.boosted r.lastNesting) v ∧ ∀ w ∈ post, ¬Survives e (r.boosted r.lastNesting) w

section Priming
variable {e : Executor ι} {inputs : List ι} {ctraces : List CTrace} {c : EquivalenceClass ι}

lemma primeGroups_survives (he : e.Causal) (hc : ClassOf inputs ctraces (e.traceTestCase inputs) c)
    {p : ι × ι} (gs : HTraceMap ι) (hgs : ∀ x ∈ gs, x ∈ c.htraceMap)
    (hp : primeGroups e c inputs gs = some (some p)) : Survives e inputs c := by
  induction gs with
  | nil => cases hp
  | cons x gs ih =>
    obtain ⟨h,g⟩ := x
    have hg := hgs _ List.mem_cons_self
    obtain ⟨last,hlast,hmem,-,-⟩ := hc.representative hg
    have members : ∀ i ∈ (c.measurements.filter (·.htrace ≠ h)).map (·.inputId),
        ∃ m ∈ c.measurements, m.htrace ≠ h ∧ m.inputId = i := by
      intro i hi
      obtain ⟨m,hm,rfl⟩ := List.mem_map.mp hi
      obtain ⟨hm,hne⟩ := List.mem_filter.mp hm
      exact ⟨m,hm,of_decide_eq_true hne,rfl⟩
    have inside : ∀ i ∈ (c.measurements.filter (·.htrace ≠ h)).map (·.inputId), i < inputs.length := by
      intro i hi
      obtain ⟨m,hm,-,rfl⟩ := members i hi
      exact (List.getElem?_eq_some_iff.mp (hc.entries m hm).1).1
    rw [primeGroups,hlast] at hp
    rcases tryPriming_spec he inputs h (hc.entries last hmem).1 _ inside with
      ⟨i,hi,b,h',hb,-,hh',h0,hne⟩ | ⟨hnone,-⟩
    · obtain ⟨m,hm,hother,rfl⟩ := members i hi
      refine ⟨h,g,last,m,hg,hlast,hm,hother,?_⟩
      obtain rfl := Option.some.inj ((hc.entries m hm).1.symm.trans hb)
      rintro ⟨h'',heq,hsame⟩
      obtain rfl := Option.some.inj (hh'.symm.trans heq)
      exact hsame.elim hne h0
    · refine ih (fun x hx => hgs x (List.mem_cons_of_mem _ hx)) ?_
      simpa only [Option.bind_eq_bind,Option.bind_some,hnone] using hp

/-- Priming finds a pair exactly if the class survives. -/
lemma survivesPriming_cases (he : e.Causal)
    (hc : ClassOf inputs ctraces (e.traceTestCase inputs) c) :
    (Survives e inputs c ∧ (∃ p, survivesPriming e c inputs = some (some p)) ∧
      ∃ k m a b, Separates e inputs ctraces c.ctrace k m a b) ∨
    ¬Survives e inputs c ∧ survivesPriming e c inputs = some none := by
  rcases primeGroups_spec he hc c.htraceMap (fun _ hx => hx) with
    ⟨k,m,a,b,hpair,hsep⟩ | ⟨hnone,habs⟩
  · exact .inl ⟨primeGroups_survives he hc c.htraceMap (fun _ hx => hx) hpair,⟨_,hpair⟩,k,m,a,b,hsep⟩
  · refine .inr ⟨?_,hnone⟩
    rintro ⟨h,g,last,m,hg,hlast,hm,hne,hnot⟩
    exact hnot (habs h g hg last hlast m hm hne)

/-- `while violations` returns the first survivor. -/
lemma primeViolations_cases (he : e.Causal) (vs : List (EquivalenceClass ι))
    (hvs : ∀ v ∈ vs, ClassOf inputs ctraces (e.traceTestCase inputs) v) :
    (primeViolations e inputs vs = some none ∧ ∀ v ∈ vs, ¬Survives e inputs v) ∨
    ∃ pre v post, vs = pre ++ v :: post ∧ primeViolations e inputs vs = some (some v) ∧
      Survives e inputs v ∧ ∀ w ∈ pre, ¬Survives e inputs w := by
  induction vs with
  | nil => exact .inl ⟨rfl,nofun⟩
  | cons v vs ih =>
    rw [List.forall_mem_cons] at hvs
    rcases survivesPriming_cases he hvs.1 with ⟨survives,⟨p,hp⟩,-⟩ | ⟨fails,hp⟩
    · refine .inr ⟨[],v,vs,rfl,?_,survives,nofun⟩
      rw [primeViolations,hp]
      rfl
    · have next : primeViolations e inputs (v :: vs) = primeViolations e inputs vs := by
        rw [primeViolations,hp]
        rfl
      rw [next]
      rcases ih hvs.2 with ⟨hnone,hall⟩ | ⟨pre,w,post,rfl,hw,survives,hpre⟩
      · exact .inl ⟨hnone,List.forall_mem_cons.mpr ⟨fails,hall⟩⟩
      · exact .inr ⟨v :: pre,w,post,rfl,hw,survives,List.forall_mem_cons.mpr ⟨fails,hpre⟩⟩

end Priming

section Rounds
variable {r : Round ι} {e : Executor ι}

/-- The traces of a round have the length of its inputs, gem5 never fails, and priming is done. -/
structure Regular (r : Round ι) (e : Executor ι) : Prop where
  causal : e.Causal
  lengths : ∀ xs n, (r.traceTestCase xs n).length = xs.length
  runs : ∀ xs, e.bugged xs = false
  primes : r.noPriming = false

/-- The analyser does not raise an exception, and what it finds are classes. -/
lemma Regular.violations (h : Regular r e) (n : ℕ) : ∃ vs, r.violations e n = some vs ∧
    ∀ v ∈ vs, ClassOf (r.boosted n) (r.traceTestCase (r.boosted n) n)
      (e.traceTestCase (r.boosted n)) v := by
  have hi := (h.lengths (r.boosted n) n).symm
  have hh := (h.causal.length (r.boosted n)).trans hi
  obtain ⟨ms,cs,-,hcs,-⟩ := buildEquivalenceClasses_effective (r.boosted n) _ _ hi hh
  obtain ⟨vs,hvs⟩ : ∃ vs, r.violations e n = some vs := by
    rw [Round.violations,filterViolations,hcs]
    exact ⟨_,rfl⟩
  exact ⟨vs,hvs,classOf_of_filterViolations hi hh hvs⟩

/-- One turn of the detection loop. -/
lemma detect_cons (r : Round ι) (runs : ∀ xs, e.bugged xs = false) (n : ℕ) (rest : List ℕ)
    (found : List (EquivalenceClass ι) × List ι) :
    detect r e (n :: rest) found =
      if r.existingInputCase && r.existingTestCase then some none
      else (r.violations e n).bind fun vs =>
        if vs.isEmpty then some none
        else if r.seqClause then some (some (vs,r.boosted n))
        else detect r e rest (vs,r.boosted n) := by
  unfold Round.violations Round.boosted
  simp only [detect,runs]
  rfl

/-- What detection comes to. -/
lemma Regular.detect_cases (h : Regular r e) :
    (detect r e [1,r.modelMaxNesting] ([],[]) = some none ∧
      ((r.existingInputCase ∧ r.existingTestCase) ∨ r.violations e 1 = some [] ∨
        r.violations e r.lastNesting = some [])) ∨
    ∃ vs, detect r e [1,r.modelMaxNesting] ([],[]) = some (some (vs,r.boosted r.lastNesting)) ∧
      ¬(r.existingInputCase ∧ r.existingTestCase) ∧ r.violations e 1 ≠ some [] ∧
      r.violations e r.lastNesting = some vs := by
  obtain ⟨vs,hvs,-⟩ := h.violations 1
  obtain ⟨ws,hws,-⟩ := h.violations r.modelMaxNesting
  have turn := detect_cons r h.runs 1 [r.modelMaxNesting] ([],[])
  rw [hvs,Option.bind_some] at turn
  rw [turn]
  by_cases existing : r.existingInputCase && r.existingTestCase
  · rw [if_pos existing]
    exact .inl ⟨rfl,.inl (by simpa using existing)⟩
  · rw [if_neg existing]
    have generated : ¬(r.existingInputCase ∧ r.existingTestCase) := by simpa using existing
    cases vs with
    | nil => exact .inl ⟨rfl,.inr (.inl hvs)⟩
    | cons v vs =>
      have first : r.violations e 1 ≠ some [] := by
        rw [hvs]
        nofun
      by_cases seq : r.seqClause
      · have nesting : r.lastNesting = 1 := if_pos seq
        rw [nesting]
        refine .inr ⟨v :: vs,?_,generated,first,hvs⟩
        rw [if_neg (by simp),if_pos seq]
      · have nesting : r.lastNesting = r.modelMaxNesting := if_neg seq
        have turn' := detect_cons r h.runs r.modelMaxNesting [] (v :: vs,r.boosted 1)
        rw [hws,Option.bind_some,if_neg existing] at turn'
        rw [if_neg (by simp),if_neg seq,turn',nesting]
        cases ws with
        | nil => exact .inl ⟨rfl,.inr (.inr hws)⟩
        | cons w ws =>
          refine .inr ⟨w :: ws,?_,generated,first,hws⟩
          rw [if_neg (by simp),if_neg seq]
          rfl

/-- Only one class is reported. -/
lemma Reports.unique {v w : EquivalenceClass ι} (hv : Reports r e v) (hw : Reports r e w) : v = w := by
  obtain ⟨pre,post,hvs,survives,hpost⟩ := hv.last
  obtain ⟨pre',post',hvs',survives',hpost'⟩ := hw.last
  have same := Option.some.inj (hvs.symm.trans hvs')
  rcases List.append_eq_append_iff.mp same with ⟨as,hpre,heq⟩ | ⟨as,hpre,heq⟩
  · cases as with
    | nil => exact (List.cons.inj heq).1
    | cons a as =>
      obtain ⟨rfl,rfl⟩ := List.cons.inj heq
      exact absurd survives' (hpost w (by simp))
  · cases as with
    | nil => exact (List.cons.inj heq).1.symm
    | cons a as =>
      obtain ⟨rfl,rfl⟩ := List.cons.inj heq
      exact absurd survives (hpost' v (by simp))

/-- A round does not raise an exception, and gives the class that it reports, if there is one. -/
lemma Regular.fuzzingRound (h : Regular r e) :
    ∃ result, Fuzzer.fuzzingRound r e = some result ∧ ∀ v, result = some v ↔ Reports r e v := by
  rcases h.detect_cases with ⟨hd,early⟩ | ⟨vs,hd,generated,first,hvs⟩
  · refine ⟨none,?_,fun v => ⟨nofun,fun hv => ?_⟩⟩
    · rw [Fuzzer.fuzzingRound,hd]
      rfl
    · obtain ⟨pre,post,hlast,-⟩ := hv.last
      rcases early with existing | nothing | nothing
      · exact absurd existing hv.generated
      · exact absurd nothing hv.first
      · rw [nothing] at hlast
        simp at hlast
  · obtain ⟨vs',hvs',classes⟩ := h.violations r.lastNesting
    obtain rfl := Option.some.inj (hvs.symm.trans hvs')
    have round : Fuzzer.fuzzingRound r e =
        primeViolations e (r.boosted r.lastNesting) vs.reverse := by
      rw [Fuzzer.fuzzingRound,hd]
      simp [h.primes]
    rw [round]
    rcases primeViolations_cases h.causal vs.reverse
      (fun v hv => classes v (List.mem_reverse.mp hv)) with ⟨hnone,hall⟩ | ⟨pre,v,post,hsplit,hv,hs,hpre⟩
    · refine ⟨none,hnone,fun v => ⟨nofun,fun hv => ?_⟩⟩
      obtain ⟨pre,post,hlast,survives,-⟩ := hv.last
      obtain rfl := Option.some.inj (hvs.symm.trans hlast)
      exact absurd survives (hall v (by simp))
    · have split : vs = post.reverse ++ v :: pre.reverse := by
        rw [← List.reverse_reverse vs,hsplit]
        simp
      have reported : Reports r e v := ⟨generated,first,post.reverse,pre.reverse,by rw [hvs,split],hs,
        fun w hw => hpre w (List.mem_reverse.mp hw)⟩
      refine ⟨some v,hv,fun w => ⟨fun heq => Option.some.inj heq ▸ reported,fun hw => ?_⟩⟩
      rw [reported.unique hw]

/-- What is reported is a pair of inputs that the executor tells apart behind one prefix. -/
lemma Reports.separates (h : Regular r e) {v : EquivalenceClass ι} (hv : Reports r e v) :
    ∃ k m a b, Separates e (r.boosted r.lastNesting)
      (r.traceTestCase (r.boosted r.lastNesting) r.lastNesting) v.ctrace k m a b := by
  obtain ⟨pre,post,hlast,survives,-⟩ := hv.last
  obtain ⟨vs,hvs,classes⟩ := h.violations r.lastNesting
  obtain rfl := Option.some.inj (hvs.symm.trans hlast)
  rcases survivesPriming_cases h.causal (classes v (by simp)) with ⟨-,-,separates⟩ | ⟨fails,-⟩
  · exact separates
  · exact absurd survives fails

end Rounds

end ProteanAmulet.Fuzzer
