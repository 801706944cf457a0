import ProteanAmulet.KernelExecutor

/-! When the kernel module is ready. Its flags and counters are compared with the history of the
calls: what was stored last, what was announced and delivered since, and what is left to print. -/
namespace ProteanAmulet.KernelExecutor
variable {loadTemplate : List Byte → Option (List Byte)}

/-- The measurements below `k`, the last one first. -/
def lastFirst (ms : ℕ → Measurement) : ℕ → List Measurement
  | 0 => []
  | k+1 => ms k :: lastFirst ms k

/-- What the callers know. -/
structure History where
  /-- The test case of the last successful `test_case_store`. -/
  testCase : Option (List Byte) := none
  /-- The number of inputs of an `n_inputs_store` that has succeeded since. -/
  declared : Option ℕ := none
  /-- The data that was taken after it. -/
  delivered : List Byte := []
  /-- The measurements of the last run that were not printed yet. -/
  pending : List Measurement := []

/-- The measurements that a call has to print from. -/
def History.toPrint (h : History) (s : State) (op : Op) (r : Reply) : List Measurement :=
  match op with
  | .traceShow (some ms) => if r.started ∧ ¬r.error then lastFirst ms s.nInputs.toNat else h.pending
  | _ => h.pending

/-- A change of the test case or of the number of inputs makes a new start. -/
def History.next (h : History) (s : State) (op : Op) (r : Reply) (s' : State) : History :=
  match op with
  | .testCaseStore buf => if r.error then h else { testCase := some buf }
  | .nInputsStore _ _ _ =>
    if r.error then { testCase := h.testCase }
    else { testCase := h.testCase, declared := some s'.nInputs.toNat }
  | .inputsStore buf => if r.error then h else { h with delivered := h.delivered ++ buf }
  | .traceShow _ => { h with pending := (h.toPrint s op r).drop r.printed.length }

/-- The module together with the history. -/
def advance (loadTemplate : List Byte → Option (List Byte)) (p : State × History) (op : Op) :
    State × History :=
  let (r,s') := call loadTemplate p.1 op
  (s',p.2.next p.1 op r s')

/-- The test case is loaded, the number of inputs is announced, and all of them are in the buffer. -/
structure Complete (loadTemplate : List Byte → Option (List Byte)) (s : State) (h : History) :
    Prop where
  testCase : ∃ tc, h.testCase = some tc ∧ s.measurementCode = loadTemplate tc
  declared : h.declared = some s.nInputs.toNat
  delivered : h.delivered.length = s.bytes
  loaded : ∀ b, s.inputs = some b → ∀ i, 8*i<s.bytes → b.words i = word h.delivered i

/-- A run is started only when everything is loaded, and the lines that are printed are the
measurements of the last run, in order. -/
structure TraceSound (loadTemplate : List Byte → Option (List Byte)) (s : State) (h : History)
    (op : Op) : Prop where
  started : (call loadTemplate s op).1.started → Complete loadTemplate s h
  printed : (call loadTemplate s op).1.error = false → ∀ results, op = .traceShow results →
    ∃ left, h.toPrint s op (call loadTemplate s op).1 = (call loadTemplate s op).1.printed ++ left ∧
      ((call loadTemplate s op).1.done ↔ left = [])
  failed : (call loadTemplate s op).1.error →
    (call loadTemplate s op).1.printed = [] ∧ (call loadTemplate s op).1.done = false

/-- What the callers have to see to, as the module does not: test cases fit into the template, the
number of inputs is not changed while results are printed, batches are made of words and stay within
the announced inputs, and a trace is read only when the counter has reached their end. -/
def Follows (loadTemplate : List Byte → Option (List Byte)) (s : State) : Op → Prop
  | .testCaseStore buf => maxTestCaseSize ≤ buf.length ∨ loadTemplate buf ≠ none
  | .nInputsStore parsed ms words =>
    s.nextMeasurementId<0 ∧ WithinBounds s (.nInputsStore parsed ms words)
  | .inputsStore buf => buf.length % 8 = 0 ∧ WithinBounds s (.inputsStore buf)
  | .traceShow _ => s.nextMeasurementId<0 → s.inputsReady → 8*s.inputsTop.toNat = s.bytes

section Print
variable {ms : ℕ → Measurement}

/-- The printing loop prints a first part of the measurements. -/
lemma printFrom_spec (k count : ℕ) :
    lastFirst ms k = (printFrom ms k count).1 ++ lastFirst ms (printFrom ms k count).2 := by
  induction k generalizing count with
  | zero => rfl
  | succ k ih =>
    unfold printFrom
    split
    · rfl
    · exact congrArg (ms k :: ·) (ih _)

lemma drop_printFrom (k count : ℕ) : (lastFirst ms k).drop (printFrom ms k count).1.length =
    lastFirst ms (printFrom ms k count).2 := by
  rw [printFrom_spec k count,List.drop_left]

lemma lastFirst_eq_nil_iff {k : ℕ} : lastFirst ms k = [] ↔ k = 0 := by
  cases k with
  | zero => simp [lastFirst]
  | succ k => simp [lastFirst]

end Print

section Words
variable {l r : List Byte}

lemma word_append_left {i : ℕ} (h : 8*i+8 ≤ l.length) : word (l ++ r) i = word l i := by
  unfold word
  rw [List.drop_append_of_le_length (by omega),List.take_append_of_le_length (by simp; omega)]

lemma word_append_right {i k : ℕ} (h : l.length = 8*k) (hi : k ≤ i) :
    word (l ++ r) i = word r (i-k) := by
  unfold word
  rw [List.drop_append,List.drop_of_length_le (by omega),List.nil_append,h,Nat.mul_sub]

/-- The loop of `inputs_store` when its index does not wrap around. -/
lemma storeBatch_apply {words : ℕ → BitVec 64} {top : BitVec 32} {buf : List Byte} {n : ℕ}
    (h : top.toNat+n<2^32) (i : ℕ) : storeBatch words top buf n i =
      if top.toNat ≤ i ∧ i<top.toNat+n then word buf (i-top.toNat) else words i := by
  induction n with
  | zero =>
    rw [if_neg (by omega)]
    rfl
  | succ n ih =>
    have last : storeBatch words top buf (n+1) = Function.update (storeBatch words top buf n)
        (top+BitVec.ofNat 32 n).toNat (word buf n) := by
      rw [storeBatch,List.range_succ,List.foldl_append]
      rfl
    rw [last,toNat_add_batch (by omega),Function.update_apply,ih (by omega)]
    by_cases hi : i = top.toNat+n
    · subst hi
      simp
    · rw [if_neg hi]
      by_cases inside : top.toNat ≤ i ∧ i<top.toNat+n
      · rw [if_pos inside,if_pos (by omega)]
      · rw [if_neg inside,if_neg (by omega)]

end Words

/-- The invariant that ties the module to the history. -/
structure Tracked (loadTemplate : List Byte → Option (List Byte)) (s : State) (h : History) :
    Prop where
  roomy : Roomy s
  code : s.testCaseReady → ∃ tc, h.testCase = some tc ∧ s.measurementCode = loadTemplate tc
  order : s.inputsReady → s.nInputsReady
  /-- Either the counter shows what has been delivered, or an allocation has failed and the counter
  is short of the end. -/
  loaded : s.nInputsReady →
    (h.declared = some s.nInputs.toNat ∧ h.delivered.length = 8*s.inputsTop.toNat ∧
      8*s.inputsTop.toNat ≤ s.bytes ∧
      ∀ b, s.inputs = some b → ∀ i<s.inputsTop.toNat, b.words i = word h.delivered i) ∨
    (s.inputs = none ∧ 8*s.inputsTop.toNat<s.bytes)
  pending : ∀ ms, s.measurements = some ms →
    h.pending = lastFirst ms (s.nextMeasurementId+1).toNat
  idle : s.measurements = none → s.nextMeasurementId<0 ∧ h.pending = []

section Step
variable {s : State} {h : History}

/-- What `trace_show` can do: fail, start a run and print from it, or go on printing. -/
theorem traceShow_cases (s : State) (results : Option (ℕ → Measurement)) :
    ((s.measurements = none ∨ s.nextMeasurementId<0) ∧
      ∃ started : Bool, (started → s.nextMeasurementId<0 ∧ s.testCaseReady ∧ s.inputsReady) ∧
        traceShow s results = ({ error := true, started := started },s)) ∨
    (∃ ms, results = some ms ∧ s.nextMeasurementId<0 ∧ s.testCaseReady ∧ s.inputsReady ∧
      traceShow s results = printResults { s with
        measurements := some ms
        nextMeasurementId := ((s.nInputs-1).setWidth 32).toInt } ms true) ∨
    (∃ ms, s.measurements = some ms ∧ ¬s.nextMeasurementId<0 ∧
      traceShow s results = printResults s ms false) := by
  unfold traceShow
  cases hm : s.measurements with
  | none => exact .inl ⟨.inl rfl,false,nofun,rfl⟩
  | some ms =>
    by_cases idle : s.nextMeasurementId<0
    · simp only [if_pos idle]
      by_cases ready : s.testCaseReady = false ∨ s.inputsReady = false
      · simp only [if_pos ready]
        exact .inl ⟨.inr idle,false,nofun,rfl⟩
      · simp only [if_neg ready]
        simp only [not_or,Bool.not_eq_false] at ready
        cases hi : s.inputs with
        | none => exact .inl ⟨.inr idle,true,fun _ => ⟨idle,ready⟩,rfl⟩
        | some b =>
          cases results with
          | none => exact .inl ⟨.inr idle,true,fun _ => ⟨idle,ready⟩,rfl⟩
          | some new => exact .inr (.inl ⟨new,rfl,idle,ready.1,ready.2,rfl⟩)
    · simp only [if_neg idle]
      exact .inr (.inr ⟨ms,rfl,idle,rfl⟩)

lemma Tracked.testCaseStore (t : Tracked loadTemplate s h) {buf : List Byte}
    (ok : Follows loadTemplate s (.testCaseStore buf)) :
    Tracked loadTemplate (advance loadTemplate (s,h) (.testCaseStore buf)).1
      (advance loadTemplate (s,h) (.testCaseStore buf)).2 := by
  have roomy : Roomy (call loadTemplate s (.testCaseStore buf)).2 := t.roomy.step trivial
  unfold advance call at *
  by_cases large : maxTestCaseSize ≤ buf.length
  · simp only [KernelExecutor.testCaseStore,if_pos large,History.next]
    exact t
  · obtain ⟨code,hcode⟩ := Option.ne_none_iff_exists'.mp (ok.resolve_left large)
    simp only [KernelExecutor.testCaseStore,if_neg large,hcode,History.next] at roomy ⊢
    exact ⟨roomy,fun _ => ⟨buf,rfl,hcode.symm⟩,nofun,nofun,fun _ _ => rfl,
      fun _ => ⟨Int.negSucc_lt_zero 0,rfl⟩⟩

lemma Tracked.short (t : Tracked loadTemplate s h) (ready : s.nInputsReady) :
    8*s.inputsTop.toNat ≤ s.bytes := by
  obtain ⟨_,_,within,_⟩ | ⟨_,within⟩ := t.loaded ready
  · exact within
  · exact within.le

lemma Tracked.nInputsStore (t : Tracked loadTemplate s h) {parsed : Option (BitVec 64)}
    {ms : Option (ℕ → Measurement)} {words : Option (ℕ → BitVec 64)}
    (ok : Follows loadTemplate s (.nInputsStore parsed ms words)) :
    Tracked loadTemplate (advance loadTemplate (s,h) (.nInputsStore parsed ms words)).1
      (advance loadTemplate (s,h) (.nInputsStore parsed ms words)).2 := by
  obtain ⟨idle,bounds⟩ := ok
  have roomy : Roomy (call loadTemplate s (.nInputsStore parsed ms words)).2 := t.roomy.step bounds
  have none_left : (s.nextMeasurementId+1).toNat = 0 := by omega
  unfold advance call at *
  obtain ⟨grows,hm,he⟩ | ⟨grows,hm,he⟩ | ⟨ws,grows,hm,he⟩ | ⟨grows,he⟩ :=
    nInputsStore_cases s parsed ms words
  · exact absurd hm (bounds.2 grows)
  · simp only [he,History.next] at roomy ⊢
    refine ⟨roomy,t.code,t.order,?_,?_,fun _ => ⟨idle,rfl⟩⟩
    · intro ready
      refine .inr ⟨rfl,(t.short ready).trans_lt ?_⟩
      exact Nat.mul_lt_mul_of_pos_right grows (by decide)
    · intro new _
      rw [none_left]
      rfl
  · simp only [he,History.next] at roomy ⊢
    refine ⟨roomy,t.code,fun _ => rfl,?_,?_,fun _ => ⟨idle,rfl⟩⟩
    · exact fun _ => .inl ⟨rfl,rfl,Nat.zero_le _,fun _ _ _ hi => absurd hi (Nat.not_lt_zero _)⟩
    · intro new _
      rw [none_left]
      rfl
  · simp only [he,History.next] at roomy ⊢
    refine ⟨roomy,t.code,fun _ => rfl,?_,?_,fun _ => ⟨idle,rfl⟩⟩
    · exact fun _ => .inl ⟨rfl,rfl,Nat.zero_le _,fun _ _ _ hi => absurd hi (Nat.not_lt_zero _)⟩
    · intro new _
      rw [none_left]
      rfl

lemma Tracked.inputsStore (t : Tracked loadTemplate s h) {buf : List Byte}
    (ok : Follows loadTemplate s (.inputsStore buf)) :
    Tracked loadTemplate (advance loadTemplate (s,h) (.inputsStore buf)).1
      (advance loadTemplate (s,h) (.inputsStore buf)).2 := by
  obtain ⟨aligned,small,within⟩ := ok
  have roomy : Roomy (call loadTemplate s (.inputsStore buf)).2 := t.roomy.step ⟨small,within⟩
  unfold advance call at *
  obtain ⟨_,he⟩ | he | ⟨b,ready,hb,check,he⟩ := inputsStore_cases s buf
  · simp only [he,History.next]
    exact t
  · simp only [he,History.next] at roomy ⊢
    exact ⟨roomy,t.code,nofun,t.loaded,t.pending,t.idle⟩
  · obtain ⟨declared,delivered,_,words⟩ | ⟨none,_⟩ := t.loaded ready
    · rw [check_iff t.roomy.fits small] at check
      have inside : 8*s.total buf ≤ s.bytes := within.resolve_right check
      have top : (s.stored b buf).inputsTop.toNat = s.total buf := toNat_add_batch small
      have length : (h.delivered ++ buf).length = 8*s.total buf := by
        rw [List.length_append,delivered,State.total]
        omega
      have size : (BitVec.ofNat 32 (buf.length/8)).toNat = buf.length/8 := by
        unfold State.total at small
        rw [BitVec.toNat_ofNat]
        omega
      simp only [he,History.next] at roomy ⊢
      refine ⟨roomy,t.code,fun _ => ready,fun _ => .inl ⟨declared,?_,?_,?_⟩,t.pending,t.idle⟩
      · rw [top]
        exact length
      · rw [top]
        exact inside
      · rintro b' ⟨⟩ i hi
        rw [top] at hi
        change storeBatch b.words s.inputsTop buf (BitVec.ofNat 32 (buf.length/8)).toNat i = _
        rw [size,storeBatch_apply small]
        by_cases new : s.inputsTop.toNat ≤ i
        · rw [if_pos ⟨new,hi⟩]
          exact (word_append_right delivered new).symm
        · rw [if_neg (by omega),words b hb i (by omega)]
          exact (word_append_left (by omega)).symm
    · rw [none] at hb
      cases hb

lemma toInt_pred {n : BitVec 64} (hn : n.toNat<2^31) :
    ((n-1).setWidth 32).toInt = (n.toNat : ℤ)-1 := by
  rcases Nat.eq_zero_or_pos n.toNat with zero | positive
  · rw [BitVec.eq_of_toNat_eq (zero.trans BitVec.toNat_zero.symm)]
    decide
  · have pred : (n-1).toNat = n.toNat-1 := by
      rw [BitVec.toNat_sub_of_le (by rw [BitVec.le_def]; exact positive)]
      rfl
    rw [BitVec.toInt_eq_toNat_of_lt]
    · rw [BitVec.toNat_setWidth,pred,Nat.mod_eq_of_lt (by omega)]
      omega
    · rw [BitVec.toNat_setWidth,pred,Nat.mod_eq_of_lt (by omega)]
      omega

/-- How many measurements are left after a call. -/
lemma printResults_left (s : State) (ms : ℕ → Measurement) (started : Bool) :
    ((printResults s ms started).2.nextMeasurementId+1).toNat =
      (printFrom ms (s.nextMeasurementId+1).toNat 0).2 := by
  change ((if s.nextMeasurementId<0 then s.nextMeasurementId else _)+1).toNat = _
  split
  · have : (s.nextMeasurementId+1).toNat = 0 := by omega
    rw [this]
    rfl
  · omega

/-- A state that goes on printing stays tied to the history. -/
lemma Tracked.printResults (t : Tracked loadTemplate s h) {ms : ℕ → Measurement}
    (hm : s.measurements = some ms) (started : Bool) :
    Tracked loadTemplate (KernelExecutor.printResults s ms started).2
      { h with pending := h.pending.drop (KernelExecutor.printResults s ms started).1.printed.length } := by
  refine ⟨⟨t.roomy.fits,t.roomy.room⟩,t.code,t.order,t.loaded,?_,?_⟩
  · intro ms' hm'
    have same : ms = ms' := Option.some.inj (hm.symm.trans hm')
    subst same
    rw [printResults_left,t.pending ms hm]
    exact drop_printFrom _ 0
  · intro gone
    have : s.measurements = none := gone
    rw [hm] at this
    cases this

/-- When a run may start, everything is loaded. -/
lemma Tracked.complete (t : Tracked loadTemplate s h) {results : Option (ℕ → Measurement)}
    (ok : Follows loadTemplate s (.traceShow results)) (idle : s.nextMeasurementId<0)
    (testCase : s.testCaseReady) (inputs : s.inputsReady) : Complete loadTemplate s h := by
  have all := ok idle inputs
  obtain ⟨declared,delivered,_,words⟩ | ⟨_,short⟩ := t.loaded (t.order inputs)
  · refine ⟨t.code testCase,declared,delivered.trans all,?_⟩
    intro b hb i hi
    exact words b hb i (by omega)
  · omega

lemma Tracked.start (t : Tracked loadTemplate s h) {ms : ℕ → Measurement} :
    s.nInputs.toNat<2^31 → Tracked loadTemplate { s with
      measurements := some ms
      nextMeasurementId := ((s.nInputs-1).setWidth 32).toInt }
      { h with pending := lastFirst ms s.nInputs.toNat } := by
  intro small
  refine ⟨⟨t.roomy.fits,t.roomy.room⟩,t.code,t.order,t.loaded,?_,nofun⟩
  rintro ms' ⟨⟩
  rw [toInt_pred small,Int.sub_add_cancel,Int.toNat_natCast]

lemma Follows.few {results : Option (ℕ → Measurement)}
    (ok : Follows loadTemplate s (.traceShow results)) (idle : s.nextMeasurementId<0)
    (inputs : s.inputsReady) : s.nInputs.toNat<2^31 := by
  have all := ok idle inputs
  have top := s.inputsTop.isLt
  unfold State.bytes inputSize at all
  omega

lemma Tracked.traceShow (t : Tracked loadTemplate s h) {results : Option (ℕ → Measurement)}
    (ok : Follows loadTemplate s (.traceShow results)) :
    Tracked loadTemplate (advance loadTemplate (s,h) (.traceShow results)).1
      (advance loadTemplate (s,h) (.traceShow results)).2 := by
  unfold advance call
  obtain ⟨_,started,_,he⟩ | ⟨ms,rfl,idle,_,inputs,he⟩ | ⟨ms,hm,_,he⟩ := traceShow_cases s results
  · have same : h.toPrint s (.traceShow results) { error := true, started := started } =
        h.pending := by
      cases results with
      | none => rfl
      | some ms => simp [History.toPrint]
    simp only [he,History.next,same]
    exact t
  · simp only [he,History.next]
    exact (t.start (ok.few idle inputs)).printResults rfl true
  · have same : h.toPrint s (.traceShow results) (KernelExecutor.printResults s ms false).1 =
        h.pending := by
      cases results with
      | none => rfl
      | some new => simp [History.toPrint,KernelExecutor.printResults]
    simp only [he,History.next,same]
    exact t.printResults hm false

lemma Tracked.step (t : Tracked loadTemplate s h) {op : Op} (ok : Follows loadTemplate s op) :
    Tracked loadTemplate (advance loadTemplate (s,h) op).1 (advance loadTemplate (s,h) op).2 := by
  cases op with
  | testCaseStore buf => exact t.testCaseStore ok
  | nInputsStore parsed ms words => exact t.nInputsStore ok
  | inputsStore buf => exact t.inputsStore ok
  | traceShow results => exact t.traceShow ok

/-- Only `trace_show` starts a run or prints. -/
lemma quiet (loadTemplate : List Byte → Option (List Byte)) (s : State) (op : Op)
    (hop : ∀ results, op ≠ .traceShow results) :
    (call loadTemplate s op).1.started = false ∧ (call loadTemplate s op).1.printed = [] ∧
      (call loadTemplate s op).1.done = false := by
  cases op with
  | testCaseStore buf =>
    rw [call,KernelExecutor.testCaseStore]
    split
    · exact ⟨rfl,rfl,rfl⟩
    · cases loadTemplate buf <;> exact ⟨rfl,rfl,rfl⟩
  | nInputsStore parsed ms words =>
    rw [call]
    obtain ⟨_,_,he⟩ | ⟨_,_,he⟩ | ⟨_,_,_,he⟩ | ⟨_,he⟩ := nInputsStore_cases s parsed ms words
    all_goals
      rw [he]
      exact ⟨rfl,rfl,rfl⟩
  | inputsStore buf =>
    rw [call]
    obtain ⟨_,he⟩ | he | ⟨_,_,_,_,he⟩ := inputsStore_cases s buf
    all_goals
      rw [he]
      exact ⟨rfl,rfl,rfl⟩
  | traceShow results => exact absurd rfl (hop results)

lemma Tracked.printed (t : Tracked loadTemplate s h) {ms : ℕ → Measurement}
    (hm : s.measurements = some ms) (started : Bool) :
    ∃ left, h.pending = (KernelExecutor.printResults s ms started).1.printed ++ left ∧
      ((KernelExecutor.printResults s ms started).1.done ↔ left = []) := by
  refine ⟨lastFirst ms (printFrom ms (s.nextMeasurementId+1).toNat 0).2,?_,?_⟩
  · rw [t.pending ms hm]
    exact printFrom_spec _ 0
  · rw [lastFirst_eq_nil_iff]
    exact decide_eq_true_iff

lemma Tracked.sound (t : Tracked loadTemplate s h) {op : Op} (ok : Follows loadTemplate s op) :
    TraceSound loadTemplate s h op := by
  by_cases trace : ∃ results, op = .traceShow results
  · obtain ⟨results,rfl⟩ := trace
    obtain ⟨_,started,ready,he⟩ | ⟨ms,rfl,idle,testCase,inputs,he⟩ | ⟨ms,hm,_,he⟩ :=
      traceShow_cases s results
    · constructor
      · intro hs
        rw [call,he] at hs
        obtain ⟨idle,testCase,inputs⟩ := ready hs
        exact t.complete ok idle testCase inputs
      · intro noError
        rw [call,he] at noError
        cases noError
      · rw [call,he]
        exact fun _ => ⟨rfl,rfl⟩
    · constructor
      · exact fun _ => t.complete ok idle testCase inputs
      · intro _ _ _
        rw [call,he]
        exact (t.start (ok.few idle inputs)).printed rfl true
      · intro hs
        rw [call,he] at hs
        cases hs
    · constructor
      · intro hs
        rw [call,he] at hs
        cases hs
      · intro _ _ _
        have same : h.toPrint s (.traceShow results) (KernelExecutor.printResults s ms false).1 =
            h.pending := by
          cases results with
          | none => rfl
          | some new => simp [History.toPrint,KernelExecutor.printResults]
        rw [call,he,same]
        exact t.printed hm false
      · intro hs
        rw [call,he] at hs
        cases hs
  · obtain ⟨started,printed,done⟩ := quiet loadTemplate s op
      fun results hr => trace ⟨results,hr⟩
    constructor
    · intro hs
      rw [started] at hs
      cases hs
    · intro _ results hr
      exact absurd ⟨results,hr⟩ trace
    · exact fun _ => ⟨printed,done⟩

end Step

lemma tracked_init (words : ℕ → BitVec 64) (ms : ℕ → Measurement) :
    Tracked loadTemplate (init words ms) {} :=
  ⟨roomy_init words ms,nofun,nofun,nofun,fun _ _ => rfl,nofun⟩

/-- In every run whose callers follow the protocol, traces are started only when everything is
loaded and the lines are the measurements of the last run. -/
theorem traceShow_sound (loadTemplate : List Byte → Option (List Byte)) (words : ℕ → BitVec 64)
    (ms : ℕ → Measurement) (ops : List Op)
    (h : Runs.Meets (advance loadTemplate) (fun p op => Follows loadTemplate p.1 op)
      (init words ms,{}) ops)
    {pre post : List Op} {op : Op} (he : ops = pre ++ op :: post) :
    TraceSound loadTemplate (Runs.after (advance loadTemplate) (init words ms,{}) pre).1
      (Runs.after (advance loadTemplate) (init words ms,{}) pre).2 op := by
  have keeps : ∀ (p : State × History) op, Tracked loadTemplate p.1 p.2 →
      Follows loadTemplate p.1 op →
      Tracked loadTemplate (advance loadTemplate p op).1 (advance loadTemplate p op).2 :=
    fun _ _ t ok => t.step ok
  have sound : ∀ (p : State × History) op, Tracked loadTemplate p.1 p.2 →
      Follows loadTemplate p.1 op → TraceSound loadTemplate p.1 p.2 op :=
    fun _ _ t ok => t.sound ok
  exact h.always keeps sound (tracked_init words ms) he

/-- A test case with one input, delivered in three pages. -/
theorem traceShow_sound_one : TraceSound some
    (Runs.after (advance some) (init (fun _ => 0) (fun _ => ⟨0,0,0,0⟩),{})
      [.testCaseStore [0x90],.nInputsStore (some 1) none none,.inputsStore (List.replicate 4096 0),
        .inputsStore (List.replicate 4096 0),.inputsStore (List.replicate 4096 0)]).1
    (Runs.after (advance some) (init (fun _ => 0) (fun _ => ⟨0,0,0,0⟩),{})
      [.testCaseStore [0x90],.nInputsStore (some 1) none none,.inputsStore (List.replicate 4096 0),
        .inputsStore (List.replicate 4096 0),.inputsStore (List.replicate 4096 0)]).2
    (.traceShow (some fun _ => ⟨5,6,7,8⟩)) := by
  refine traceShow_sound some (fun _ => 0) (fun _ => ⟨0,0,0,0⟩)
    [.testCaseStore [0x90],.nInputsStore (some 1) none none,.inputsStore (List.replicate 4096 0),
      .inputsStore (List.replicate 4096 0),.inputsStore (List.replicate 4096 0),
      .traceShow (some fun _ => ⟨5,6,7,8⟩)]
    ⟨.inr (by simp),⟨by decide,by decide,by decide⟩,?_,?_,?_,?_,trivial⟩ rfl
  · exact ⟨by decide +kernel,by decide +kernel,by decide +kernel⟩
  · exact ⟨by decide +kernel,by decide +kernel,by decide +kernel⟩
  · exact ⟨by decide +kernel,by decide +kernel,by decide +kernel⟩
  · exact fun _ _ => by decide +kernel

/-- A run is started after the first word of its only input. -/
theorem traceShow_not_sound : ¬TraceSound some
    (Runs.after (advance some) (init (fun _ => 0) (fun _ => ⟨0,0,0,0⟩),{})
      [.testCaseStore [0x90],.nInputsStore (some 1) none none,.inputsStore (List.replicate 8 0)]).1
    (Runs.after (advance some) (init (fun _ => 0) (fun _ => ⟨0,0,0,0⟩),{})
      [.testCaseStore [0x90],.nInputsStore (some 1) none none,.inputsStore (List.replicate 8 0)]).2
    (.traceShow (some fun _ => ⟨5,6,7,8⟩)) := by
  intro h
  have delivered := (h.started (by decide +kernel)).delivered
  exact absurd delivered (by decide +kernel)

end ProteanAmulet.KernelExecutor
