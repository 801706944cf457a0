import ProteanAmulet.Fuzzer
import ProteanAmulet.KernelProtocol
import ProteanAmulet.KernelTemplates

/-! The measurements of the kernel module. The sandbox is filled from an input before each round, the
first rounds only warm up, and what the processor remembers from round to round is left open. -/
namespace ProteanAmulet.KernelExecutor

/-- The 64-bit words of a page. -/
def pageWords : ℕ := 512

/-- `sandbox_t`, by 64-bit words; the eviction region has a page for each way of the cache. -/
structure Sandbox (ways : ℕ) where
  evictionRegion : Fin ways → Fin pageWords → BitVec 64
  lowerOverflow : Fin pageWords → BitVec 64
  mainRegion : Fin pageWords → BitVec 64
  faultyRegion : Fin pageWords → BitVec 64
  upperOverflow : Fin pageWords → BitVec 64
  storedRsp : BitVec 64
  latestMeasurement : Measurement

/-- `INPUT_SIZE/8`. -/
def inputWords : ℕ := 3*pageWords

/-- The loops that initialise the memory and the values of the registers. -/
def fillSandbox {ways : ℕ} (stackBase : BitVec 64) (input : ℕ → BitVec 64) (sandbox : Sandbox ways) :
    Sandbox ways where
  evictionRegion _ _ := 0
  lowerOverflow _ := 0
  mainRegion j := input j
  faultyRegion j := input (pageWords+j)
  upperOverflow j :=
    if j.val<6 then input (1024+j)
    else if j.val=6 then (input (1024+6) &&& 2263) ||| 2
    else if j.val=7 then stackBase
    else 0
  storedRsp := sandbox.storedRsp
  latestMeasurement := sandbox.latestMeasurement

/-- A processor: what the flushes before a round do to it, and a call of the code of a measurement.
Without code it runs what a load that failed has left in the buffer. -/
structure Processor (μ : Type) (ways : ℕ) where
  prepare : μ → μ
  execute : Option (List Byte) → μ → Sandbox ways → μ × Sandbox ways

/-- What a round works on. -/
structure Experiment (μ : Type) (ways : ℕ) where
  uarch : μ
  sandbox : Sandbox ways
  measurements : ℕ → Measurement

section Rounds
variable {μ : Type} {ways : ℕ} (p : Processor μ ways) (code : Option (List Byte)) (stackBase : BitVec 64)

/-- One turn of the loop of `run_experiment`: warm-up rounds take the first input. -/
def round (inputs : ℕ → BitVec 64) (e : Experiment μ ways) (i : ℤ) : Experiment μ ways :=
  let r := p.execute code (p.prepare e.uarch)
    (fillSandbox stackBase (fun j => inputs (i.toNat*inputWords+j)) e.sandbox)
  ⟨r.1,r.2,Function.update e.measurements i.toNat r.2.latestMeasurement⟩

/-- `run_experiment`, with `uarch_reset_rounds` rounds to warm up. -/
def runExperiment (warmups : ℤ) (inputs : ℕ → BitVec 64) (rounds : ℤ) (e : Experiment μ ways) :
    Experiment μ ways :=
  (List.range (rounds+warmups).toNat).foldl
    (fun e (k : ℕ) => round p code stackBase inputs e (k-warmups)) e

/-- An input, as it lies in the buffer. -/
abbrev KernelInput := Fin inputWords → BitVec 64

/-- Inputs one after the other. -/
def flatInputs (inputs : List KernelInput) (x : ℕ) : BitVec 64 :=
  match inputs[x/inputWords]? with
  | some input => input ⟨x % inputWords,Nat.mod_lt _ (by decide)⟩
  | none => 0

/-- The executor that the measurements make up, for one state of the processor and the sandbox. -/
def kernelExecutor (warmups : ℤ) (e : Experiment μ ways) : Executor KernelInput where
  traceTestCase inputs := (List.range inputs.length).map fun k =>
    ((runExperiment p code stackBase warmups (flatInputs inputs) inputs.length e).measurements
      k).htrace.toNat

end Rounds

section Causality
variable {μ : Type} {ways : ℕ} (p : Processor μ ways) (code : Option (List Byte)) (stackBase : BitVec 64)
  {inputs inputs' : ℕ → BitVec 64}

/-- A round reads no words but those of its input. -/
lemma round_congr {i : ℤ} {m : ℕ} (hi : i < m) (hm : 0 < m)
    (h : ∀ x < m*inputWords, inputs x = inputs' x) (e : Experiment μ ways) :
    round p code stackBase inputs e i = round p code stackBase inputs' e i := by
  have index : i.toNat+1 ≤ m := by omega
  have same : ∀ j < inputWords, inputs (i.toNat*inputWords+j) = inputs' (i.toNat*inputWords+j) := by
    intro j hj
    apply h
    calc i.toNat*inputWords+j<(i.toNat+1)*inputWords := by rw [Nat.succ_mul]; omega
      _ ≤ m*inputWords := Nat.mul_le_mul_right _ index
  have filled : fillSandbox stackBase (fun j => inputs (i.toNat*inputWords+j)) e.sandbox =
      fillSandbox stackBase (fun j => inputs' (i.toNat*inputWords+j)) e.sandbox := by
    unfold fillSandbox
    congr 1
    · funext j
      exact same j (by unfold inputWords pageWords at *; omega)
    · funext j
      exact same (pageWords+j) (by unfold inputWords pageWords at *; omega)
    · funext j
      split_ifs with hlow hflags
      · exact same (1024+j) (by unfold inputWords pageWords at *; omega)
      · exact congrArg (· &&& 2263 ||| 2) (same (1024+6) (by decide))
      · rfl
      · rfl
  rw [round,round,filled]

/-- The other measurements are left alone. -/
lemma round_other (e : Experiment μ ways) {i : ℤ} {k : ℕ} (h : i.toNat ≠ k) :
    (round p code stackBase inputs e i).measurements k = e.measurements k :=
  Function.update_of_ne (Ne.symm h) _ _

lemma foldl_round_congr (warmups : ℤ) {m : ℕ} (hm : 0 < m)
    (h : ∀ x < m*inputWords, inputs x = inputs' x) (ks : List ℕ) (hks : ∀ k ∈ ks, (k : ℤ)-warmups < m)
    (e : Experiment μ ways) :
    ks.foldl (fun e (k : ℕ) => round p code stackBase inputs e (k-warmups)) e =
      ks.foldl (fun e (k : ℕ) => round p code stackBase inputs' e (k-warmups)) e := by
  induction ks generalizing e with
  | nil => rfl
  | cons k ks ih =>
    rw [List.forall_mem_cons] at hks
    rw [List.foldl_cons,List.foldl_cons,round_congr p code stackBase hks.1 hm h]
    exact ih hks.2 _

lemma foldl_round_other (warmups : ℤ) {k : ℕ} (ks : List ℕ)
    (hks : ∀ j ∈ ks, (k : ℤ)<j-warmups) (e : Experiment μ ways) :
    (ks.foldl (fun e (j : ℕ) => round p code stackBase inputs e (j-warmups)) e).measurements k =
      e.measurements k := by
  induction ks generalizing e with
  | nil => rfl
  | cons j ks ih =>
    rw [List.forall_mem_cons] at hks
    rw [List.foldl_cons,ih hks.2]
    exact round_other p code stackBase e (by omega)

/-- A measurement is final after its own round. -/
lemma measurement_final (warmups : ℤ) {k n : ℕ} (hk : k<n) (e : Experiment μ ways) :
    (runExperiment p code stackBase warmups inputs n e).measurements k =
      (runExperiment p code stackBase warmups inputs (k+1) e).measurements k := by
  obtain ⟨d,hd⟩ : ∃ d, ((n : ℤ)+warmups).toNat = ((k+1 : ℤ)+warmups).toNat+d :=
    Nat.exists_eq_add_of_le (by omega)
  rw [runExperiment,runExperiment,hd,List.range_add,List.foldl_append]
  apply foldl_round_other
  intro j hj
  obtain ⟨i,-,rfl⟩ := List.mem_map.mp hj
  push_cast
  omega

/-- It depends on the inputs up to its own. -/
lemma measurement_congr (warmups : ℤ) {k n n' : ℕ} (hk : k<n) (hk' : k<n')
    (h : ∀ x<(k+1)*inputWords, inputs x = inputs' x) (e : Experiment μ ways) :
    (runExperiment p code stackBase warmups inputs n e).measurements k =
      (runExperiment p code stackBase warmups inputs' n' e).measurements k := by
  rw [measurement_final p code stackBase warmups hk,measurement_final p code stackBase warmups hk',
    runExperiment,runExperiment]
  refine congrArg (·.measurements k) (foldl_round_congr p code stackBase warmups (Nat.succ_pos k) h _ ?_ e)
  intro j hj
  have := List.mem_range.mp hj
  push_cast
  omega

lemma flatInputs_congr {xs ys : List KernelInput} {k x : ℕ} (h : xs.take (k+1) = ys.take (k+1))
    (hx : x<(k+1)*inputWords) : flatInputs xs x = flatInputs ys x := by
  have index : x/inputWords<k+1 := Nat.div_lt_of_lt_mul (by rwa [Nat.mul_comm] at hx)
  have same : xs[x/inputWords]? = ys[x/inputWords]? := by
    have := congrArg (·[x/inputWords]?) h
    simpa [List.getElem?_take,index] using this
  rw [flatInputs,flatInputs,same]

/-- Whatever the processor remembers, the measurements are causal: the warm-up rounds see no other
input than the first. -/
theorem kernelExecutor_causal (warmups : ℤ) (e : Experiment μ ways) :
    (kernelExecutor p code stackBase warmups e).Causal where
  length xs := by simp [kernelExecutor]
  causal xs ys k h := by
    have lengths : k<xs.length ↔ k<ys.length := by
      have := congrArg List.length h
      simp only [List.length_take] at this
      omega
    by_cases hk : k<xs.length
    · have hk' := lengths.mp hk
      have same := measurement_congr p code stackBase warmups hk hk'
        (fun x hx => flatInputs_congr h hx) e
      simp only [kernelExecutor,List.getElem?_map,List.getElem?_range hk,List.getElem?_range hk',
        Option.map_some]
      rw [same]
    · have hk' := fun hlt => hk (lengths.mpr hlt)
      rw [List.getElem?_eq_none (by simpa [kernelExecutor] using hk),
        List.getElem?_eq_none (by simpa [kernelExecutor] using hk')]

end Causality

/-! ### The whole module -/

/-- What `load_template` leaves for a call: the code up to its `RET`, unless it returns an error. -/
def builtCode (template : ℕ → Byte) (testCase : List Byte) : Option (List Byte) :=
  let r := loadTemplate template testCase fun _ => 0
  if r.1 ≤ 0 then none else some (Memory.read r.2 0 (r.1.toNat+1))

/-- The module with its sandbox, on a processor. -/
structure Device (μ : Type) (ways : ℕ) where
  state : State
  uarch : μ
  sandbox : Sandbox ways

/-- A call of the interface; `setup` says whether the counters can be set up. -/
inductive DeviceOp where
  | testCaseStore (buf : List Byte)
  | nInputsStore (parsed : Option (BitVec 64)) (measurements : Option (ℕ → Measurement))
      (inputs : Option (ℕ → BitVec 64))
  | inputsStore (buf : List Byte)
  | traceShow (setup : Bool)

section Devices
variable {μ : Type} {ways : ℕ} (p : Processor μ ways) (template : ℕ → Byte) (stackBase : BitVec 64)
  (warmups : ℤ)

/-- `trace_test_case`: the rounds for all inputs, if nothing is missing. The buffer for the code is
never freed before the module is. -/
def traceTestCase (d : Device μ ways) (setup : Bool) : Option (Experiment μ ways) :=
  match d.state.measurements,d.state.inputs with
  | some ms,some b =>
    if setup then
      some (runExperiment p d.state.measurementCode stackBase warmups b.words d.state.nInputs.toInt
        ⟨d.uarch,d.sandbox,ms⟩)
    else none
  | _,_ => none

/-- The call of the protocol that belongs to a call of the device. -/
def DeviceOp.op (d : Device μ ways) : DeviceOp → Op
  | .testCaseStore buf => .testCaseStore buf
  | .nInputsStore parsed ms words => .nInputsStore parsed ms words
  | .inputsStore buf => .inputsStore buf
  | .traceShow setup =>
    .traceShow ((traceTestCase p stackBase warmups d setup).map (·.measurements))

/-- A call. The processor and the sandbox change if a measurement is started. -/
def deviceCall (d : Device μ ways) (op : DeviceOp) : Reply × Device μ ways :=
  let (r,s) := call (builtCode template) d.state (op.op p stackBase warmups d)
  match op with
  | .traceShow setup =>
    match traceTestCase p stackBase warmups d setup with
    | some e => (r,if r.started then ⟨s,e.uarch,e.sandbox⟩ else { d with state := s })
    | none => (r,{ d with state := s })
  | _ => (r,{ d with state := s })

/-- The device together with what its callers know. -/
def deviceAdvance (q : Device μ ways × History) (op : DeviceOp) : Device μ ways × History :=
  let (r,d) := deviceCall p template stackBase warmups q.1 op
  (d,q.2.next q.1.state (op.op p stackBase warmups q.1) r d.state)

/-- The words of some data, cut into inputs. -/
def deliveredInputs (data : List Byte) (n : ℕ) : List KernelInput :=
  (List.range n).map fun i (j : Fin inputWords) => word data (i*inputWords+j.val)

end Devices

section Whole
variable {μ : Type} {ways : ℕ} {p : Processor μ ways} {template : ℕ → Byte} {stackBase : BitVec 64}
  {warmups : ℤ} {d : Device μ ways}

lemma deviceCall_state (op : DeviceOp) :
    (deviceCall p template stackBase warmups d op).2.state =
      (call (builtCode template) d.state (op.op p stackBase warmups d)).2 := by
  rw [deviceCall]
  cases op with
  | traceShow setup =>
    dsimp only
    cases traceTestCase p stackBase warmups d setup with
    | none => rfl
    | some e =>
      dsimp only
      split <;> rfl
  | _ => rfl

lemma deviceCall_reply (op : DeviceOp) : (deviceCall p template stackBase warmups d op).1 =
    (call (builtCode template) d.state (op.op p stackBase warmups d)).1 := by
  rw [deviceCall]
  cases op with
  | traceShow setup =>
    dsimp only
    cases traceTestCase p stackBase warmups d setup <;> rfl
  | _ => rfl

/-- A call of the device is a call of the protocol. -/
lemma deviceAdvance_advance (q : Device μ ways × History) (op : DeviceOp) :
    ((deviceAdvance p template stackBase warmups q op).1.state,
      (deviceAdvance p template stackBase warmups q op).2) =
      advance (builtCode template) (q.1.state,q.2) (op.op p stackBase warmups q.1) := by
  have state : (deviceCall p template stackBase warmups q.1 op).2.state = _ := deviceCall_state op
  have reply : (deviceCall p template stackBase warmups q.1 op).1 = _ := deviceCall_reply op
  change ((deviceCall p template stackBase warmups q.1 op).2.state,q.2.next q.1.state _
    (deviceCall p template stackBase warmups q.1 op).1
    (deviceCall p template stackBase warmups q.1 op).2.state) = _
  rw [state,reply]
  rfl

/-- The words of the buffer are those of the inputs that were delivered. -/
lemma deliveredInputs_words {data : List Byte} {n x : ℕ} (hx : x<n*inputWords) :
    flatInputs (deliveredInputs data n) x = word data x := by
  have index : x/inputWords<n := Nat.div_lt_of_lt_mul (by rwa [Nat.mul_comm] at hx)
  have input : (deliveredInputs data n)[x/inputWords]? =
      some fun j : Fin inputWords => word data (x/inputWords*inputWords+j.val) := by
    rw [deliveredInputs,List.getElem?_map,List.getElem?_range index]
    rfl
  have whole : x/inputWords*inputWords+x % inputWords = x := by
    rw [Nat.mul_comm]
    exact Nat.div_add_mod x inputWords
  rw [flatInputs,input]
  exact congrArg (word data) whole

lemma lastFirst_map {α : Type} (ms : ℕ → Measurement) (f : Measurement → α) (n : ℕ) :
    (lastFirst ms n).map f = ((List.range n).map fun k => f (ms k)).reverse := by
  induction n with
  | zero => rfl
  | succ n ih => rw [lastFirst,List.map_cons,ih,List.range_succ,List.map_append,List.reverse_append]; rfl

/-- Code has been built whenever a test case is ready. -/
def Built (s : State) : Prop := s.testCaseReady → s.measurementCode ≠ none

lemma Built.step {loadTemplate : List Byte → Option (List Byte)} {s : State} (built : Built s) {op : Op}
    (ok : Follows loadTemplate s op) : Built (call loadTemplate s op).2 := by
  cases op with
  | testCaseStore buf =>
    rw [call,testCaseStore]
    by_cases large : maxTestCaseSize ≤ buf.length
    · rwa [if_pos large]
    · obtain ⟨code,hcode⟩ := Option.ne_none_iff_exists'.mp (ok.resolve_left large)
      simp only [if_neg large,hcode]
      intro _ h
      cases h
  | nInputsStore parsed ms words =>
    rw [call]
    obtain ⟨_,_,he⟩ | ⟨_,_,he⟩ | ⟨_,_,_,he⟩ | ⟨_,he⟩ := nInputsStore_cases s parsed ms words
    all_goals
      rw [he]
      exact built
  | inputsStore buf =>
    rw [call]
    obtain ⟨_,he⟩ | he | ⟨_,_,_,_,he⟩ := inputsStore_cases s buf
    all_goals
      rw [he]
      exact built
  | traceShow results =>
    rw [call]
    obtain ⟨_,_,_,he⟩ | ⟨_,_,_,_,_,he⟩ | ⟨_,_,_,he⟩ := traceShow_cases s results
    all_goals
      rw [he]
      exact built

/-- What ties the device to the history. -/
def Loaded (template : ℕ → Byte) (q : Device μ ways × History) : Prop :=
  Tracked (builtCode template) q.1.state q.2 ∧ Built q.1.state

/-- The calls that follow the protocol. -/
def Allowed (p : Processor μ ways) (template : ℕ → Byte) (stackBase : BitVec 64) (warmups : ℤ)
    (q : Device μ ways × History) (op : DeviceOp) : Prop :=
  Follows (builtCode template) q.1.state (op.op p stackBase warmups q.1)

lemma Loaded.step {q : Device μ ways × History} (loaded : Loaded template q) {op : DeviceOp}
    (ok : Allowed p template stackBase warmups q op) :
    Loaded template (deviceAdvance p template stackBase warmups q op) := by
  obtain ⟨state,history⟩ := Prod.ext_iff.mp
    (deviceAdvance_advance q op : (_,(deviceAdvance p template stackBase warmups q op).2) = _)
  dsimp only at state history
  constructor
  · rw [state,history]
    exact loaded.1.step ok
  · rw [state]
    exact loaded.2.step ok

/-- The counters of a run that came about. -/
lemma traceTestCase_some {setup : Bool} {e : Experiment μ ways}
    (he : traceTestCase p stackBase warmups d setup = some e) :
    ∃ ms b, d.state.measurements = some ms ∧ d.state.inputs = some b ∧
      e = runExperiment p d.state.measurementCode stackBase warmups b.words d.state.nInputs.toInt
        ⟨d.uarch,d.sandbox,ms⟩ := by
  rw [traceTestCase] at he
  cases hm : d.state.measurements with
  | none =>
    rw [hm] at he
    cases he
  | some ms =>
    cases hi : d.state.inputs with
    | none =>
      rw [hm,hi] at he
      cases he
    | some b =>
      simp only [hm,hi] at he
      split at he
      · exact ⟨ms,b,rfl,rfl,(Option.some.inj he).symm⟩
      · cases he

/-- The measurements of a run over all that was delivered are the traces of the executor. -/
lemma measurements_traces {b : Buffer} {ms : ℕ → Measurement} {code : Option (List Byte)}
    {data : List Byte} {n : ℕ} (words : ∀ i, 8*i<n*inputSize → b.words i = word data i) :
    (lastFirst (runExperiment p code stackBase warmups b.words n ⟨d.uarch,d.sandbox,ms⟩).measurements
      n).map (fun m => (m.htrace.toNat : HTrace)) =
    ((kernelExecutor p code stackBase warmups ⟨d.uarch,d.sandbox,ms⟩).traceTestCase
      (deliveredInputs data n)).reverse := by
  have length : (deliveredInputs data n).length = n := by simp [deliveredInputs]
  rw [lastFirst_map,kernelExecutor]
  dsimp only
  rw [length]
  congr 1
  apply List.map_congr_left
  intro k hk
  have hk := List.mem_range.mp hk
  rw [measurement_congr p code stackBase warmups hk hk]
  intro x hx
  have inside : x<n*inputWords := hx.trans_le (Nat.mul_le_mul_right _ hk)
  rw [deliveredInputs_words inside]
  apply words
  unfold inputWords pageWords at inside
  unfold inputSize
  omega

/-- A call that starts a run without an error. -/
lemma started_cases {loadTemplate : List Byte → Option (List Byte)} {s : State}
    {results : Option (ℕ → Measurement)} (started : (call loadTemplate s (.traceShow results)).1.started)
    (noError : (call loadTemplate s (.traceShow results)).1.error = false) :
    ∃ new, results = some new ∧ s.nextMeasurementId<0 ∧ s.testCaseReady ∧ s.inputsReady := by
  rw [call] at started noError
  obtain ⟨-,_,-,hs⟩ | ⟨new,hr,idle,testCaseReady,inputsReady,-⟩ | ⟨_,-,-,hs⟩ := traceShow_cases s results
  · rw [hs] at noError
    cases noError
  · exact ⟨new,hr,idle,testCaseReady,inputsReady⟩
  · rw [hs] at started
    cases started

/-- A call of `trace_show` starts a run without an error. -/
def Starts (p : Processor μ ways) (template : ℕ → Byte) (stackBase : BitVec 64) (warmups : ℤ)
    (d : Device μ ways) (setup : Bool) : Prop :=
  let r := (deviceCall p template stackBase warmups d (.traceShow setup)).1
  r.started ∧ r.error = false

/-- The call prints the traces that the executor for the last test case gives for the delivered
inputs, the last one first; what does not fit into the page is left for the next calls. -/
def PrintsTraces (p : Processor μ ways) (template : ℕ → Byte) (stackBase : BitVec 64) (warmups : ℤ)
    (q : Device μ ways × History) (setup : Bool) : Prop :=
  let r := (deviceCall p template stackBase warmups q.1 (.traceShow setup)).1
  let left := (deviceAdvance p template stackBase warmups q (.traceShow setup)).2.pending
  ∃ testCase code n ms,
    q.2.testCase = some testCase ∧ builtCode template testCase = some code ∧
    q.2.declared = some n ∧ q.2.delivered.length = n*inputSize ∧
    (r.printed ++ left).map (fun m => (m.htrace.toNat : HTrace)) =
      ((kernelExecutor p (some code) stackBase warmups ⟨q.1.uarch,q.1.sandbox,ms⟩).traceTestCase
        (deliveredInputs q.2.delivered n)).reverse ∧
    (r.done ↔ left = [])

lemma Loaded.prints {q : Device μ ways × History} (loaded : Loaded template q) {setup : Bool}
    (allowed : Allowed p template stackBase warmups q (.traceShow setup))
    (starts : Starts p template stackBase warmups q.1 setup) :
    PrintsTraces p template stackBase warmups q setup := by
  obtain ⟨results,hresults⟩ : ∃ results,
    (traceTestCase p stackBase warmups q.1 setup).map (·.measurements) = results := ⟨_,rfl⟩
  have op : DeviceOp.op p stackBase warmups q.1 (.traceShow setup) = .traceShow results :=
    congrArg Op.traceShow hresults
  obtain ⟨started,noError⟩ := starts
  have reply : (deviceCall p template stackBase warmups q.1 (.traceShow setup)).1 =
      (call (builtCode template) q.1.state (.traceShow results)).1 := by
    rw [← op]
    exact deviceCall_reply _
  have ok : Follows (builtCode template) q.1.state (.traceShow results) := by
    rw [← op]
    exact allowed
  obtain ⟨new,rfl,idle,testCaseReady,inputsReady⟩ := started_cases (reply ▸ started) (reply ▸ noError)
  obtain ⟨rest,printed,done⟩ := (loaded.1.sound ok).printed (reply ▸ noError) _ rfl
  rw [← reply] at printed done
  have left : (deviceAdvance p template stackBase warmups q (.traceShow setup)).2.pending = rest := by
    have next : (deviceAdvance p template stackBase warmups q (.traceShow setup)).2.pending =
        (q.2.toPrint q.1.state (.traceShow (some new))
          (deviceCall p template stackBase warmups q.1 (.traceShow setup)).1).drop
          (deviceCall p template stackBase warmups q.1 (.traceShow setup)).1.printed.length := by
      rw [← op]
      rfl
    rw [next,printed,List.drop_left]
  have all : q.2.toPrint q.1.state (.traceShow (some new))
      (deviceCall p template stackBase warmups q.1 (.traceShow setup)).1 =
        lastFirst new q.1.state.nInputs.toNat :=
    if_pos ⟨started,by rw [noError]; decide⟩
  obtain ⟨e,ran,rfl⟩ := Option.map_eq_some_iff.mp hresults
  obtain ⟨held,b,hm,hi,rfl⟩ := traceTestCase_some ran
  obtain ⟨⟨testCase,known,code⟩,declared,delivered,buffer⟩ :=
    loaded.1.complete ok idle testCaseReady inputsReady
  obtain ⟨code',built⟩ := Option.ne_none_iff_exists'.mp (loaded.2 testCaseReady)
  have count : q.1.state.nInputs.toInt = q.1.state.nInputs.toNat := by
    have := ok.few idle inputsReady
    exact BitVec.toInt_eq_toNat_of_lt (by omega)
  refine ⟨testCase,code',_,held,known,code.symm.trans built,declared,delivered,?_,?_⟩
  · rw [left,← printed,all,built,count]
    exact measurements_traces (buffer b hi)
  · rw [left]
    exact done

/-- In every run whose callers follow the protocol, whatever the processor does, a call that starts a
measurement prints the traces of the test case and the inputs that were loaded. -/
theorem traceShow_traces (p : Processor μ ways) (template : ℕ → Byte) (stackBase : BitVec 64)
    (warmups : ℤ) (words : ℕ → BitVec 64) (ms : ℕ → Measurement) (uarch : μ) (sandbox : Sandbox ways)
    (ops : List DeviceOp)
    (h : Runs.Meets (deviceAdvance p template stackBase warmups) (Allowed p template stackBase warmups)
      (⟨init words ms,uarch,sandbox⟩,{}) ops)
    {pre post : List DeviceOp} {setup : Bool} (he : ops = pre ++ .traceShow setup :: post)
    {q : Device μ ways × History}
    (hq : q = Runs.after (deviceAdvance p template stackBase warmups)
      (⟨init words ms,uarch,sandbox⟩,{}) pre)
    (starts : Starts p template stackBase warmups q.1 setup) :
    PrintsTraces p template stackBase warmups q setup := by
  subst hq he
  obtain ⟨hpre,allowed⟩ := h.of_append
  have loaded := hpre.invariant (I := Loaded template) (fun _ _ inv ok => inv.step ok)
    ⟨tracked_init words ms,nofun⟩
  exact loaded.prints allowed starts

/-- A processor that measures the first word of the main region. -/
def wordProcessor : Processor Unit 1 where
  prepare := id
  execute _ u sandbox := (u,{ sandbox with
    latestMeasurement := ⟨sandbox.mainRegion ⟨0,by decide⟩,6,7,8⟩ })

/-- Two inputs, in three pages each. -/
def twoInputs : List DeviceOp :=
  [.nInputsStore (some 2) (some fun _ => ⟨0,0,0,0⟩) (some fun _ => 0),
    .inputsStore (List.replicate 4096 1),.inputsStore (List.replicate 4096 1),
    .inputsStore (List.replicate 4096 1),
    .inputsStore (List.replicate 4096 2),.inputsStore (List.replicate 4096 2),
    .inputsStore (List.replicate 4096 2)]

/-- The device when the test case is loaded. -/
def loadedDevice : Device Unit 1 × History :=
  (⟨{ init (fun _ => 0) (fun _ => ⟨0,0,0,0⟩) with
      testCase := [0x90], measurementCode := some [0x90,ret], testCaseReady := true },(),
    ⟨fun _ _ => 0,fun _ => 0,fun _ => 0,fun _ => 0,fun _ => 0,0,⟨0,0,0,0⟩⟩⟩,{ testCase := some [0x90] })

lemma bareTemplate_built : builtCode bareTemplate [0x90] = some [0x90,ret] := by
  have assembled : assembled bareTemplate 0 8 16 [0x90] = [0x90] := by decide
  rw [builtCode,loadTemplate_parts _ _ bareTemplate_parts,assembled]
  decide

lemma advance_loaded (template : ℕ → Byte) (ht : builtCode template [0x90] = some [0x90,ret]) :
    deviceAdvance wordProcessor template 0 0
      (⟨init (fun _ => 0) (fun _ => ⟨0,0,0,0⟩),(),loadedDevice.1.sandbox⟩,{}) (.testCaseStore [0x90]) =
    loadedDevice := by
  have stored : testCaseStore (init (fun _ => 0) (fun _ => ⟨0,0,0,0⟩)) (builtCode template) [0x90] =
      ({},loadedDevice.1.state) := by
    rw [testCaseStore,if_neg (by decide)]
    simp only [ht]
    rfl
  simp only [deviceAdvance,deviceCall,DeviceOp.op,call,stored]
  rfl

/-- The trace of the second input is printed first. -/
theorem traceShow_traces_two :
    PrintsTraces wordProcessor bareTemplate 0 0
      (Runs.after (deviceAdvance wordProcessor bareTemplate 0 0) loadedDevice twoInputs) true ∧
    (deviceCall wordProcessor bareTemplate 0 0
      (Runs.after (deviceAdvance wordProcessor bareTemplate 0 0) loadedDevice twoInputs).1
      (.traceShow true)).1.printed.map (·.htrace) = [0x0202020202020202,0x0101010101010101] := by
  have first := advance_loaded bareTemplate bareTemplate_built
  have split : DeviceOp.testCaseStore [0x90] :: (twoInputs ++ [.traceShow true]) =
    (.testCaseStore [0x90] :: twoInputs) ++ .traceShow true :: [] := rfl
  refine ⟨?_,by decide +kernel⟩
  refine traceShow_traces wordProcessor bareTemplate 0 0 (fun _ => 0) (fun _ => ⟨0,0,0,0⟩) ()
    loadedDevice.1.sandbox (.testCaseStore [0x90] :: (twoInputs ++ [.traceShow true])) ⟨.inr ?_,?_⟩
    split ?_ ?_
  · rw [bareTemplate_built]
    nofun
  · rw [first]
    refine ⟨⟨by decide,by decide,by decide⟩,?_,?_,?_,?_,?_,?_,?_,trivial⟩
    · exact ⟨by decide +kernel,by decide +kernel,by decide +kernel⟩
    · exact ⟨by decide +kernel,by decide +kernel,by decide +kernel⟩
    · exact ⟨by decide +kernel,by decide +kernel,by decide +kernel⟩
    · exact ⟨by decide +kernel,by decide +kernel,by decide +kernel⟩
    · exact ⟨by decide +kernel,by decide +kernel,by decide +kernel⟩
    · exact ⟨by decide +kernel,by decide +kernel,by decide +kernel⟩
    · exact fun _ _ => by decide +kernel
  · rw [Runs.after,Runs.after,List.foldl_cons,first]
  · exact ⟨by decide +kernel,by decide +kernel⟩

end Whole

end ProteanAmulet.KernelExecutor
