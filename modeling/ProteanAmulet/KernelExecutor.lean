import ProteanAmulet.Library.Runs
import ProteanAmulet.Model.Emulator

/-! The loading protocol of the kernel module: the attributes of its sysfs interface are called in
any order, may fail, and share a few flags and counters. What `vmalloc` and the measurement return
is part of an operation; `load_template` is a parameter. -/
namespace ProteanAmulet.KernelExecutor

/-- `INPUT_SIZE`, in bytes. -/
def inputSize : ℕ := 4096+4096+4096

/-- `MAX_TEST_CASE_SIZE`. -/
def maxTestCaseSize : ℕ := 4096

structure Measurement where
  htrace : BitVec 64
  pfc0 : BitVec 64
  pfc1 : BitVec 64
  pfc2 : BitVec 64
  deriving DecidableEq

/-- The line that `trace_show` prints for a measurement. -/
def Measurement.line (m : Measurement) : String :=
  toString m.htrace.toNat ++ "," ++ toString m.pfc0.toNat ++ "," ++ toString m.pfc1.toNat ++ "," ++
    toString m.pfc2.toNat ++ "\n"

/-- A buffer of 64-bit words, with the number of bytes that it was allocated with. Words beyond its
end belong to something else. -/
structure Buffer where
  size : ℕ
  words : ℕ → BitVec 64

/-- The global variables of the module. -/
structure State where
  testCase : List Byte := []
  /-- What the last call of `load_template` has built, if it came to an end. -/
  measurementCode : Option (List Byte) := none
  testCaseReady : Bool := false
  nInputsReady : Bool := false
  inputsReady : Bool := false
  nInputs : BitVec 64 := 1
  inputsTop : BitVec 32 := 0
  inputs : Option Buffer
  measurements : Option (ℕ → Measurement)
  nextMeasurementId : ℤ := -1

/-- The module after `executor_init`, with what the new buffers hold. -/
def init (words : ℕ → BitVec 64) (measurements : ℕ → Measurement) : State where
  inputs := some ⟨inputSize,words⟩
  measurements := some measurements

/-- What a call returns, and what it does to the outside. -/
structure Reply where
  error : Bool := false
  /-- `trace_test_case` was called. -/
  started : Bool := false
  printed : List Measurement := []
  done : Bool := false
  /-- The indices of the elements of `inputs` that were assigned. -/
  written : List ℕ := []

/-- The words of a batch; bytes that do not make up a word are dropped. -/
def word (buf : List Byte) (i : ℕ) : BitVec 64 := BitVec.ofNat 64 (fromBytes ((buf.drop (8*i)).take 8))

section Operations
variable (s : State)

/-- `test_case_store`. -/
def testCaseStore (loadTemplate : List Byte → Option (List Byte)) (buf : List Byte) :
    Reply × State :=
  if maxTestCaseSize ≤ buf.length then ({ error := true },s)
  else
    let s := { s with
      testCase := buf ++ s.testCase.drop buf.length
      measurementCode := loadTemplate buf }
    match loadTemplate buf with
    | none => ({ error := true },s)
    | some _ => ({},{ s with
        testCaseReady := true
        nInputsReady := false
        inputsReady := false
        nextMeasurementId := -1 })

/-- `n_inputs_store`: `parsed` is what `sscanf` has read, and the others are the new buffers. -/
def nInputsStore (parsed : Option (BitVec 64)) (measurements : Option (ℕ → Measurement))
    (inputs : Option (ℕ → BitVec 64)) : Reply × State :=
  let n := parsed.getD s.nInputs
  if s.nInputs<n then
    match measurements,inputs with
    | none, _ => ({ error := true },{ s with nInputs := n, measurements := none })
    | some ms, none =>
      ({ error := true },{ s with nInputs := n, measurements := some ms, inputs := none })
    | some ms, some words => ({},{ s with
        nInputs := n
        measurements := some ms
        inputs := some ⟨(n*BitVec.ofNat 64 inputSize).toNat,words⟩
        inputsTop := 0
        nInputsReady := true })
  else ({},{ s with nInputs := n, inputsTop := 0, nInputsReady := true })

/-- The loop of `inputs_store`: the index is an `unsigned`. -/
def storeBatch (words : ℕ → BitVec 64) (top : BitVec 32) (buf : List Byte) (batchSize : ℕ) :
    ℕ → BitVec 64 :=
  (List.range batchSize).foldl
    (fun m i => Function.update m (top+BitVec.ofNat 32 i).toNat (word buf i)) words

/-- The indices that the loop assigns. -/
def batchIndices (top : BitVec 32) (batchSize : ℕ) : List ℕ :=
  (List.range batchSize).map fun i => (top+BitVec.ofNat 32 i).toNat

/-- `inputs_store`. -/
def inputsStore (buf : List Byte) : Reply × State :=
  if s.nInputsReady = false then ({ error := true },s)
  else match s.inputs with
    | none => ({ error := true },{ s with inputsReady := false })
    | some b =>
      let batchSize := BitVec.ofNat 32 (buf.length/8)
      -- the sum has 32 bits and counts words, the product counts bytes
      if s.nInputs*BitVec.ofNat 64 inputSize<(s.inputsTop+batchSize).setWidth 64 then
        ({ error := true },{ s with inputsReady := false })
      else
        ({ written := batchIndices s.inputsTop batchSize.toNat },
          { s with
            inputs := some { b with words := storeBatch b.words s.inputsTop buf batchSize.toNat }
            inputsTop := s.inputsTop+batchSize
            inputsReady := true })

/-- The printing loop, for the measurements below `k`: those that fit into the page, and how many
are left. -/
def printFrom (ms : ℕ → Measurement) : ℕ → ℕ → List Measurement × ℕ
  | 0, _ => ([],0)
  | k+1, count =>
    if 4096-84 ≤ count then ([],k+1)
    else
      let (printed,left) := printFrom ms k (count+(ms k).line.length)
      (ms k :: printed,left)

/-- The second half of `trace_show`. -/
def printResults (ms : ℕ → Measurement) (started : Bool) : Reply × State :=
  let (printed,left) := printFrom ms (s.nextMeasurementId+1).toNat 0
  ({ started := started, printed := printed, done := left = 0 },
    { s with nextMeasurementId := if s.nextMeasurementId<0 then s.nextMeasurementId else left-1 })

/-- `trace_show`: `results` is what the measurements hold after `trace_test_case`, unless it fails. -/
def traceShow (results : Option (ℕ → Measurement)) : Reply × State :=
  match s.measurements with
  | none => ({ error := true },s)
  | some ms =>
    if s.nextMeasurementId<0 then
      if s.testCaseReady = false ∨ s.inputsReady = false then ({ error := true },s)
      else match s.inputs,results with
        | some _, some ms => printResults { s with
            measurements := some ms
            nextMeasurementId := ((s.nInputs-1).setWidth 32).toInt } ms true
        | _, _ => ({ error := true, started := true },s)
    else printResults s ms false

end Operations

/-- A call of the interface. -/
inductive Op where
  | testCaseStore (buf : List Byte)
  | nInputsStore (parsed : Option (BitVec 64)) (measurements : Option (ℕ → Measurement))
      (inputs : Option (ℕ → BitVec 64))
  | inputsStore (buf : List Byte)
  | traceShow (results : Option (ℕ → Measurement))

def call (loadTemplate : List Byte → Option (List Byte)) (s : State) : Op → Reply × State
  | .testCaseStore buf => testCaseStore s loadTemplate buf
  | .nInputsStore parsed ms words => nInputsStore s parsed ms words
  | .inputsStore buf => inputsStore s buf
  | .traceShow results => traceShow s results

section Bounds
variable {loadTemplate : List Byte → Option (List Byte)} {s : State}

/-- The words of the inputs with the batch, without wrapping around. -/
def State.total (s : State) (buf : List Byte) : ℕ := s.inputsTop.toNat+buf.length/8

/-- The bytes of all inputs, without wrapping around. -/
def State.bytes (s : State) : ℕ := s.nInputs.toNat*inputSize

/-- The batches stay within the inputs that were announced, or go so far beyond them that even a
count of words shows it; the measurements can be allocated; and nothing wraps around. -/
def WithinBounds (s : State) : Op → Prop
  | .nInputsStore parsed ms _ =>
    let n := parsed.getD s.nInputs
    n.toNat*inputSize<2^64 ∧ (s.nInputs<n → ms ≠ none)
  | .inputsStore buf => s.total buf<2^32 ∧ (8*s.total buf ≤ s.bytes ∨ s.bytes<s.total buf)
  | _ => True

/-- The buffer has room for all inputs. -/
structure Roomy (s : State) : Prop where
  fits : s.bytes<2^64
  room : ∀ b, s.inputs = some b → s.bytes ≤ b.size

/-- What one call may write: elements of the buffer, with sums that do not wrap around, and nothing
for a batch that has no room. -/
structure WritesInside (loadTemplate : List Byte → Option (List Byte)) (s : State) (op : Op) :
    Prop where
  inside : ∀ i ∈ (call loadTemplate s op).1.written,
    ∃ b, s.inputs = some b ∧ 8*i+8 ≤ b.size
  exact : ∀ buf b, op = .inputsStore buf → s.nInputsReady → s.inputs = some b →
    (s.inputsTop+BitVec.ofNat 32 (buf.length/8)).toNat = s.total buf ∧
      (s.nInputs*BitVec.ofNat 64 inputSize).toNat = s.bytes
  rejected : ∀ buf b, op = .inputsStore buf → s.inputs = some b → b.size<8*s.total buf →
    (call loadTemplate s op).1.error ∧ (call loadTemplate s op).1.written = [] ∧
      (call loadTemplate s op).2.inputs = s.inputs

lemma toNat_mul_inputSize {n : BitVec 64} (h : n.toNat*inputSize<2^64) :
    (n*BitVec.ofNat 64 inputSize).toNat = n.toNat*inputSize := by
  have : (BitVec.ofNat 64 inputSize).toNat = inputSize := rfl
  rw [BitVec.toNat_mul,this,Nat.mod_eq_of_lt h]

lemma toNat_add_batch {top : BitVec 32} {n : ℕ} (h : top.toNat+n<2^32) :
    (top+BitVec.ofNat 32 n).toNat = top.toNat+n := by
  rw [BitVec.toNat_add,BitVec.toNat_ofNat]
  omega

/-- The check of `inputs_store` when nothing wraps around. -/
lemma check_iff {buf : List Byte} (fits : s.bytes<2^64) (small : s.total buf<2^32) :
    s.nInputs*BitVec.ofNat 64 inputSize<
      (s.inputsTop+BitVec.ofNat 32 (buf.length/8)).setWidth 64 ↔ s.bytes<s.total buf := by
  rw [BitVec.lt_def,BitVec.toNat_setWidth,toNat_mul_inputSize fits,toNat_add_batch small]
  change _<s.total buf % 2^64 ↔ _
  rw [Nat.mod_eq_of_lt (small.trans (by decide))]
  rfl

/-- The state after a batch was taken. -/
def State.stored (s : State) (b : Buffer) (buf : List Byte) : State :=
  let batchSize := BitVec.ofNat 32 (buf.length/8)
  { s with
    inputs := some { b with words := storeBatch b.words s.inputsTop buf batchSize.toNat }
    inputsTop := s.inputsTop+batchSize
    inputsReady := true }

/-- What `inputs_store` can do: reject the batch, or take it. -/
theorem inputsStore_cases (s : State) (buf : List Byte) :
    (s.nInputsReady = false ∧ inputsStore s buf = ({ error := true },s)) ∨
    inputsStore s buf = ({ error := true },{ s with inputsReady := false }) ∨
    ∃ b, s.nInputsReady ∧ s.inputs = some b ∧
      ¬s.nInputs*BitVec.ofNat 64 inputSize<
        (s.inputsTop+BitVec.ofNat 32 (buf.length/8)).setWidth 64 ∧
      inputsStore s buf =
        ({ written := batchIndices s.inputsTop (BitVec.ofNat 32 (buf.length/8)).toNat },
          s.stored b buf) := by
  unfold inputsStore
  by_cases hr : s.nInputsReady = false
  · exact .inl ⟨hr,by rw [if_pos hr]⟩
  · right
    rw [if_neg hr]
    cases hi : s.inputs with
    | none => exact .inl rfl
    | some b =>
      by_cases check : s.nInputs*BitVec.ofNat 64 inputSize<
          (s.inputsTop+BitVec.ofNat 32 (buf.length/8)).setWidth 64
      · left
        simp only [if_pos check]
      · right
        refine ⟨b,by simpa using hr,rfl,check,?_⟩
        simp only [if_neg check]
        rfl

/-- What `n_inputs_store` can do. -/
theorem nInputsStore_cases (s : State) (parsed : Option (BitVec 64))
    (ms : Option (ℕ → Measurement)) (words : Option (ℕ → BitVec 64)) :
    let n := parsed.getD s.nInputs
    (s.nInputs<n ∧ ms = none ∧ nInputsStore s parsed ms words =
      ({ error := true },{ s with nInputs := n, measurements := none })) ∨
    (s.nInputs<n ∧ ms ≠ none ∧ nInputsStore s parsed ms words =
      ({ error := true },{ s with nInputs := n, measurements := ms, inputs := none })) ∨
    (∃ ws, s.nInputs<n ∧ ms ≠ none ∧ nInputsStore s parsed ms words = ({},{ s with
      nInputs := n
      measurements := ms
      inputs := some ⟨(n*BitVec.ofNat 64 inputSize).toNat,ws⟩
      inputsTop := 0
      nInputsReady := true })) ∨
    (¬s.nInputs<n ∧ nInputsStore s parsed ms words =
      ({},{ s with nInputs := n, inputsTop := 0, nInputsReady := true })) := by
  intro n
  unfold nInputsStore
  by_cases grows : s.nInputs<n
  · rw [if_pos grows]
    match ms,words with
    | none, _ => exact .inl ⟨grows,rfl,rfl⟩
    | some ms, none => exact .inr (.inl ⟨grows,by simp,rfl⟩)
    | some ms, some ws => exact .inr (.inr (.inl ⟨ws,grows,by simp,rfl⟩))
  · rw [if_neg grows]
    exact .inr (.inr (.inr ⟨grows,rfl⟩))

lemma testCaseStore_inputs (buf : List Byte) :
    (testCaseStore s loadTemplate buf).1.written = [] ∧
      (testCaseStore s loadTemplate buf).2.inputs = s.inputs ∧
      (testCaseStore s loadTemplate buf).2.nInputs = s.nInputs := by
  unfold testCaseStore
  split
  · exact ⟨rfl,rfl,rfl⟩
  · cases loadTemplate buf <;> exact ⟨rfl,rfl,rfl⟩

lemma traceShow_inputs (results : Option (ℕ → Measurement)) :
    (traceShow s results).1.written = [] ∧ (traceShow s results).2.inputs = s.inputs ∧
      (traceShow s results).2.nInputs = s.nInputs := by
  unfold traceShow
  split
  · exact ⟨rfl,rfl,rfl⟩
  · split
    · split
      · exact ⟨rfl,rfl,rfl⟩
      · split
        · exact ⟨rfl,rfl,rfl⟩
        · exact ⟨rfl,rfl,rfl⟩
    · exact ⟨rfl,rfl,rfl⟩

lemma Roomy.of_eq {s' : State} (h : Roomy s) (hi : s'.inputs = s.inputs)
    (hn : s'.nInputs = s.nInputs) : Roomy s' := by
  have bytes : s'.bytes = s.bytes := by rw [State.bytes,hn,State.bytes]
  constructor
  · rw [bytes]
    exact h.fits
  · intro b hb
    rw [bytes]
    rw [hi] at hb
    exact h.room b hb

/-- A step of the invariant. -/
lemma Roomy.step (h : Roomy s) {op : Op} (ok : WithinBounds s op) :
    Roomy (call loadTemplate s op).2 := by
  cases op with
  | testCaseStore buf => exact h.of_eq (testCaseStore_inputs buf).2.1 (testCaseStore_inputs buf).2.2
  | traceShow results => exact h.of_eq (traceShow_inputs results).2.1 (traceShow_inputs results).2.2
  | nInputsStore parsed ms words =>
    obtain ⟨fits,allocated⟩ := ok
    change Roomy (nInputsStore s parsed ms words).2
    obtain ⟨grows,hm,he⟩ | ⟨grows,hm,he⟩ | ⟨ws,grows,hm,he⟩ | ⟨grows,he⟩ :=
      nInputsStore_cases s parsed ms words
    · exact absurd hm (allocated grows)
    · rw [he]
      exact ⟨fits,nofun⟩
    · rw [he]
      refine ⟨fits,?_⟩
      rintro b ⟨⟩
      exact (toNat_mul_inputSize fits).ge
    · rw [he]
      refine ⟨fits,?_⟩
      intro b hb
      have shrinks : (parsed.getD s.nInputs).toNat ≤ s.nInputs.toNat := Nat.le_of_not_lt grows
      exact (Nat.mul_le_mul_right inputSize shrinks).trans (h.room b hb)
  | inputsStore buf =>
    change Roomy (inputsStore s buf).2
    obtain ⟨_,he⟩ | he | ⟨b,_,hb,_,he⟩ := inputsStore_cases s buf
    · rw [he]
      exact h
    · rw [he]
      exact ⟨h.fits,h.room⟩
    · rw [he]
      refine ⟨h.fits,?_⟩
      rintro b' ⟨⟩
      exact h.room b hb

lemma mem_batchIndices {top : BitVec 32} {n i : ℕ} (h : top.toNat+n<2^32) :
    i ∈ batchIndices top (BitVec.ofNat 32 n).toNat ↔ top.toNat ≤ i ∧ i<top.toNat+n := by
  have size : (BitVec.ofNat 32 n).toNat = n := by
    rw [BitVec.toNat_ofNat]
    omega
  rw [size,batchIndices,List.mem_map]
  constructor
  · rintro ⟨k,hk,rfl⟩
    have := List.mem_range.mp hk
    rw [toNat_add_batch (by omega)]
    omega
  · intro hi
    refine ⟨i-top.toNat,List.mem_range.mpr (by omega),?_⟩
    rw [toNat_add_batch (by omega)]
    omega

lemma Roomy.inside (h : Roomy s) {op : Op} (ok : WithinBounds s op) :
    ∀ i ∈ (call loadTemplate s op).1.written, ∃ b, s.inputs = some b ∧ 8*i+8 ≤ b.size := by
  intro i hi
  cases op with
  | testCaseStore buf =>
    rw [call,(testCaseStore_inputs buf).1] at hi
    cases hi
  | traceShow results =>
    rw [call,(traceShow_inputs results).1] at hi
    cases hi
  | nInputsStore parsed ms words =>
    rw [call] at hi
    obtain ⟨_,_,he⟩ | ⟨_,_,he⟩ | ⟨_,_,_,he⟩ | ⟨_,he⟩ := nInputsStore_cases s parsed ms words
    all_goals
      rw [he] at hi
      cases hi
  | inputsStore buf =>
    obtain ⟨small,within⟩ := ok
    rw [call] at hi
    obtain ⟨_,he⟩ | he | ⟨b,_,hb,check,he⟩ := inputsStore_cases s buf
    · rw [he] at hi
      cases hi
    · rw [he] at hi
      cases hi
    · rw [he] at hi
      rw [check_iff h.fits small] at check
      have room := h.room b hb
      have range := (mem_batchIndices small).mp hi
      refine ⟨b,hb,?_⟩
      unfold State.total at within check
      omega

lemma Roomy.rejects (h : Roomy s) {buf : List Byte} (ok : WithinBounds s (.inputsStore buf))
    {b : Buffer} (hb : s.inputs = some b) (large : b.size<8*s.total buf) :
    (inputsStore s buf).1.error ∧ (inputsStore s buf).1.written = [] ∧
      (inputsStore s buf).2.inputs = s.inputs := by
  obtain ⟨_,he⟩ | he | ⟨b',_,_,check,he⟩ := inputsStore_cases s buf
  · rw [he]
    exact ⟨rfl,rfl,rfl⟩
  · rw [he]
    exact ⟨rfl,rfl,rfl⟩
  · rw [check_iff h.fits ok.1] at check
    have room := h.room b hb
    have within := ok.2
    omega

lemma Roomy.writesInside (h : Roomy s) {op : Op} (ok : WithinBounds s op) :
    WritesInside loadTemplate s op := by
  refine ⟨h.inside ok,?_,?_⟩
  · rintro buf b rfl _ _
    exact ⟨toNat_add_batch ok.1,toNat_mul_inputSize h.fits⟩
  · rintro buf b rfl hb large
    exact h.rejects ok hb large

lemma roomy_init (words : ℕ → BitVec 64) (ms : ℕ → Measurement) : Roomy (init words ms) := by
  have bytes : (init words ms).bytes = inputSize := Nat.one_mul inputSize
  constructor
  · rw [bytes]
    decide
  · intro b hb
    cases hb
    rw [bytes]

/-- In every run that stays within the announced inputs, all writes are inside of the buffer and
batches without room are rejected. -/
theorem inputsStore_inside (loadTemplate : List Byte → Option (List Byte)) (words : ℕ → BitVec 64)
    (ms : ℕ → Measurement) (ops : List Op)
    (h : Runs.Meets (fun s op => (call loadTemplate s op).2) WithinBounds (init words ms) ops)
    {pre post : List Op} {op : Op} (he : ops = pre ++ op :: post) :
    WritesInside loadTemplate
      (Runs.after (fun s op => (call loadTemplate s op).2) (init words ms) pre) op :=
  h.always (fun _ _ inv ok => inv.step ok) (fun _ _ inv ok => inv.writesInside ok)
    (roomy_init words ms) he

/-- One input in three pages. -/
theorem inputsStore_inside_three : WritesInside some
    (Runs.after (fun s op => (call some s op).2) (init (fun _ => 0) fun _ => ⟨0,0,0,0⟩)
      [.nInputsStore (some 1) none none,.inputsStore (List.replicate 4096 0),
        .inputsStore (List.replicate 4096 0)])
    (.inputsStore (List.replicate 4096 0)) := by
  refine inputsStore_inside some (fun _ => 0) (fun _ => ⟨0,0,0,0⟩)
    [.nInputsStore (some 1) none none,.inputsStore (List.replicate 4096 0),
      .inputsStore (List.replicate 4096 0),.inputsStore (List.replicate 4096 0)]
    ⟨⟨by decide,by decide⟩,?_,?_,?_,trivial⟩ rfl
  all_goals exact ⟨by decide +kernel,by decide +kernel⟩

/-- The fourth page of a single input is written behind the end of the buffer. -/
theorem inputsStore_not_inside : ¬WritesInside some
    (Runs.after (fun s op => (call some s op).2) (init (fun _ => 0) fun _ => ⟨0,0,0,0⟩)
      [.nInputsStore (some 1) none none,.inputsStore (List.replicate 4096 0),
        .inputsStore (List.replicate 4096 0),.inputsStore (List.replicate 4096 0)])
    (.inputsStore (List.replicate 4096 0)) := by
  intro h
  obtain ⟨b,hb,hsize⟩ := h.inside 1536 (by decide +kernel)
  have allocated : (some b).map Buffer.size = some inputSize := by
    rw [← hb]
    decide +kernel
  rw [Option.some.inj allocated] at hsize
  exact absurd hsize (by decide)

end Bounds

end ProteanAmulet.KernelExecutor
