import ProteanAmulet.Gem5Protocol
import ProteanAmulet.HardwareTraces
import ProteanAmulet.Library.Programs
import ProteanAmulet.Library.Text
import ProteanAmulet.Model.Interfaces

/-! Sessions with gem5: the pool of processes, what is asked of the active one, and the text that a
test case is traced as. A session over a network that cuts and delays the replies is compared with
one in which a single machine is called directly. -/
namespace ProteanAmulet.Gem5IPCOrchestration
open X86Gem5

/-! ### Exceptions -/

inductive IpcError where
  | crash (reason : Gem5Crash)
  | timeout
  | unexpected (name : String) (op : ℕ)
  | unknownPid (pid : ℕ)
  | testCase
  | inputHash (sent got : ℕ)
  | commits
  | noWords
  | notUtf8
  | noPc
  | noTick
  | noComma
  | noConnection
  /-- `readline` waits for a line that gem5 never prints. -/
  | noReset
  | simulateLimit
  | index
  deriving DecidableEq

/-- A number as `{op:016x}` prints it. -/
def hex16 (n : ℕ) : String :=
  String.ofList (List.replicate (16-(Nat.toDigits 16 n).length) '0' ++ Nat.toDigits 16 n)

/-- The texts of the exceptions that the orchestration raises itself. -/
def IpcError.message : IpcError → Option String
  | .crash reason => some reason.message
  | .unexpected name op => some (s!"expected {name} from gem5, got {hex16 op}" ++
      if name = "OP_ACK_TEST_CASE" then "." else "")
  | .testCase => some "test case not received correctly."
  | .inputHash sent got =>
    some s!"expected confirmation of input hash {hex16 sent}, got {hex16 got}"
  | .commits => some "crap"
  | _ => none

/-! ### Logs -/

section Logs

/-- `bytes.decode()`. -/
def decode (bytes : List UInt8) : Except IpcError (List Char) :=
  match String.fromUTF8? ⟨bytes.toArray⟩ with
  | some text => .ok text.toList
  | none => .error .notUtf8

def isHexDigit (c : Char) : Bool := c.isDigit || ('a' ≤ c && c ≤ 'f')

def hexDigit (c : Char) : ℕ := if c.isDigit then c.toNat-48 else c.toNat-87

/-- The pattern `pc:(0x[0-9a-f]+)` at the beginning of a text. -/
def matchPc (text : List Char) : Option ℕ :=
  (Text.afterPrefix "pc:0x".toList text).bind fun rest =>
    match rest.takeWhile isHexDigit with
    | [] => none
    | digits => some (digits.foldl (fun n c => 16*n+hexDigit c) 0)

/-- The first match of the pattern. -/
def searchPc : List Char → Option ℕ
  | [] => none
  | c :: text => matchPc (c :: text) <|> searchPc text

def codeAddrStart : ℕ := 0x402000

def codeAddrEnd : ℕ := 0x402200

/-- An entry of a log, unless it lies outside of the test case. -/
def filterEntry (timing : Bool) (entry : List Char) : Except IpcError (List (List Char)) :=
  match searchPc entry with
  | none => .error .noPc
  | some pc =>
    let kept (entry : List Char) := if codeAddrStart ≤ pc ∧ pc<codeAddrEnd then [entry] else []
    if timing then .ok (kept entry)
    else if ¬"tick:".toList <+: entry then .error .noTick
    else if ',' ∉ entry then .error .noComma
    else .ok (kept (entry.dropWhile (· ≠ ',')))

def filterEntries (timing : Bool) : List (List Char) → Except IpcError (List (List Char))
  | [] => .ok []
  | entry :: entries => do
    let first ← if entry = [] then .ok [] else filterEntry timing entry
    let rest ← filterEntries timing entries
    return first ++ rest

/-- `filtered_log`, joined again. -/
def filteredLog (timing : Bool) (log : List Char) : Except IpcError (List Char) :=
  (filterEntries timing (log.splitOn ';')).map (List.intercalate [';'])

/-- `array.array('Q', bytes)`, of which there has to be one. -/
def commitLog (bytes : List UInt8) : Except IpcError (List Char) :=
  if bytes.length % 8 ≠ 0 then .error .noWords
  else if bytes.length ≠ 8 then .error .commits
  else .ok (Nat.toDigits 10 (unpackWord bytes))

end Logs

/-! ### What gem5 prints -/

/-- The line that ends the output for an input. -/
def resetLine : List UInt8 := "--- RESET ---\n".toList.map fun c => UInt8.ofNat c.toNat

/-- The loop of `get_gem5_output`: the output up to the line that ends it, and the lines behind. -/
def readOutput : List (List UInt8) → Except IpcError (List UInt8 × List (List UInt8))
  | [] => .error .noReset
  | line :: lines =>
    if line = resetLine then .ok ([],lines)
    else (readOutput lines).map fun p => (line ++ p.1,p.2)

/-- `output.split('because')[-1].split('\n')[0]`. -/
def cause (output : List Char) : List Char :=
  ((output.tails.filterMap (Text.afterPrefix "because".toList)).getLast?.getD output).takeWhile
    (· ≠ '\n')

def limitReached (output : List Char) : Bool := cause output = " simulate() limit reached".toList

/-! ### The trace of an input -/

/-- What the orchestration does with gem5, once it is connected. -/
structure Exchange (τ : Type) where
  tell : Command → Program τ IpcError Unit
  input : ℕ → ℕ → List UInt8 → Program τ IpcError (List UInt8)
  get : Query → Program τ IpcError (List UInt8)

section Tracing
variable {τ : Type} {conf : Conf}

def onlyIf (c : Bool) (p : Program τ IpcError Unit) : Program τ IpcError Unit :=
  if c then p else pure ()

/-- Text that is added under a condition. -/
def added (c : Bool) (p : Program τ IpcError (List Char)) : Program τ IpcError (List Char) :=
  if c then p else pure []

def lift {α : Type} (result : Except IpcError α) : Program τ IpcError α := fun s => (result,s)

/-- `input_[:input_.data_size].tobytes()`. -/
def inputBytes (input : Input conf) : List UInt8 :=
  (List.range (8*conf.dataSize)).map fun x => UInt8.ofBitVec (input.byte x)

/-- `hash_input`. -/
def hashInput (input : Input conf) : ℕ :=
  if conf.inputMainRegionSize ≤ 32768 then hashBytes (inputBytes input) else 0

def asks (sources : List Source) (rs : List Recording) : Bool :=
  rs.any fun r => .recording r ∈ sources

/-- `trace_test_case`, with the way to gem5 as a parameter. -/
def traceTestCase (x : Exchange τ) (input : Input conf) (sources : List Source) :
    Program τ IpcError (List Char) := do
  let bpState := asks sources [.branchPredState]
  let predictions := asks sources [.branchPredictions]
  let predictionsTiming := asks sources [.branchPredictionsTiming]
  let accessTiming := asks sources [.accessTiming]
  let accessOrder := asks sources [.accessOrder]
  let commit := asks sources [.commit]
  onlyIf (bpState || predictions || predictionsTiming) (x.tell .resetBranchPredictor)
  onlyIf (predictions || predictionsTiming) (x.tell .enableBranchPredictionLog)
  onlyIf (accessTiming || accessOrder) (x.tell .enableAccessLog)
  onlyIf commit (x.tell .resetCommitLog)
  let tags ← x.input conf.registerStart (hashInput input) (inputBytes input)
  let trace ← lift (decode tags)
  let state ← added bpState do
    let bytes ← x.get .branchPredictorState
    let text ← lift (decode bytes)
    pure ("\n".toList ++ text ++ "\n".toList)
  let predicted ← added (predictions || predictionsTiming) do
    let bytes ← x.get .branchPredictionLog
    let text ← lift (decode bytes)
    let log ← lift (filteredLog predictionsTiming text)
    pure ("\n[branchPredictionLog]\nlog = ".toList ++ log ++ "\n".toList)
  let accesses ← added (accessOrder || accessTiming) do
    let bytes ← x.get .accessLog
    let text ← lift (decode bytes)
    let log ← lift (filteredLog accessTiming text)
    pure ("\n[accessLog]\nlog = ".toList ++ log ++ "\n".toList)
  let commits ← added commit do
    let bytes ← x.get .commitLog
    let log ← lift (commitLog bytes)
    pure ("\n[commit]\nlog = ".toList ++ log ++ "\n".toList)
  pure (trace ++ state ++ predicted ++ accesses ++ commits)

end Tracing

/-! ### The pool of processes -/

/-- The process that has connected: its state, and the connection to it. -/
structure Link (σ : Type) where
  pid : ℕ
  gem5 : σ
  conn : Conn

/-- The orchestration. Every process is kept with the command that it was started with; the moment
counts what has been asked of the environment. -/
structure Client (χ σ : Type) where
  processes : List (ℕ × χ) := []
  activeProcess : ℕ := 0
  lastCase : Option (List UInt8) := none
  link : Option (Link σ) := none
  /-- The lines that a process has printed and that were not read. -/
  stdout : ℕ → List (List UInt8) := fun _ => []
  moment : ℕ := 0

/-- What the orchestration depends on: gem5 processes, which turn the bytes they get into others and
print lines, the operating system that numbers the processes and says which one has connected, and
the network that brings the bytes back. What a process prints while it boots counts as printed for
its first request. -/
structure World (χ σ : Type) where
  parallelism : ℕ
  parallelism_pos : 0<parallelism
  boot : χ → σ
  serve : ℕ → σ → List UInt8 → List UInt8 × σ
  printed : ℕ → σ → List UInt8 → List (List UInt8)
  network : ℕ → Conn → List UInt8 → Conn
  spawn : ℕ → List ℕ → ℕ
  spawn_new : ∀ t live, live.length<parallelism →
    spawn t live ∉ live ∧ 0<spawn t live ∧ spawn t live<2^64
  ready : ℕ → List ℕ → Option ℕ
  ready_mem : ∀ {t live pid}, ready t live = some pid → pid ∈ live

namespace Client
variable {χ σ : Type}

def pids (c : Client χ σ) : List ℕ := c.processes.map (·.1)

/-- The active process is killed and its socket closed. -/
def killActive (c : Client χ σ) : Client χ σ :=
  if c.activeProcess = 0 then c
  else { c with
    processes := c.processes.filter (·.1 ≠ c.activeProcess)
    activeProcess := 0
    link := none }

/-- `start_new_gem5_process`. -/
def startNew (w : World χ σ) (cmd : χ) (c : Client χ σ) : Client χ σ :=
  { c with
    processes := c.processes ++ [(w.spawn c.moment c.pids,cmd)]
    stdout := Function.update c.stdout (w.spawn c.moment c.pids) []
    moment := c.moment+1 }

/-- The loop that fills the pool again. -/
def refill (w : World χ σ) (cmd : χ) : ℕ → Client χ σ → Client χ σ
  | 0, c => c
  | n+1, c => refill w cmd n (c.startNew w cmd)

end Client

section Wire
variable {χ σ : Type} (w : World χ σ)

def send (bytes : List UInt8) : Program (Client χ σ) IpcError Unit := fun c =>
  match c.link with
  | none => (.error .noConnection,c)
  | some l =>
    let (out,gem5) := w.serve l.pid l.gem5 bytes
    (.ok (),{ c with
      link := some ⟨l.pid,gem5,w.network c.moment l.conn out⟩
      stdout := Function.update c.stdout l.pid (c.stdout l.pid ++ w.printed l.pid l.gem5 bytes)
      moment := c.moment+1 })

def receive (count : ℕ) : Program (Client χ σ) IpcError (List UInt8) := fun c =>
  match c.link with
  | none => (.error .noConnection,c)
  | some l =>
    match recv count l.conn with
    | (.ok data,conn) => (.ok data,{ c with link := some { l with conn } })
    | (.error reason,conn) => (.error (.crash reason),{ c with link := some { l with conn } })

/-- The header of a reply, of some words of which the first one is checked. -/
def header (words : ℕ) (name : String) (ack : ℕ) : Program (Client χ σ) IpcError (List UInt8) := do
  let bytes ← receive (8*words)
  if word 0 bytes ≠ ack then Program.raise (.unexpected name (word 0 bytes))
  else pure bytes

/-- An input is sent, and gem5 confirms its hash. -/
def sendInput (registerStart inputHash : ℕ) (input : List UInt8) :
    Program (Client χ σ) IpcError (List UInt8) := do
  send w (Request.traceTestCase registerStart inputHash input).bytes
  let bytes ← header 3 "OP_ACK_TRACE_TEST_CASE" opAckTraceTestCase
  if word 1 bytes ≠ inputHash then Program.raise (.inputHash inputHash (word 1 bytes))
  else receive (word 2 bytes)

/-- Something that gem5 has recorded is asked for. -/
def get (query : Query) : Program (Client χ σ) IpcError (List UInt8) := do
  send w (Request.get query).bytes
  let bytes ← header 2 query.ack.1 query.ack.2
  receive (word 1 bytes)

/-- What `get_gem5_output` reads when the output of gem5 is not shown. -/
def output : Program (Client χ σ) IpcError (List Char) := fun c =>
  if c.activeProcess ∈ c.pids then
    match readOutput (c.stdout c.activeProcess) with
    | .error e => (.error e,c)
    | .ok (text,rest) =>
      (decode text,{ c with stdout := Function.update c.stdout c.activeProcess rest })
  else (.error (.unknownPid c.activeProcess),c)

/-- `trace_test_case` talks to gem5 over `self.conn`. -/
def wire : Exchange (Client χ σ) where
  tell command := send w (Request.tell command).bytes
  input := sendInput w
  get := get w

/-- `load_test_case`; a test case is what is in the file at its `bin_path`. -/
def loadTestCase (case : List UInt8) : Program (Client χ σ) IpcError Unit := fun c =>
  if c.activeProcess = 0 then (.ok (),{ c with lastCase := some case })
  else
    (do
      send w (Request.loadTestCase case).bytes
      let bytes ← header 2 "OP_ACK_TEST_CASE" opAckTestCase
      if word 1 bytes ≠ hashBytes case then Program.raise .testCase
      else pure () : Program (Client χ σ) IpcError Unit) { c with lastCase := some case }

/-- The first process that has connected to its socket. -/
def connect : Program (Client χ σ) IpcError Unit := fun c =>
  match w.ready c.moment c.pids with
  | none => (.error .timeout,{ c with moment := c.moment+1 })
  | some pid =>
    match c.processes.lookup pid with
    | none => (.error (.unknownPid pid),c)
    | some cmd => (.ok (),{ c with
        link := some ⟨pid,w.boot cmd,{ seconds := .const {} }⟩
        moment := c.moment+1 })

/-- One of the processes becomes the active one. -/
def activate (pid : ℕ) : Program (Client χ σ) IpcError Unit := fun c =>
  if pid ∈ c.pids then (.ok (),{ c with activeProcess := pid }) else (.error (.unknownPid pid),c)

/-- The process that has connected says who it is. -/
def register : Program (Client χ σ) IpcError Unit := do
  send w Request.init.bytes
  let bytes ← header 2 "OP_ACK_INIT" opAckInit
  activate (word 1 bytes)

def renewPool (cmd : χ) : Program (Client χ σ) IpcError Unit := fun c =>
  (.ok (),c.killActive.refill w cmd (w.parallelism-c.killActive.processes.length))

def loadLastCase : Program (Client χ σ) IpcError Unit := fun c =>
  match c.lastCase with
  | none => (.ok (),c)
  | some case => loadTestCase w case c

/-- `restart_gem5`. -/
def restartGem5 (cmd : χ) : Program (Client χ σ) IpcError Unit := do
  renewPool w cmd
  connect w
  register w
  loadLastCase w

end Wire

/-! ### A machine that is called directly -/

/-- What gem5 computes, without the protocol. -/
structure Machine (χ σ : Type) where
  boot : χ → σ
  step : σ → Request → σ
  output : σ → Request → List UInt8
  output_lt : ∀ s r, (output s r).length<2^64
  printed : σ → Request → List (List UInt8)

/-- The bytes that gem5 sends back. -/
def Machine.reply {χ σ : Type} (m : Machine χ σ) (pid : ℕ) (s : σ) : Request → List UInt8
  | .init => pack [opAckInit,pid]
  | .loadTestCase case => pack [opAckTestCase,hashBytes case]
  | .traceTestCase registerStart inputHash input =>
    let out := m.output s (.traceTestCase registerStart inputHash input)
    pack [opAckTraceTestCase,inputHash,out.length] ++ out
  | .tell _ => []
  | .get query =>
    let out := m.output s (.get query)
    pack [query.ack.2,out.length] ++ out

/-- The processes of gem5 are such machines, whatever bytes a request is followed by. -/
structure Speaks {χ σ : Type} (w : World χ σ) (m : Machine χ σ) : Prop where
  boot : ∀ cmd, w.boot cmd = m.boot cmd
  serve : ∀ pid s (r : Request), r.Fits → w.serve pid s r.bytes = (m.reply pid s r,m.step s r)
  printed : ∀ pid s (r : Request), r.Fits → w.printed pid s r.bytes = m.printed s r

/-- What gem5 sends arrives before the limit, and a process connects to its socket in time. -/
structure Timely {χ σ : Type} (w : World χ σ) : Prop where
  arrives : ∀ t conn bytes, Silent conn → Arrives (w.network t conn bytes) bytes
  connects : ∀ t live, live ≠ [] → (w.ready t live).isSome

structure Direct (σ : Type) where
  machine : Option σ := none
  lastCase : Option (List UInt8) := none
  stdout : List (List UInt8) := []

section Direct
variable {χ σ : Type} (m : Machine χ σ)

/-- The machine in a state has got a request. -/
def Direct.after (d : Direct σ) (s : σ) (r : Request) : Direct σ :=
  { d with machine := some (m.step s r), stdout := d.stdout ++ m.printed s r }

/-- A machine that has nothing to say is taken for one that hangs. -/
def Direct.ask (r : Request) : Program (Direct σ) IpcError (List UInt8) := fun d =>
  match d.machine with
  | none => (.error .noConnection,d)
  | some s => (if m.output s r = [] then .error (.crash .deadlock) else .ok (m.output s r),d.after m s r)

def Direct.tell (command : Command) : Program (Direct σ) IpcError Unit := fun d =>
  match d.machine with
  | none => (.error .noConnection,d)
  | some s => (.ok (),d.after m s (.tell command))

def Direct.exchange : Exchange (Direct σ) where
  tell := Direct.tell m
  input registerStart inputHash input :=
    Direct.ask m (.traceTestCase registerStart inputHash input)
  get query := Direct.ask m (.get query)

def Direct.load (case : List UInt8) : Program (Direct σ) IpcError Unit := fun d =>
  (.ok (),match d.machine with
    | none => { d with lastCase := some case }
    | some s => { d with lastCase := some case }.after m s (.loadTestCase case))

/-- A machine of its own for every restart, with the last test case. -/
def Direct.restart (cmd : χ) : Program (Direct σ) IpcError Unit := fun d =>
  let fresh := { d with stdout := [] }.after m (m.boot cmd) .init
  match d.lastCase with
  | none => (.ok (),fresh)
  | some case => Direct.load m case fresh

def Direct.output : Program (Direct σ) IpcError (List Char) := fun d =>
  match d.machine with
  | none => (.error (.unknownPid 0),d)
  | some _ =>
    match readOutput d.stdout with
    | .error e => (.error e,d)
    | .ok (text,rest) => (decode text,{ d with stdout := rest })

end Direct

/-! ### Sessions -/

/-- What the executor uses. -/
structure Orchestration (χ τ : Type) extends Exchange τ where
  restart : χ → Program τ IpcError Unit
  load : List UInt8 → Program τ IpcError Unit
  output : Program τ IpcError (List Char)

def orchestration {χ σ : Type} (w : World χ σ) : Orchestration χ (Client χ σ) :=
  { wire w with restart := restartGem5 w, load := loadTestCase w, output := output }

def direct {χ σ : Type} (m : Machine χ σ) : Orchestration χ (Direct σ) :=
  { Direct.exchange m with
    restart := Direct.restart m, load := Direct.load m, output := Direct.output }

/-- The calls of the executor. -/
inductive Call (χ : Type) (conf : Conf) where
  | restart (cmd : χ)
  | load (case : List UInt8)
  | resetLog
  | trace (input : Input conf) (sources : List Source)
  | output

section Sessions
variable {χ τ : Type} {conf : Conf}

def call (o : Orchestration χ τ) : Call χ conf → Program τ IpcError (List Char)
  | .restart cmd => do
    o.restart cmd
    pure []
  | .load case => do
    o.load case
    pure []
  | .resetLog => do
    o.tell .resetLog
    pure []
  | .trace input sources => traceTestCase o.toExchange input sources
  | .output => o.output

/-- The texts of all traces and outputs, with an empty one for the other calls. -/
def session (o : Orchestration χ τ) (calls : List (Call χ conf)) :
    Program τ IpcError (List (List Char)) := Program.forEach (call o) calls

/-- What the executor is told to do over ipc. -/
structure TraceOptions where
  persistLog : Bool := false
  showOutput : Bool := false
  sources : List Source := []

/-- `ipc_trace_test_case` of the executor: the log is reset, unless it is to persist. -/
def ipcTraceTestCase (o : Orchestration χ τ) (options : TraceOptions) (input : Input conf) :
    Program τ IpcError (List Char) := do
  onlyIf (!options.persistLog) (o.tell .resetLog)
  traceTestCase o.toExchange input options.sources

/-- `get_gem5_output`. -/
def getGem5Output (o : Orchestration χ τ) (options : TraceOptions) : Program τ IpcError (List Char) :=
  if options.showOutput then pure [] else o.output

/-- One turn of the loop of the executor's `trace_test_case`. It exits when gem5 says that it has
reached its limit. -/
def executorTrace (o : Orchestration χ τ) (options : TraceOptions) (input : Input conf) :
    Program τ IpcError (List Char) := do
  let text ← ipcTraceTestCase o options input
  let output ← getGem5Output o options
  if limitReached output then Program.raise .simulateLimit else pure text

/-- The branch of the executor's `trace_test_case` for processes that run on: gem5 is started again,
every input is traced, and the last one is kept. -/
def executorTraces (o : Orchestration χ τ) (options : TraceOptions) (cmd : χ)
    (inputs : List (Input conf)) : Program τ IpcError (List (List Char)) := do
  o.restart cmd
  let texts ← Program.forEach (executorTrace o options) inputs
  if inputs.isEmpty then Program.raise .index else pure texts

/-- The lengths that are sent fit into words. -/
def Call.Fits : Call χ conf → Prop
  | .load case => case.length<2^64
  | .trace _ _ => 8*conf.dataSize<2^64
  | _ => True

/-- The orchestration after some calls, when exceptions are caught. -/
def after (o : Orchestration χ τ) (calls : List (Call χ conf)) (t : τ) : τ :=
  calls.foldl (fun t a => (call o a t).2) t

end Sessions

end ProteanAmulet.Gem5IPCOrchestration
