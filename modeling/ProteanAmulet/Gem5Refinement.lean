import ProteanAmulet.Gem5Pool

/-! Sessions over a network give what direct calls of a single machine give: replies are framed,
the pool always has a fresh process, and nothing is carried over a restart. -/
namespace ProteanAmulet.Gem5IPCOrchestration
open X86Gem5 Program

section Talking
variable {χ σ : Type} {w : World χ σ} {m : Machine χ σ} {c c₁ : Client χ σ} {pid : ℕ} {s : σ}
  {bytes rest : List UInt8} {lines : List (List UInt8)}

/-- The client has not changed but for the connection and what the process prints. The process is in
some state, and what is still to arrive or to be read is known. -/
structure Talks (c c₁ : Client χ σ) (pid : ℕ) (s : σ) (bytes : List UInt8)
    (lines : List (List UInt8)) : Prop where
  processes : c₁.processes = c.processes
  activeProcess : c₁.activeProcess = c.activeProcess
  lastCase : c₁.lastCase = c.lastCase
  others : ∀ pid', pid' ≠ pid → c₁.stdout pid' = c.stdout pid'
  printed : c₁.stdout pid = lines
  link : ∃ conn, c₁.link = some ⟨pid,s,conn⟩ ∧ Arrives conn bytes

lemma Talks.pids (h : Talks c c₁ pid s bytes lines) : c₁.pids = c.pids := by
  rw [Client.pids,h.processes,Client.pids]

lemma Talks.sendBytes (ht : Timely w) (h : Talks c c₁ pid s [] lines) (request : List UInt8) :
    ∃ c₂, send w request c₁ = (.ok (),c₂) ∧
      Talks c c₂ pid (w.serve pid s request).2 (w.serve pid s request).1
        (lines ++ w.printed pid s request) := by
  obtain ⟨conn,hlink,harr⟩ := h.link
  have sent : send w request c₁ = (.ok (),{ c₁ with
      link := some ⟨pid,(w.serve pid s request).2,
        w.network c₁.moment conn (w.serve pid s request).1⟩
      stdout := Function.update c₁.stdout pid (c₁.stdout pid ++ w.printed pid s request)
      moment := c₁.moment+1 }) := by
    rw [send,hlink]
  refine ⟨_,sent,h.processes,h.activeProcess,h.lastCase,fun pid' hne => ?_,?_,_,rfl,
    ht.arrives _ _ _ harr.silent⟩
  · exact (Function.update_of_ne hne _ _).trans (h.others pid' hne)
  · exact (Function.update_self _ _ _).trans (by rw [h.printed])

lemma Talks.send (hw : Speaks w m) (ht : Timely w) (h : Talks c c₁ pid s [] lines) {r : Request}
    (hr : r.Fits) :
    ∃ c₂, send w r.bytes c₁ = (.ok (),c₂) ∧
      Talks c c₂ pid (m.step s r) (m.reply pid s r) (lines ++ m.printed s r) := by
  have sent := h.sendBytes ht r.bytes
  rwa [hw.serve pid s r hr,hw.printed pid s r hr] at sent

lemma Talks.receive (h : Talks c c₁ pid s (bytes ++ rest) lines) (hne : bytes ≠ []) :
    ∃ c₂, receive bytes.length c₁ = (.ok bytes,c₂) ∧ Talks c c₂ pid s rest lines := by
  obtain ⟨conn,hlink,harr⟩ := h.link
  obtain ⟨conn',hrecv,harr'⟩ := recv_arrives harr (List.length_pos_iff.mpr hne) (by simp)
  rw [List.take_left' rfl] at hrecv
  rw [List.drop_left' rfl] at harr'
  rw [Gem5IPCOrchestration.receive,hlink]
  dsimp only
  rw [hrecv]
  exact ⟨_,rfl,h.processes,h.activeProcess,h.lastCase,h.others,h.printed,conn',rfl,harr'⟩

/-- A reply that is empty is waited for until the limit. -/
lemma Talks.receive_nothing (h : Talks c c₁ pid s [] lines) :
    (Gem5IPCOrchestration.receive 0 c₁).1 = .error (.crash .deadlock) := by
  obtain ⟨conn,hlink,harr⟩ := h.link
  obtain ⟨conn',hrecv⟩ := harr.silent.recvLoop 0 0 []
  have deadlock : recv 0 conn = (.error .deadlock,conn') := hrecv
  rw [Gem5IPCOrchestration.receive,hlink]
  dsimp only
  rw [deadlock]

/-- The rest of a reply, which may be empty. -/
lemma Talks.receive_all (h : Talks c c₁ pid s bytes lines) :
    (Gem5IPCOrchestration.receive bytes.length c₁).1 =
        (if bytes = [] then .error (.crash .deadlock) else .ok bytes) ∧
      (bytes ≠ [] → Talks c (Gem5IPCOrchestration.receive bytes.length c₁).2 pid s [] lines) := by
  by_cases hne : bytes = []
  · subst hne
    exact ⟨h.receive_nothing,fun h => absurd rfl h⟩
  · rw [← List.append_nil bytes] at h
    obtain ⟨c₂,hrecv,h₂⟩ := h.receive hne
    rw [hrecv,if_neg hne]
    exact ⟨rfl,fun _ => h₂⟩

lemma word_pack {ns : List ℕ} {i : ℕ} (hi : i<ns.length) (hlt : ∀ n ∈ ns, n<2^64) :
    word i (pack ns) = ns[i] := by
  induction ns generalizing i with
  | nil => exact absurd hi (Nat.not_lt_zero _)
  | cons n ns ih =>
    rw [List.forall_mem_cons] at hlt
    have hlen := SelfDelimiting.wordBytes_length 8 n
    rw [word,pack,List.flatMap_cons]
    cases i with
    | zero =>
      rw [Nat.mul_zero,List.drop_zero,List.take_left' hlen]
      exact SelfDelimiting.wordValue_wordBytes (by simpa using hlt.1)
    | succ i =>
      rw [Nat.mul_succ,Nat.add_comm,← List.drop_drop,List.drop_left' hlen]
      exact ih (Nat.lt_of_succ_lt_succ hi) hlt.2

lemma pack_length (ns : List ℕ) : (pack ns).length = 8*ns.length := by
  induction ns with
  | nil => rfl
  | cons n ns ih =>
    rw [pack,List.flatMap_cons,List.length_append,SelfDelimiting.wordBytes_length]
    change 8+(pack ns).length = _
    rw [ih,List.length_cons]
    omega

/-- A header with the operation that is waited for. -/
lemma Talks.header {ack words : ℕ} {ns : List ℕ}
    (h : Talks c c₁ pid s (pack (ack :: ns) ++ rest) lines) (hack : ack<2^64)
    (hwords : ns.length+1 = words) (name : String) :
    ∃ c₂, header words name ack c₁ = (.ok (pack (ack :: ns)),c₂) ∧ Talks c c₂ pid s rest lines := by
  subst hwords
  have hne : pack (ack :: ns) ≠ [] := by
    apply List.ne_nil_of_length_pos
    rw [pack_length]
    simp
  obtain ⟨c₂,hrecv,h₂⟩ := h.receive hne
  rw [pack_length,List.length_cons] at hrecv
  refine ⟨c₂,?_,h₂⟩
  rw [Gem5IPCOrchestration.header,bind_ok hrecv]
  have first : word 0 (pack (ack :: ns)) = ack := by
    rw [word,pack,List.flatMap_cons,Nat.mul_zero,List.drop_zero,
      List.take_left' (SelfDelimiting.wordBytes_length 8 ack)]
    exact SelfDelimiting.wordValue_wordBytes (by simpa using hack)
  rw [if_neg (not_not.mpr first)]
  rfl

end Talking

/-! ### Processes that exist -/

/-- A connection on which some bytes have arrived already, and nothing more will. -/
def Conn.still (bytes : List UInt8) : Conn := { pending := bytes, seconds := .const {} }

lemma arrives_still (bytes : List UInt8) : Arrives (.still bytes) bytes := by
  have wait : (Conn.still bytes).wait = .still bytes := by
    have none : (Conn.still bytes).seconds.head = {} := rfl
    rw [Conn.wait,none]
    simp only [Conn.still,List.append_nil,Bool.or_false]
    rfl
  have later : ∀ k, (Conn.still bytes).later k = .still bytes := by
    intro k
    induction k with
    | zero => rfl
    | succ k ih => rw [Conn.later,wait,ih]
  refine ⟨0,Nat.zero_lt_succ _,fun k _ => ?_⟩
  rw [later]
  exact ⟨rfl,rfl⟩

section Processes
variable {χ σ : Type} (m : Machine χ σ)

/-- A machine as a process that reads requests. -/
def Machine.process (pid : ℕ) (s : σ) (bytes : List UInt8) : List UInt8 × σ :=
  match Request.parse bytes with
  | some (r,_) => (m.reply pid s r,m.step s r)
  | none => ([],s)

/-- What it prints. -/
def Machine.prints (s : σ) (bytes : List UInt8) : List (List UInt8) :=
  match Request.parse bytes with
  | some (r,_) => m.printed s r
  | none => []

/-- Two processes at a time, of which the one that was started first connects first. Replies arrive
at once. -/
def Machine.pair : World χ σ where
  parallelism := 2
  parallelism_pos := Nat.zero_lt_succ _
  boot := m.boot
  serve := m.process
  printed _ := m.prints
  network _ _ bytes := .still bytes
  spawn _ live := if 1 ∈ live then 2 else 1
  spawn_new := by
    intro t live hlt
    match live, hlt with
    | [], _ => decide
    | [pid], _ =>
      by_cases h : pid=1
      · subst h
        decide
      · simp [Ne.symm h]
  ready _ live := live.head?
  ready_mem h := List.mem_of_mem_head? h

lemma pair_speaks : Speaks m.pair m where
  boot _ := rfl
  serve pid s r hr := by
    have read := Request.parse_bytes r hr []
    rw [List.append_nil] at read
    change m.process pid s r.bytes = _
    rw [Machine.process,read]
  printed pid s r hr := by
    have read := Request.parse_bytes r hr []
    rw [List.append_nil] at read
    change m.prints s r.bytes = _
    rw [Machine.prints,read]

lemma pair_timely : Timely m.pair where
  arrives _ _ bytes _ := arrives_still bytes
  connects _ live hne := by
    change live.head?.isSome
    cases live with
    | nil => exact absurd rfl hne
    | cons pid live => rfl

/-- The same with one process at a time. -/
def Machine.single : World χ σ := { m.pair with
  parallelism := 1
  parallelism_pos := Nat.zero_lt_succ _
  spawn _ _ := 1
  spawn_new := by
    intro t live hlt
    obtain rfl := List.length_eq_zero_iff.mp (Nat.lt_one_iff.mp hlt)
    decide }

lemma single_speaks : Speaks m.single m := ⟨(pair_speaks m).1,(pair_speaks m).2,(pair_speaks m).3⟩

lemma single_timely : Timely m.single := ⟨(pair_timely m).1,(pair_timely m).2⟩

end Processes

/-- The commands with some property make no difference: one process is kept at a time, or they all
start it in the same state. -/
def Uniform {χ σ : Type} (w : World χ σ) (m : Machine χ σ) (Cmd : χ → Prop) : Prop :=
  w.parallelism = 1 ∨ ∀ cmd cmd', Cmd cmd → Cmd cmd' → m.boot cmd = m.boot cmd'

/-- A machine that counts the requests, says whether their number is even, and ends its output after
every input. -/
def counter : Machine Bool ℕ where
  boot _ := 0
  step s _ := s+1
  output s _ := if s % 2 = 0 then [65] else [66]
  output_lt s _ := by split <;> decide
  printed _
    | .traceTestCase .. => [resetLine]
    | _ => []

lemma counter_uniform (w : World Bool ℕ) (Cmd : Bool → Prop) : Uniform w counter Cmd :=
  .inr fun _ _ _ _ => rfl

/-! ### Refinement -/

/-- A client and a machine that is called directly. Between the calls nothing is on its way. The
processes were started with commands of some property, and those that wait have printed nothing. -/
structure Alike {χ σ : Type} (w : World χ σ) (Cmd : χ → Prop) (c : Client χ σ) (d : Direct σ) : Prop
    extends Pool w c where
  lastCase : c.lastCase = d.lastCase
  fits : ∀ case ∈ c.lastCase, case.length<2^64
  commands : ∀ p ∈ c.processes, Cmd p.2
  waiting : ∀ pid ∈ c.pids, pid ≠ c.activeProcess → c.stdout pid = []
  machine : match d.machine with
    | none => c.link = none ∧ c.activeProcess = 0 ∧ c.processes = []
    | some s => c.activeProcess ≠ 0 ∧ Talks c c c.activeProcess s [] d.stdout

section Exchanges
variable {χ σ : Type} {w : World χ σ} {m : Machine χ σ} {Cmd : χ → Prop}

/-- Nothing that holds of the processes depends on the connection. -/
lemma Talks.pool {c c₁ : Client χ σ} {pid : ℕ} {s : σ} {bytes : List UInt8}
    {lines : List (List UInt8)} (h : Talks c c₁ pid s bytes lines) (hc : Pool w c) (hpid : pid ∈ c.pids) : Pool w c₁ := by
  refine ⟨?_,?_,?_,?_,?_⟩
  · rw [h.pids]
    exact hc.nodup
  · rw [h.pids]
    exact hc.small
  · rw [h.processes]
    exact hc.size
  · rw [h.pids,h.activeProcess]
    exact hc.active
  · obtain ⟨conn,hlink,-⟩ := h.link
    rw [hlink,h.pids]
    simpa using hpid

/-- A machine that is alike is in the same state, and everything has arrived. -/
lemma Alike.talks {c : Client χ σ} {d : Direct σ} {s : σ} (h : Alike w Cmd c d)
    (hd : d.machine = some s) :
    c.activeProcess ≠ 0 ∧ Talks c c c.activeProcess s [] d.stdout := by
  have hmachine := h.machine
  rw [hd] at hmachine
  exact hmachine

/-- The machine and the process have gone on together. -/
lemma Alike.after {c c₂ : Client χ σ} {d d₂ : Direct σ} {s s' : σ} (h : Alike w Cmd c d)
    (hd : d.machine = some s) (hd₂ : d₂.machine = some s') (hcase : d₂.lastCase = d.lastCase)
    (ht : Talks c c₂ c.activeProcess s' [] d₂.stdout) : Alike w Cmd c₂ d₂ where
  toPool := ht.pool h.toPool (h.active.resolve_left (h.talks hd).1)
  lastCase := (ht.lastCase.trans h.lastCase).trans hcase.symm
  fits := by
    rw [ht.lastCase]
    exact h.fits
  commands := by
    rw [ht.processes]
    exact h.commands
  waiting := by
    rw [ht.pids,ht.activeProcess]
    intro pid hpid hne
    rw [ht.others pid hne]
    exact h.waiting pid hpid hne
  machine := by
    rw [hd₂,ht.activeProcess]
    exact ⟨(h.talks hd).1,rfl,rfl,rfl,fun _ _ => rfl,ht.printed,ht.link⟩

lemma Alike.not_connected {c : Client χ σ} {d : Direct σ} (h : Alike w Cmd c d)
    (hd : d.machine = none) : c.link = none ∧ c.activeProcess = 0 ∧ c.processes = [] := by
  have hmachine := h.machine
  rw [hd] at hmachine
  exact hmachine

lemma send_not_connected {c : Client χ σ} (h : c.link = none) (bytes : List UInt8) :
    send w bytes c = (.error .noConnection,c) := by
  rw [send,h]

variable (hw : Speaks w m) (ht : Timely w)
include hw ht

lemma refines_tell (command : Command) :
    Refines (Alike w Cmd) ((wire w).tell command) ((Direct.exchange m).tell command) := by
  intro c d h
  change (send w (Request.tell command).bytes c).1 = (Direct.tell m command d).1 ∧
    ∀ a, (send w (Request.tell command).bytes c).1 = .ok a →
      Alike w Cmd (send w (Request.tell command).bytes c).2 (Direct.tell m command d).2
  cases hd : d.machine with
  | none =>
    rw [send_not_connected (h.not_connected hd).1,Direct.tell,hd]
    exact ⟨rfl,nofun⟩
  | some s =>
    obtain ⟨c₂,hsend,h₂⟩ := (h.talks hd).2.send hw ht (r := .tell command) trivial
    rw [hsend,Direct.tell,hd]
    exact ⟨rfl,fun _ _ => h.after hd rfl rfl h₂⟩

/-- A request that is answered by a header and a text. -/
lemma refines_ask {p : Program (Client χ σ) IpcError (List UInt8)} {r : Request} (hr : r.Fits)
    (hp : ∀ c, c.link = none → p c = (.error .noConnection,c))
    (hask : ∀ c c₁ pid s lines, Talks c c₁ pid (m.step s r) (m.reply pid s r) lines →
      send w r.bytes c = (.ok (),c₁) → ∃ c₂,
        p c = receive (m.output s r).length c₂ ∧ Talks c c₂ pid (m.step s r) (m.output s r) lines) :
    Refines (Alike w Cmd) p (Direct.ask m r) := by
  intro c d h
  cases hd : d.machine with
  | none =>
    rw [hp c (h.not_connected hd).1,Direct.ask,hd]
    exact ⟨rfl,nofun⟩
  | some s =>
    obtain ⟨c₁,hsend,h₁⟩ := (h.talks hd).2.send hw ht hr
    obtain ⟨c₂,heq,h₂⟩ := hask c c₁ _ s _ h₁ hsend
    obtain ⟨hres,hlater⟩ := h₂.receive_all
    rw [heq,Direct.ask,hd]
    refine ⟨hres,fun a ha => h.after hd rfl rfl (hlater ?_)⟩
    rintro hnil
    rw [hres,if_pos hnil] at ha
    cases ha

lemma refines_get (query : Query) :
    Refines (Alike w Cmd) ((wire w).get query) ((Direct.exchange m).get query) := by
  refine refines_ask hw ht trivial ?_ ?_
  · intro c hc
    exact bind_error (send_not_connected hc _)
  · intro c c₁ pid s lines h hsend
    have hack : query.ack.2<2^64 := by cases query <;> decide
    obtain ⟨c₂,hheader,h₂⟩ := h.header hack (show _ = 2 from rfl) query.ack.1
    refine ⟨c₂,?_,h₂⟩
    have second : word 1 (pack [query.ack.2,(m.output s (.get query)).length]) =
        (m.output s (.get query)).length :=
      word_pack (by simp) (by simpa using ⟨hack,m.output_lt s (.get query)⟩)
    change (send w (Request.get query).bytes >>= _) c = _
    rw [bind_ok hsend,bind_ok hheader,second]

lemma refines_input {registerStart inputHash : ℕ} {input : List UInt8}
    (hr : (Request.traceTestCase registerStart inputHash input).Fits) :
    Refines (Alike w Cmd) ((wire w).input registerStart inputHash input)
      ((Direct.exchange m).input registerStart inputHash input) := by
  refine refines_ask hw ht hr ?_ ?_
  · intro c hc
    exact bind_error (send_not_connected hc _)
  · intro c c₁ pid s lines h hsend
    obtain ⟨c₂,hheader,h₂⟩ := h.header (by decide) (show _ = 3 from rfl) "OP_ACK_TRACE_TEST_CASE"
    refine ⟨c₂,?_,h₂⟩
    have fits : ∀ n ∈ [opAckTraceTestCase,inputHash,
        (m.output s (.traceTestCase registerStart inputHash input)).length], n<2^64 := by
      simpa using ⟨by decide,hr.2.2,m.output_lt s _⟩
    have second := word_pack (i := 1) (by simp) fits
    have third := word_pack (i := 2) (by simp) fits
    change (send w (Request.traceTestCase registerStart inputHash input).bytes >>= _) c = _
    rw [bind_ok hsend,bind_ok hheader,second,third]
    exact congrFun (if_neg (not_not.mpr rfl)) c₂

/-- Once it is connected, a test case is sent and confirmed. -/
lemma load_confirmed {c : Client χ σ} {s : σ} {lines : List (List UInt8)} {case : List UInt8}
    (hcase : case.length<2^64) (hactive : c.activeProcess ≠ 0)
    (h : Talks c c c.activeProcess s [] lines) :
    ∃ c₂, loadTestCase w case c = (.ok (),c₂) ∧ Talks { c with lastCase := some case } c₂
      c.activeProcess (m.step s (.loadTestCase case)) []
      (lines ++ m.printed s (.loadTestCase case)) := by
  have h' : Talks { c with lastCase := some case } { c with lastCase := some case }
      c.activeProcess s [] lines := ⟨rfl,rfl,rfl,fun _ _ => rfl,h.printed,h.link⟩
  obtain ⟨c₁,hsend,h₁⟩ := h'.send hw ht (r := .loadTestCase case) hcase
  have hhash : hashBytes case<2^64 := BitVec.isLt _
  change Talks _ c₁ _ _ (pack [opAckTestCase,hashBytes case]) _ at h₁
  rw [← List.append_nil (pack _)] at h₁
  obtain ⟨c₂,hheader,h₂⟩ := h₁.header (by decide) (show _ = 2 from rfl) "OP_ACK_TEST_CASE"
  have second : word 1 (pack [opAckTestCase,hashBytes case]) = hashBytes case :=
    word_pack (by simp) (by simpa using ⟨by decide,hhash⟩)
  refine ⟨c₂,?_,h₂⟩
  rw [loadTestCase,if_neg hactive,bind_ok hsend,bind_ok hheader,second]
  exact congrFun (if_neg (not_not.mpr rfl)) c₂

omit hw in
/-- If gem5 acknowledges the hash of what it got, then the orchestration accepts a test case of which
one byte or two bytes next to each other may have changed exactly if none has. -/
theorem loadTestCase_intact {c : Client χ σ} {s : σ} (hactive : c.activeProcess ≠ 0)
    {lines : List (List UInt8)} (h : Talks c c c.activeProcess s [] lines)
    (pre window window' post : List UInt8)
    (hlen : window.length=window'.length) (hle : window.length ≤ 2)
    (hack : (w.serve c.activeProcess s (Request.loadTestCase (pre ++ window ++ post)).bytes).1 =
      pack [opAckTestCase,hashBytes (pre ++ window' ++ post)]) :
    (loadTestCase w (pre ++ window ++ post) c).1 =
      if window=window' then .ok () else .error .testCase := by
  have h' : Talks { c with lastCase := some (pre ++ window ++ post) }
      { c with lastCase := some (pre ++ window ++ post) } c.activeProcess s [] lines :=
    ⟨rfl,rfl,rfl,fun _ _ => rfl,h.printed,h.link⟩
  obtain ⟨c₁,hsend,h₁⟩ := h'.sendBytes ht (Request.loadTestCase (pre ++ window ++ post)).bytes
  rw [hack,← List.append_nil (pack _)] at h₁
  obtain ⟨c₂,hheader,-⟩ := h₁.header (by decide) (show _ = 2 from rfl) "OP_ACK_TEST_CASE"
  have second : word 1 (pack [opAckTestCase,hashBytes (pre ++ window' ++ post)]) =
      hashBytes (pre ++ window' ++ post) :=
    word_pack (by simp) (by simpa using ⟨by decide,(BitVec.isLt _ : hashBytes _<2^64)⟩)
  rw [loadTestCase,if_neg hactive,bind_ok hsend,bind_ok hheader,second]
  by_cases hsame : window=window'
  · subst hsame
    rw [if_pos rfl]
    rw [if_neg (not_not.mpr rfl)]
    rfl
  · have differ : hashBytes (pre ++ window' ++ post) ≠ hashBytes (pre ++ window ++ post) :=
      fun heq => hsame (hashBytes_window hlen hle heq.symm)
    rw [if_neg hsame,if_pos differ]
    rfl

lemma refines_load {case : List UInt8} (hcase : case.length<2^64) :
    Refines (Alike w Cmd) (loadTestCase w case) (Direct.load m case) := by
  intro c d h
  have stored : Alike w Cmd { c with lastCase := some case } { d with lastCase := some case } := by
    refine ⟨⟨h.nodup,h.small,h.size,h.active,h.link⟩,rfl,by simpa using hcase,h.commands,h.waiting,?_⟩
    have hmachine := h.machine
    cases hd : d.machine with
    | none =>
      rw [hd] at hmachine
      exact hmachine
    | some s =>
      rw [hd] at hmachine
      obtain ⟨hactive,htalks⟩ := hmachine
      exact ⟨hactive,rfl,rfl,rfl,fun _ _ => rfl,htalks.printed,htalks.link⟩
  cases hd : d.machine with
  | none =>
    rw [loadTestCase,if_pos (h.not_connected hd).2.1,Direct.load,hd]
    rw [hd] at stored
    exact ⟨rfl,fun _ _ => stored⟩
  | some s =>
    obtain ⟨hactive,htalks⟩ := h.talks hd
    obtain ⟨c₂,hload,h₂⟩ := load_confirmed hw ht hcase hactive htalks
    rw [hload,Direct.load,hd]
    exact ⟨rfl,fun _ _ => stored.after hd rfl rfl h₂⟩

omit hw ht in
lemma refines_output : Refines (Alike w Cmd) (output : Program (Client χ σ) IpcError _)
    Direct.output := by
  intro c d h
  cases hd : d.machine with
  | none =>
    obtain ⟨-,hactive,hprocesses⟩ := h.not_connected hd
    rw [output,if_neg (by simp [Client.pids,hprocesses]),Direct.output,hd,hactive]
    refine ⟨rfl,fun _ raised => ?_⟩
    cases raised
  | some s =>
    obtain ⟨hactive,htalks⟩ := h.talks hd
    rw [output,if_pos (h.active.resolve_left hactive),Direct.output,hd,htalks.printed]
    dsimp only
    cases readOutput d.stdout with
    | error e =>
      refine ⟨rfl,fun _ raised => ?_⟩
      cases raised
    | ok p =>
      refine ⟨rfl,fun _ _ => h.after hd rfl rfl ⟨rfl,rfl,rfl,fun pid hne => ?_,?_,htalks.link⟩⟩
      · exact Function.update_of_ne hne _ _
      · exact Function.update_self _ _ _

end Exchanges

/-! ### Restarts -/

section Restarts
variable {χ σ : Type} {w : World χ σ} {m : Machine χ σ} {Cmd : χ → Prop}

/-- New processes have printed nothing. -/
lemma refill_waiting (cmd : χ) {n : ℕ} {c : Client χ σ} (h : ∀ pid ∈ c.pids, c.stdout pid = []) :
    ∀ pid ∈ (c.refill w cmd n).pids, (c.refill w cmd n).stdout pid = [] := by
  induction n generalizing c with
  | zero => exact h
  | succ n ih =>
    refine ih fun pid hpid => ?_
    rw [startNew_pids,List.mem_append,List.mem_singleton] at hpid
    by_cases fresh : pid = w.spawn c.moment c.pids
    · rw [fresh]
      exact Function.update_self _ _ _
    · exact (Function.update_of_ne fresh _ _).trans (h pid (hpid.resolve_right fresh))

lemma Alike.killActive_waiting {c : Client χ σ} {d : Direct σ} (h : Alike w Cmd c d) :
    ∀ pid ∈ c.killActive.pids, c.killActive.stdout pid = [] := by
  intro pid hpid
  have kept : c.killActive.stdout = c.stdout := by
    unfold Client.killActive
    split <;> rfl
  rw [Client.pids,killActive_processes h.toPool,List.mem_map] at hpid
  obtain ⟨p,hp,rfl⟩ := hpid
  obtain ⟨hmem,hother⟩ := List.mem_filter.mp hp
  rw [kept]
  exact h.waiting p.1 (List.mem_map_of_mem hmem) (by simpa using hother)

/-- In a pool of one, no process is left once the active one is killed. -/
lemma Alike.killActive_single {c : Client χ σ} {d : Direct σ} (h : Alike w Cmd c d)
    (hone : w.parallelism = 1) : c.killActive.processes = [] := by
  rw [killActive_processes h.toPool,List.filter_eq_nil_iff]
  intro p hp
  cases hd : d.machine with
  | none =>
    rw [(h.not_connected hd).2.2] at hp
    cases hp
  | some s =>
    obtain ⟨q,hq,heq⟩ := List.mem_map.mp (h.active.resolve_left (h.talks hd).1)
    have hsize := h.size
    rw [hone] at hsize
    have same : p=q := by
      obtain ⟨r,hr⟩ := List.length_eq_one_iff.mp (Nat.le_antisymm hsize (List.length_pos_of_mem hp))
      rw [hr,List.mem_singleton] at hp hq
      rw [hp,hq]
    simp [same,heq]

/-- The renewed pool is full of processes that have printed nothing, started with commands that are
in use. -/
lemma Alike.renewed {cmd : χ} (hcmd : Cmd cmd) {c : Client χ σ} {d : Direct σ} (h : Alike w Cmd c d) :
    ∃ c₀, renewPool w cmd c = (.ok (),c₀) ∧ Pool w c₀ ∧ c₀.processes ≠ [] ∧
      (∀ p ∈ c₀.processes, Cmd p.2 ∧ (w.parallelism = 1 → p.2=cmd)) ∧
      (∀ pid ∈ c₀.pids, c₀.stdout pid = []) ∧ c₀.lastCase = d.lastCase := by
  have hlen : c.killActive.processes.length+
      (w.parallelism-c.killActive.processes.length) = w.parallelism :=
    Nat.add_sub_cancel' h.toPool.killActive.size
  obtain ⟨hpool,hfull,hcase,-,hcmds⟩ := h.toPool.killActive.refill cmd hlen
  refine ⟨_,rfl,hpool,?_,fun p hp => ?_,refill_waiting cmd h.killActive_waiting,
    hcase.trans ((killActive_lastCase c).trans h.lastCase)⟩
  · apply List.ne_nil_of_length_pos
    rw [hfull]
    exact w.parallelism_pos
  · rcases hcmds p hp with hold | rfl
    · constructor
      · rw [killActive_processes h.toPool] at hold
        exact h.commands p (List.mem_of_mem_filter hold)
      · intro hone
        rw [h.killActive_single hone] at hold
        cases hold
    · exact ⟨hcmd,fun _ => rfl⟩

/-- A process that was started earlier, or just now, is connected. -/
lemma connect_ready (hw : Speaks w m) (ht : Timely w) {c : Client χ σ} (hc : c.processes ≠ [])
    (hwaiting : ∀ pid ∈ c.pids, c.stdout pid = []) :
    ∃ pid cmd c₁, (pid,cmd) ∈ c.processes ∧ connect w c = (.ok (),c₁) ∧
      Talks c c₁ pid (m.boot cmd) [] [] := by
  have live : c.pids ≠ [] := by simpa [Client.pids] using hc
  obtain ⟨pid,hready⟩ := Option.isSome_iff_exists.mp (ht.connects c.moment c.pids live)
  obtain ⟨cmd,hlookup,hmem⟩ := lookup_mem (w.ready_mem hready)
  refine ⟨pid,cmd,{ c with
    link := some ⟨pid,w.boot cmd,{ seconds := .const {} }⟩
    moment := c.moment+1 },hmem,?_,rfl,rfl,rfl,fun _ _ => rfl,hwaiting pid (w.ready_mem hready),
    { seconds := .const {} },?_,arrives_still []⟩
  · rw [connect,hready]
    dsimp only
    rw [hlookup]
  · dsimp only
    rw [hw.boot]

/-- The process that has connected becomes the active one. -/
lemma register_active (hw : Speaks w m) (ht : Timely w) {c c₁ : Client χ σ} {pid : ℕ} {s : σ}
    (h : Talks c c₁ pid s [] []) (hc : Pool w c) (hpid : pid ∈ c.pids) :
    ∃ c₂, register w c₁ = (.ok (),c₂) ∧
      Talks { c with activeProcess := pid } c₂ pid (m.step s .init) [] (m.printed s .init) := by
  obtain ⟨c₂,hsend,h₂⟩ := h.send hw ht (r := .init) trivial
  change Talks c c₂ pid _ (pack [opAckInit,pid]) (m.printed s .init) at h₂
  rw [← List.append_nil (pack _)] at h₂
  obtain ⟨c₃,hheader,h₃⟩ := h₂.header (by decide) (show _ = 2 from rfl) "OP_ACK_INIT"
  have second : word 1 (pack [opAckInit,pid]) = pid :=
    word_pack (by simp) (by simpa using ⟨by decide,(hc.small pid hpid).2⟩)
  refine ⟨{ c₃ with activeProcess := pid },?_,h₃.processes,rfl,h₃.lastCase,h₃.others,h₃.printed,
    h₃.link⟩
  have known : pid ∈ c₃.pids := by
    rw [h₃.pids]
    exact hpid
  rw [register,bind_ok hsend,bind_ok hheader,second]
  exact if_pos known

/-- A restart is one of the machine, with the command that the process which is the first to connect
was started with. In a pool of one this is the last command. -/
lemma restart_some (hw : Speaks w m) (ht : Timely w) {cmd : χ} (hcmd : Cmd cmd) {c : Client χ σ}
    {d : Direct σ} (h : Alike w Cmd c d) : ∃ cmd', Cmd cmd' ∧ (w.parallelism = 1 → cmd'=cmd) ∧
      (restartGem5 w cmd c).1 = (Direct.restart m cmd' d).1 ∧
      ∀ a, (restartGem5 w cmd c).1 = .ok a →
        Alike w Cmd (restartGem5 w cmd c).2 (Direct.restart m cmd' d).2 := by
  obtain ⟨c₀,hrenew,hpool,hne,known,hwaiting,hcase⟩ := h.renewed hcmd
  obtain ⟨pid,cmd',c₁,hmem,hconnect,h₁⟩ := connect_ready hw ht hne hwaiting
  have hpid : pid ∈ c₀.pids := List.mem_map_of_mem hmem
  obtain ⟨c₂,hregister,h₂⟩ := register_active hw ht h₁ hpool hpid
  refine ⟨cmd',(known _ hmem).1,(known _ hmem).2,?_⟩
  have hrun : restartGem5 w cmd c = loadLastCase w c₂ := by
    rw [restartGem5,bind_ok hrenew,bind_ok hconnect,bind_ok hregister]
  have hlast : c₂.lastCase = d.lastCase := h₂.lastCase.trans hcase
  have halike : Alike w Cmd c₂ ⟨some (m.step (m.boot cmd') .init),d.lastCase,
      m.printed (m.boot cmd') .init⟩ := by
    refine ⟨h₂.pool ⟨hpool.nodup,hpool.small,hpool.size,.inr hpid,hpool.link⟩ hpid,hlast,?_,?_,?_,?_⟩
    · rw [hlast,← h.lastCase]
      exact h.fits
    · rw [h₂.processes]
      exact fun p hp => (known p hp).1
    · rw [h₂.pids,h₂.activeProcess]
      intro pid' hpid' hother
      rw [h₂.others pid' hother]
      exact hwaiting pid' hpid'
    · dsimp only
      rw [h₂.activeProcess]
      exact ⟨(hpool.small pid hpid).1.ne',rfl,rfl,rfl,fun _ _ => rfl,h₂.printed,h₂.link⟩
  rw [hrun,loadLastCase,hlast,Direct.restart]
  cases hd : d.lastCase with
  | none =>
    rw [hd] at halike
    exact ⟨rfl,fun _ _ => by simpa [Direct.after,hd] using halike⟩
  | some case =>
    rw [hd] at halike
    have hfit : case.length<2^64 := h.fits case (by rw [h.lastCase,hd]; rfl)
    have loads := refines_load hw ht hfit c₂ _ halike
    simpa [Direct.after,hd] using loads

/-- Where the commands make no difference, it is a restart with the last command. -/
lemma refines_restart (hw : Speaks w m) (ht : Timely w) (hu : Uniform w m Cmd) {cmd : χ}
    (hcmd : Cmd cmd) : Refines (Alike w Cmd) (restartGem5 w cmd) (Direct.restart m cmd) := by
  intro c d h
  obtain ⟨cmd',hcmd',hone,result⟩ := restart_some hw ht hcmd h
  have same : Direct.restart m cmd' d = Direct.restart m cmd d := by
    rcases hu with single | boots
    · rw [hone single]
    · unfold Direct.restart
      rw [boots cmd' cmd hcmd' hcmd]
  rwa [same] at result

end Restarts

/-! ### Whole sessions -/

section Whole
variable {χ σ : Type} {w : World χ σ} {m : Machine χ σ} {Cmd : χ → Prop} {conf : Conf}

lemma refines_lift {α τ : Type} {R : Client χ σ → τ → Prop} (result : Except IpcError α) :
    Refines R (lift result) (lift result) := by
  intro s t h
  exact ⟨rfl,fun _ _ => h⟩

lemma refines_onlyIf {τ : Type} {R : Client χ σ → τ → Prop} {p : Program (Client χ σ) IpcError Unit}
    {q : Program τ IpcError Unit} (b : Bool) (h : Refines R p q) :
    Refines R (onlyIf b p) (onlyIf b q) := Refines.ite (fun _ => h) fun _ => .pure ()

lemma refines_added {τ : Type} {R : Client χ σ → τ → Prop}
    {p : Program (Client χ σ) IpcError (List Char)} {q : Program τ IpcError (List Char)} (b : Bool)
    (h : Refines R p q) : Refines R (added b p) (added b q) :=
  Refines.ite (fun _ => h) fun _ => .pure []

lemma input_fits (hconf : 8*conf.dataSize<2^64) (input : Input conf) :
    (Request.traceTestCase conf.registerStart (hashInput input) (inputBytes input)).Fits := by
  refine ⟨by simpa [inputBytes] using hconf,?_,?_⟩
  · have : conf.registerStart ≤ conf.dataSize := Nat.sub_le _ _
    omega
  · rw [hashInput]
    split
    · exact BitVec.isLt _
    · exact Nat.two_pow_pos 64

variable (hw : Speaks w m) (ht : Timely w)
include hw ht

lemma refines_trace (hconf : 8*conf.dataSize<2^64) (input : Input conf) (sources : List Source) :
    Refines (Alike w Cmd) (traceTestCase (wire w) input sources)
      (traceTestCase (Direct.exchange m) input sources) := by
  have tell (command : Command) : Refines (Alike w Cmd) ((wire w).tell command)
      ((Direct.exchange m).tell command) := refines_tell hw ht command
  have get (query : Query) : Refines (Alike w Cmd) ((wire w).get query)
      ((Direct.exchange m).get query) := refines_get hw ht query
  refine (refines_onlyIf _ (tell _)).bind fun _ => ?_
  refine (refines_onlyIf _ (tell _)).bind fun _ => ?_
  refine (refines_onlyIf _ (tell _)).bind fun _ => ?_
  refine (refines_onlyIf _ (tell _)).bind fun _ => ?_
  refine (refines_input hw ht (input_fits hconf input)).bind fun tags => ?_
  refine (refines_lift _).bind fun trace => ?_
  refine (refines_added _ ?_).bind fun state => ?_
  · exact (get _).bind fun _ => (refines_lift _).bind fun _ => .pure _
  refine (refines_added _ ?_).bind fun predicted => ?_
  · exact (get _).bind fun _ => (refines_lift _).bind fun _ => (refines_lift _).bind fun _ => .pure _
  refine (refines_added _ ?_).bind fun accesses => ?_
  · exact (get _).bind fun _ => (refines_lift _).bind fun _ => (refines_lift _).bind fun _ => .pure _
  refine (refines_added _ ?_).bind fun commits => ?_
  · exact (get _).bind fun _ => (refines_lift _).bind fun _ => .pure _
  exact .pure _

/-- A call that is no restart. -/
lemma refines_call {a : Call χ conf} (ha : a.Fits) (hne : ∀ cmd, a ≠ .restart cmd) :
    Refines (Alike w Cmd) (call (orchestration w) a) (call (direct m) a) := by
  cases a with
  | restart cmd => exact absurd rfl (hne cmd)
  | load case => exact (refines_load hw ht ha).bind fun _ => .pure []
  | resetLog => exact (refines_tell hw ht .resetLog).bind fun _ => .pure []
  | trace input sources => exact refines_trace hw ht ha input sources
  | output => exact refines_output

variable (hu : Uniform w m Cmd)
include hu

lemma refines_session {calls : List (Call χ conf)} (hfits : ∀ a ∈ calls, a.Fits)
    (hcmds : ∀ cmd, .restart cmd ∈ calls → Cmd cmd) :
    Refines (Alike w Cmd) (session (orchestration w) calls) (session (direct m) calls) := by
  refine .forEach fun a ha => ?_
  by_cases hne : ∀ cmd, a ≠ .restart cmd
  · exact refines_call hw ht (hfits a ha) hne
  · push Not at hne
    obtain ⟨cmd,rfl⟩ := hne
    exact (refines_restart hw ht hu (hcmds cmd ha)).bind fun _ => .pure []

lemma refines_executorTraces (hconf : 8*conf.dataSize<2^64) (options : TraceOptions) {cmd : χ}
    (hcmd : Cmd cmd) (inputs : List (Input conf)) :
    Refines (Alike w Cmd) (executorTraces (orchestration w) options cmd inputs)
      (executorTraces (direct m) options cmd inputs) := by
  have turn (input : Input conf) : Refines (Alike w Cmd) (executorTrace (orchestration w) options input)
      (executorTrace (direct m) options input) := by
    refine Refines.bind ?_ fun text => Refines.bind ?_ fun output => ?_
    · refine (refines_onlyIf _ (refines_tell hw ht _)).bind fun _ => ?_
      exact refines_trace hw ht hconf input options.sources
    · exact .ite (fun _ => .pure []) fun _ => refines_output
    · exact .ite (fun _ => .raise IpcError.simulateLimit) fun _ => .pure text
  refine (refines_restart hw ht hu hcmd).bind fun _ => Refines.bind ?_ fun texts => ?_
  · exact .forEach fun input _ => turn input
  · exact .ite (fun _ => .raise IpcError.index) fun _ => .pure texts

end Whole

/-- Before the first call. -/
lemma alike_new {χ σ : Type} (w : World χ σ) (Cmd : χ → Prop) : Alike w Cmd {} {} where
  nodup := List.nodup_nil
  small := nofun
  size := Nat.zero_le _
  active := .inl rfl
  link := nofun
  lastCase := rfl
  fits := nofun
  commands := nofun
  waiting := nofun
  machine := ⟨rfl,rfl,rfl⟩

/-- The same calls, but each restart has the command of this or of an earlier one. -/
inductive Replaced {χ : Type} {conf : Conf} :
    List χ → List (Call χ conf) → List (Call χ conf) → Prop
  | nil {used} : Replaced used [] []
  | restart {used cmd cmd' calls calls'} : cmd' ∈ cmd :: used → Replaced (cmd :: used) calls calls' →
      Replaced used (.restart cmd :: calls) (.restart cmd' :: calls')
  | other {used a calls calls'} : (∀ cmd, a ≠ .restart cmd) → Replaced used calls calls' →
      Replaced used (a :: calls) (a :: calls')

section Replacing
variable {χ σ : Type} {w : World χ σ} {m : Machine χ σ} {conf : Conf} {used : List χ}
  {calls calls' : List (Call χ conf)}

lemma Replaced.refl (used : List χ) (calls : List (Call χ conf)) : Replaced used calls calls := by
  induction calls generalizing used with
  | nil => exact .nil
  | cons a calls ih =>
    by_cases hne : ∀ cmd, a ≠ .restart cmd
    · exact .other hne (ih used)
    · push Not at hne
      obtain ⟨cmd,rfl⟩ := hne
      exact .restart List.mem_cons_self (ih _)

/-- With a single command there is nothing to replace. -/
lemma Replaced.eq (h : Replaced used calls calls') {cmd : χ} (hused : ∀ cmd' ∈ used, cmd'=cmd)
    (hcalls : ∀ cmd', .restart cmd' ∈ calls → cmd'=cmd) : calls'=calls := by
  induction h with
  | nil => rfl
  | @restart used cmd₁ cmd₂ calls calls' hmem _ ih =>
    obtain rfl := hcalls cmd₁ List.mem_cons_self
    have known : ∀ cmd' ∈ cmd₁ :: used, cmd'=cmd₁ := by
      simpa using hused
    rw [known cmd₂ hmem,ih known fun cmd' h => hcalls cmd' (List.mem_cons_of_mem _ h)]
  | other _ _ ih => rw [ih hused fun cmd' h => hcalls cmd' (List.mem_cons_of_mem _ h)]

lemma Alike.mono {Cmd Cmd' : χ → Prop} {c : Client χ σ} {d : Direct σ} (h : Alike w Cmd c d)
    (hmono : ∀ cmd, Cmd cmd → Cmd' cmd) : Alike w Cmd' c d :=
  ⟨h.toPool,h.lastCase,h.fits,fun p hp => hmono _ (h.commands p hp),h.waiting,h.machine⟩

/-- From alike states, a session over the pool gives what the machine gives for some replacement of
its commands. -/
lemma session_replaced (hw : Speaks w m) (ht : Timely w) (hfits : ∀ a ∈ calls, a.Fits)
    {c : Client χ σ} {d : Direct σ} (h : Alike w (· ∈ used) c d) : ∃ calls', Replaced used calls calls' ∧
      (w.parallelism = 1 → calls'=calls) ∧
      (session (orchestration w) calls c).1 = (session (direct m) calls' d).1 := by
  induction calls generalizing used c d with
  | nil => exact ⟨[],.nil,fun _ => rfl,rfl⟩
  | cons a calls ih =>
    rw [List.forall_mem_cons] at hfits
    -- one call that gives the same on both sides, then the others
    have turn : ∀ a' {used'}, ((call (orchestration w) a c).1 = (call (direct m) a' d).1 ∧
        ∀ text, (call (orchestration w) a c).1 = .ok text →
          Alike w (· ∈ used') (call (orchestration w) a c).2 (call (direct m) a' d).2) →
        ∃ calls', Replaced used' calls calls' ∧ (w.parallelism = 1 → calls'=calls) ∧
          (session (orchestration w) (a :: calls) c).1 = (session (direct m) (a' :: calls') d).1 := by
      intro a' used' ⟨same,related⟩
      cases hres : (call (orchestration w) a c).1 with
      | error e =>
        refine ⟨calls,.refl _ _,fun _ => rfl,forEach_cons_fst same fun text htext => ?_⟩
        rw [hres] at htext
        cases htext
      | ok text =>
        obtain ⟨calls',hreplaced,hone,hsame⟩ := ih hfits.2 (related text hres)
        exact ⟨calls',hreplaced,hone,forEach_cons_fst same fun _ _ => hsame⟩
    by_cases hne : ∀ cmd, a ≠ .restart cmd
    · obtain ⟨calls',hreplaced,hone,hsame⟩ := turn a (refines_call hw ht hfits.1 hne c d h)
      exact ⟨a :: calls',.other hne hreplaced,fun single => by rw [hone single],hsame⟩
    · push Not at hne
      obtain ⟨cmd,rfl⟩ := hne
      have h' : Alike w (· ∈ cmd :: used) c d := h.mono fun _ => List.mem_cons_of_mem _
      obtain ⟨cmd',hcmd',hone',result⟩ := restart_some hw ht (m := m) List.mem_cons_self h'
      obtain ⟨calls',hreplaced,hone,hsame⟩ := turn (.restart cmd')
        (Refines.bind_at result fun _ => .pure [])
      refine ⟨.restart cmd' :: calls',.restart hcmd' hreplaced,fun single => ?_,hsame⟩
      rw [hone single,hone' single]

end Replacing

/-- However the network cuts and delays the replies, and whichever processes connect first, a whole
session gives the texts and the exceptions of direct calls to one machine, which every restart starts
with the command of this or of an earlier restart; and with its own if the pool holds one process or
there is one command. -/
theorem session_eq_direct {χ σ : Type} {w : World χ σ} {m : Machine χ σ} {conf : Conf}
    (hw : Speaks w m) (ht : Timely w) {calls : List (Call χ conf)} (hfits : ∀ a ∈ calls, a.Fits) :
    ∃ calls', Replaced [] calls calls' ∧
      (w.parallelism = 1 ∨ (∃ cmd, ∀ cmd', .restart cmd' ∈ calls → cmd'=cmd) → calls'=calls) ∧
      (session (orchestration w) calls {}).1 = (session (direct m) calls' {}).1 := by
  obtain ⟨calls',hreplaced,hone,hsame⟩ := session_replaced hw ht hfits (alike_new w (· ∈ []))
  refine ⟨calls',hreplaced,?_,hsame⟩
  rintro (single | ⟨cmd,hcmd⟩)
  · exact hone single
  · exact hreplaced.eq (by simp) hcmd

/-- A machine that keeps the command it was started with, and prints it. -/
def greeter : Machine Bool Bool where
  boot cmd := cmd
  step s _ := s
  output _ _ := []
  output_lt _ _ := by decide
  printed s
    | .init => [if s then [65] else [66],resetLine]
    | _ => []

/-- Gem5 is started again with another command, and what it prints is read. -/
def greetings : List (Call Bool {}) := [.restart true,.restart false,.output]

lemma greetings_fits : ∀ a ∈ greetings, a.Fits := by
  intro a ha
  simp only [greetings,List.mem_cons,List.not_mem_nil,or_false] at ha
  rcases ha with rfl | rfl | rfl <;> trivial

/-- The second process has waited since the first restart. -/
theorem session_eq_direct_greetings :
    (session (orchestration greeter.pair) greetings {}).1 = .ok [[],[],['A']] ∧
      (session (direct greeter) greetings {}).1 = .ok [[],[],['B']] ∧
      ∃ calls', Replaced [] greetings calls' ∧
        (greeter.pair.parallelism = 1 ∨ (∃ cmd, ∀ cmd', .restart cmd' ∈ greetings → cmd'=cmd) →
          calls'=greetings) ∧
        (session (orchestration greeter.pair) greetings {}).1 = (session (direct greeter) calls' {}).1 :=
  ⟨by decide +kernel,by decide +kernel,
    session_eq_direct (pair_speaks greeter) (pair_timely greeter) greetings_fits⟩

/-- Two processes that have each got another byte than was sent. -/
def garbled : World Bool Unit where
  parallelism := 2
  parallelism_pos := Nat.zero_lt_succ _
  boot _ := ()
  serve _ _ _ := (pack [opAckTestCase,hashBytes [0x91]],())
  printed _ _ _ := []
  network _ _ bytes := .still bytes
  spawn := counter.pair.spawn
  spawn_new := counter.pair.spawn_new
  ready := counter.pair.ready
  ready_mem := counter.pair.ready_mem

theorem loadTestCase_intact_garbled :
    (loadTestCase garbled [0x90] ⟨[(1,false)],1,none,some ⟨1,(),.still []⟩,fun _ => [],0⟩).1 =
      if ([0x90] : List UInt8) = [0x91] then .ok () else .error .testCase :=
  loadTestCase_intact (w := garbled)
    ⟨fun _ _ bytes _ => arrives_still bytes,(pair_timely counter).connects⟩
    (c := ⟨[(1,false)],1,none,some ⟨1,(),.still []⟩,fun _ => [],0⟩) (Nat.succ_ne_zero 0)
    ⟨rfl,rfl,rfl,fun _ _ => rfl,rfl,_,rfl,arrives_still []⟩ [] [0x90] [0x91] [] rfl (by decide) rfl

/-! ### Traces of inputs -/

section Independence
variable {χ σ : Type} {w : World χ σ} {m : Machine χ σ} {Cmd : χ → Prop} {conf : Conf}

/-- A restart forgets the machine that was there before, and what it has printed. -/
lemma restart_direct (cmd : χ) (d : Direct σ) :
    Direct.restart m cmd d = Direct.restart m cmd { lastCase := d.lastCase } := rfl

lemma restart_returns (cmd : χ) (d : Direct σ) :
    (direct m).restart cmd d = (.ok (),(Direct.restart m cmd d).2) := by
  change Direct.restart m cmd d = _
  rw [Direct.restart]
  cases d.lastCase <;> rfl

lemma executorTraces_direct (options : TraceOptions) (cmd : χ) (inputs : List (Input conf))
    (d : Direct σ) : executorTraces (direct m) options cmd inputs d =
      executorTraces (direct m) options cmd inputs { lastCase := d.lastCase } := by
  rw [executorTraces,bind_ok (restart_returns cmd d),
    bind_ok (restart_returns cmd { lastCase := d.lastCase }),restart_direct]

lemma alike_session (hw : Speaks w m) (ht : Timely w) (hu : Uniform w m Cmd)
    {calls : List (Call χ conf)} (hfits : ∀ a ∈ calls, a.Fits)
    (hcmds : ∀ cmd, .restart cmd ∈ calls → Cmd cmd) {texts : List (List Char)}
    {c : Client χ σ} (h : session (orchestration w) calls {} = (.ok texts,c)) :
    ∃ d : Direct σ, Alike w Cmd c d := by
  have later := (refines_session hw ht hu hfits hcmds _ _ (alike_new w Cmd)).2 texts
  rw [h] at later
  exact ⟨_,later rfl⟩

/-- Where the commands make no difference, the traces of a list of inputs depend on the test case, the
command and the inputs: not on what was asked before, on the number of processes, on their order or on
the network. -/
theorem executorTraces_independent {w' : World χ σ} (hw : Speaks w m) (ht : Timely w)
    (hu : Uniform w m Cmd) (hw' : Speaks w' m) (ht' : Timely w') (hu' : Uniform w' m Cmd)
    (hconf : 8*conf.dataSize<2^64) {calls calls' : List (Call χ conf)}
    (hfits : ∀ a ∈ calls, a.Fits) (hfits' : ∀ a ∈ calls', a.Fits)
    (hcmds : ∀ cmd, .restart cmd ∈ calls → Cmd cmd)
    (hcmds' : ∀ cmd, .restart cmd ∈ calls' → Cmd cmd)
    {texts texts' : List (List Char)} {c c' : Client χ σ}
    (h : session (orchestration w) calls {} = (.ok texts,c))
    (h' : session (orchestration w') calls' {} = (.ok texts',c'))
    (hcase : c.lastCase = c'.lastCase) (options : TraceOptions) {cmd : χ} (hcmd : Cmd cmd)
    (inputs : List (Input conf)) :
    (executorTraces (orchestration w) options cmd inputs c).1 =
      (executorTraces (orchestration w') options cmd inputs c').1 := by
  obtain ⟨d,hd⟩ := alike_session hw ht hu hfits hcmds h
  obtain ⟨d',hd'⟩ := alike_session hw' ht' hu' hfits' hcmds' h'
  have same : d.lastCase = d'.lastCase := by
    rw [← hd.lastCase,← hd'.lastCase,hcase]
  rw [(refines_executorTraces hw ht hu hconf options hcmd inputs c d hd).1,
    (refines_executorTraces hw' ht' hu' hconf options hcmd inputs c' d' hd').1,
    executorTraces_direct options cmd inputs d,executorTraces_direct options cmd inputs d',same]

/-- A session with the results of direct calls. -/
lemma session_returns (hw : Speaks w m) (ht : Timely w) (hu : Uniform w m Cmd)
    {calls : List (Call χ conf)} (hfits : ∀ a ∈ calls, a.Fits)
    (hcmds : ∀ cmd, .restart cmd ∈ calls → Cmd cmd) {texts : List (List Char)} {d : Direct σ}
    (h : session (direct m) calls {} = (.ok texts,d)) : ∃ c,
      session (orchestration w) calls {} = (.ok texts,c) ∧ c.lastCase = d.lastCase := by
  have same := refines_session hw ht hu hfits hcmds _ _ (alike_new w Cmd)
  rw [h] at same
  exact ⟨_,Prod.ext same.1 rfl,(same.2 texts same.1).lastCase⟩

/-- A session that starts gem5, loads a test case and traces an input. -/
def shortSession : List (Call Bool {}) :=
  [.restart true,.load [0x90],.resetLog,.trace ⟨fun _ => 0⟩ [.recording .branchPredState]]

/-- A session that loads the same test case and no more. -/
def loadSession : List (Call Bool {}) := [.load [0x90]]

lemma load_fits : (Call.load [0x90] : Call Bool {}).Fits :=
  (by decide : ([0x90] : List UInt8).length<2^64)

lemma dataSize_fits : 8*({} : Conf).dataSize<2^64 := by decide

lemma loadSession_fits : ∀ a ∈ loadSession, a.Fits := List.forall_mem_singleton.mpr load_fits

lemma shortSession_fits : ∀ a ∈ shortSession, a.Fits := by
  intro a ha
  simp only [shortSession,List.mem_cons,List.not_mem_nil,or_false] at ha
  rcases ha with rfl | rfl | rfl | rfl
  · trivial
  · exact load_fits
  · trivial
  · exact dataSize_fits

/-- Two inputs that differ in the first byte. -/
def inputPair : List (Input {}) := [⟨fun _ => 0⟩,⟨fun i => if i.val = 0 then 1 else 0⟩]

theorem executorTraces_independent_short :
    (executorTraces (orchestration counter.pair) { persistLog := true } false inputPair
      (session (orchestration counter.pair) shortSession {}).2).1 =
    (executorTraces (orchestration counter.single) { persistLog := true } false inputPair
      (session (orchestration counter.single) loadSession {}).2).1 := by
  have all {calls : List (Call Bool {})} : ∀ cmd, .restart cmd ∈ calls → (fun _ => True) cmd :=
    fun _ _ => trivial
  have pair := counter_uniform counter.pair fun _ => True
  have single := counter_uniform counter.single fun _ => True
  obtain ⟨c,hc,hcase⟩ := session_returns (pair_speaks counter) (pair_timely counter) pair
    shortSession_fits all rfl
  obtain ⟨c',hc',hcase'⟩ := session_returns (single_speaks counter) (single_timely counter) single
    loadSession_fits all rfl
  rw [congrArg Prod.snd hc,congrArg Prod.snd hc']
  exact executorTraces_independent (pair_speaks counter) (pair_timely counter) pair
    (single_speaks counter) (single_timely counter) single dataSize_fits shortSession_fits
    loadSession_fits all all hc hc' (hcase.trans hcase'.symm) _ trivial _

end Independence

end ProteanAmulet.Gem5IPCOrchestration
