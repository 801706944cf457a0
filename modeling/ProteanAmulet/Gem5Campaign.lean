import ProteanAmulet.Campaign
import ProteanAmulet.Gem5Refinement

/-! Campaigns of the fuzzer over pooled processes of gem5. They come to what they would come to over
one machine that is called directly, and that is what the traces of the machine violate. -/
namespace ProteanAmulet.Gem5IPCOrchestration
open Fuzzer Program X86Gem5

/-- What is fixed over a campaign: the options of the executor, the command with and without priming,
the number that is made of a text, and what the clock shows. -/
structure Settings (χ : Type) extends TraceOptions where
  cmd : Bool → χ
  trace : List Char → HTrace
  clock : ℕ → Bool := fun _ => false

/-- The state of `X86Gem5`, and how often the clock was read. -/
structure Fuzzing (τ : Type) where
  orchestration : τ
  /-- `code_segment` is not empty. -/
  loaded : Bool := false
  priming : Bool := false
  reads : ℕ := 0

section Executors
variable {χ τ α : Type} {conf : Conf}

def raised : Except IpcError α → Except (Failure IpcError) α
  | .ok a => .ok a
  | .error e => .error (.executor e)

def lifted (p : Program τ IpcError α) : Program (Fuzzing τ) (Failure IpcError) α := fun s =>
  (raised (p s.orchestration).1,{ s with orchestration := (p s.orchestration).2 })

/-- The executor of the fuzzer. `trace_test_case` starts gem5 again even without a test case. -/
def x86Gem5 (g : Settings χ) (o : Orchestration χ τ) :
    Target (Fuzzing τ) IpcError (Input conf) (List UInt8) where
  loadTestCase case s := lifted (o.load case) { s with loaded := true }
  traceTestCase inputs s :=
    (if s.loaded then do
      let texts ← lifted (executorTraces o g.toTraceOptions (g.cmd s.priming) inputs)
      pure (texts.map g.trace)
    else do
      lifted (o.restart (g.cmd s.priming))
      raise .noTestCase : Program (Fuzzing τ) (Failure IpcError) (List HTrace)) s
  bugged := pure false
  startPriming s := (.ok (),{ s with priming := true })
  stopPriming s := (.ok (),{ s with priming := false })
  expired s := (.ok (g.clock s.reads),{ s with reads := s.reads+1 })

end Executors

/-! ### From the pool to the machine -/

section Pools
variable {χ σ α : Type} {w : World χ σ} {m : Machine χ σ} {conf : Conf} {g : Settings χ}

/-- The orchestrations are related, and the rest is the same. -/
structure Beside {τ τ' : Type} (R : τ → τ' → Prop) (s : Fuzzing τ) (s' : Fuzzing τ') : Prop where
  orchestration : R s.orchestration s'.orchestration
  loaded : s.loaded = s'.loaded
  priming : s.priming = s'.priming
  reads : s.reads = s'.reads

lemma refines_lifted {τ τ' : Type} {R : τ → τ' → Prop} {p : Program τ IpcError α}
    {q : Program τ' IpcError α} (h : Program.Refines R p q) :
    Program.Refines (Beside R) (lifted p) (lifted q) := by
  intro s s' hs
  obtain ⟨result,related⟩ := h _ _ hs.orchestration
  refine ⟨congrArg raised result,fun a ha => ?_⟩
  change raised (p s.orchestration).1 = .ok a at ha
  cases hp : (p s.orchestration).1 with
  | ok b => exact ⟨related b hp,hs.loaded,hs.priming,hs.reads⟩
  | error e =>
    rw [hp] at ha
    cases ha

/-- One of the commands of a campaign. -/
def Settings.Cmd (g : Settings χ) (cmd : χ) : Prop := ∃ priming, cmd = g.cmd priming

/-- The executor over the pool gives the results of the one over the machine. -/
lemma refines_x86Gem5 (hw : Speaks w m) (ht : Timely w) (hu : Uniform w m g.Cmd)
    (hconf : 8*conf.dataSize<2^64) :
    Target.Refines (ι := Input conf) (Beside (Alike w g.Cmd)) (fun case => case.length<2^64)
      (x86Gem5 g (orchestration w)) (x86Gem5 g (direct m)) where
  loadTestCase case hcase := by
    intro s s' h
    exact refines_lifted (refines_load hw ht hcase) _ _ ⟨h.orchestration,rfl,h.priming,h.reads⟩
  traceTestCase inputs := by
    intro s s' h
    dsimp only [x86Gem5]
    rw [h.loaded,h.priming]
    have hcmd : g.Cmd (g.cmd s'.priming) := ⟨_,rfl⟩
    refine Program.Refines.ite (fun _ => ?_) (fun _ => ?_) s s' h
    · exact (refines_lifted (refines_executorTraces hw ht hu hconf _ hcmd _)).bind fun _ => .pure _
    · exact (refines_lifted (refines_restart hw ht hu hcmd)).bind fun _ => .raise _
  bugged := .pure false
  startPriming := fun _ _ h => ⟨rfl,fun _ _ => ⟨h.orchestration,h.loaded,rfl,h.reads⟩⟩
  stopPriming := fun _ _ h => ⟨rfl,fun _ _ => ⟨h.orchestration,h.loaded,rfl,h.reads⟩⟩
  expired := by
    intro s s' h
    dsimp only [x86Gem5]
    rw [h.reads]
    exact ⟨rfl,fun _ _ => ⟨h.orchestration,h.loaded,h.priming,rfl⟩⟩

/-- However the network cuts and delays the replies, whichever processes connect first, and whatever
the clock shows: if one process is kept at a time, or priming does not change what is booted, then a
campaign over the pool ends like one over a machine that is called directly, with the same reports,
counters and exceptions. -/
theorem campaign_eq_direct (hw : Speaks w m) (ht : Timely w) {g : Settings χ}
    (hu : Uniform w m g.Cmd) (hconf : 8*conf.dataSize<2^64)
    {c : Campaign (Input conf) (List UInt8)} (hc : ∀ i, (c.testCase i).length<2^64) :
    (start (x86Gem5 g (orchestration w)) c ⟨{},false,false,0⟩).1 =
      (start (x86Gem5 g (direct m)) c ⟨{},false,false,0⟩).1 :=
  (refines_start (refines_x86Gem5 hw ht hu hconf) hc _ _ ⟨alike_new w _,rfl,rfl,rfl⟩).1

/-- A machine that says whether the first byte of an input is zero. -/
def teller : Machine Bool Unit where
  boot _ := ()
  step _ _ := ()
  output _
    | .traceTestCase _ _ input => if input.head? = some 0 then [65] else [66]
    | _ => [67]
  output_lt s r := by
    split
    · split <;> decide
    · decide
  printed _
    | .traceTestCase .. => [resetLine]
    | _ => []

lemma teller_uniform (w : World Bool Unit) (Cmd : Bool → Prop) : Uniform w teller Cmd :=
  .inr fun _ _ _ _ => rfl

/-- Two rounds over one instruction each, with two inputs that have the same contract trace. -/
def shortCampaign : Campaign (Input {}) (List UInt8) where
  numTestCases := 2
  nonstop := true
  testCase i := if i = 0 then [0x90] else [0xf5]
  round _ :=
    { inputs := inputPair
      boostInputs := fun inputs _ => inputs
      traceTestCase := fun inputs _ => inputs.map fun _ => 7 }

/-- The command says whether it is for priming. -/
def shortSettings : Settings Bool where
  cmd priming := priming
  trace text := (text.map fun c => (c.toNat : ℤ)).sum

lemma shortCampaign_fits (i : ℕ) : (shortCampaign.testCase i).length<2^64 := by
  dsimp only [shortCampaign]
  split <;> decide

theorem campaign_eq_direct_short :
    (start (x86Gem5 shortSettings (orchestration teller.pair)) shortCampaign
      ⟨{},false,false,0⟩).1 =
    (start (x86Gem5 shortSettings (direct teller)) shortCampaign ⟨{},false,false,0⟩).1 :=
  campaign_eq_direct (pair_speaks teller) (pair_timely teller) (teller_uniform _ _) dataSize_fits
    shortCampaign_fits

/-! ### From the machine to a function -/

/-- The traces that a machine of its own gives for a test case. -/
def gem5Executor (g : Settings χ) (m : Machine χ σ) (case : List UInt8) : Executor (Input conf) where
  traceTestCase inputs :=
    match (executorTraces (direct m) g.toTraceOptions (g.cmd false) inputs
      { lastCase := some case }).1 with
    | .ok texts => texts.map g.trace
    | .error _ => []

/-- The machine raises no exception, and priming starts it as it is started otherwise. -/
structure Steady (conf : Conf) (g : Settings χ) (m : Machine χ σ) : Prop where
  boot : m.boot (g.cmd true) = m.boot (g.cmd false)
  runs : ∀ case (inputs : List (Input conf)), inputs ≠ [] → ∃ texts, (executorTraces (direct m)
    g.toTraceOptions (g.cmd false) inputs { lastCase := some case }).1 = .ok texts

lemma Steady.uniform (h : Steady conf g m) : Uniform w m g.Cmd := by
  refine .inr ?_
  rintro _ _ ⟨p,rfl⟩ ⟨q,rfl⟩
  have same (p : Bool) : m.boot (g.cmd p) = m.boot (g.cmd false) := by
    cases p with
    | false => rfl
    | true => exact h.boot
  rw [same p,same q]

/-- The executor of the last test case is loaded. -/
structure Evaluated (g : Settings χ) (m : Machine χ σ) (s : Fuzzing (Direct σ))
    (s' : Ticking (Input conf)) : Prop where
  executor : s'.executor = s.orchestration.lastCase.map (gem5Executor g m)
  loaded : s.loaded = s.orchestration.lastCase.isSome
  reads : s'.reads = s.reads

/-- With priming or without, a restart leads to the same machine. -/
lemma restart_steady (h : Steady conf g m) (priming : Bool) (d : Direct σ) :
    Direct.restart m (g.cmd priming) d = Direct.restart m (g.cmd false) d := by
  cases priming with
  | false => rfl
  | true =>
    unfold Direct.restart
    rw [h.boot]

lemma executorTraces_steady (h : Steady conf g m) (priming : Bool) (d : Direct σ) {case : List UInt8}
    (hcase : d.lastCase = some case) (inputs : List (Input conf)) :
    executorTraces (direct m) g.toTraceOptions (g.cmd priming) inputs d =
      executorTraces (direct m) g.toTraceOptions (g.cmd false) inputs { lastCase := some case } := by
  have restarts : (direct m).restart (g.cmd priming) = (direct m).restart (g.cmd false) :=
    funext fun d => restart_steady h priming d
  rw [executorTraces,restarts,← executorTraces,executorTraces_direct,hcase]

/-- What is traced does not change the test case. -/
lemma keeps_lastCase (options : TraceOptions) (cmd : χ) (inputs : List (Input conf))
    (case : Option (List UInt8)) :
    Preserves (fun d : Direct σ => d.lastCase = case)
      (executorTraces (direct m) options cmd inputs) := by
  have ask (r : Request) : Preserves (fun d : Direct σ => d.lastCase = case) (Direct.ask m r) := by
    intro d hd
    rw [Direct.ask]
    split
    · exact hd
    · exact hd
  have tell (command : Command) :
      Preserves (fun d : Direct σ => d.lastCase = case) (Direct.tell m command) := by
    intro d hd
    rw [Direct.tell]
    split
    · exact hd
    · exact hd
  have output : Preserves (fun d : Direct σ => d.lastCase = case) Direct.output := by
    intro d hd
    rw [Direct.output]
    split
    · exact hd
    · split
      · exact hd
      · exact hd
  have restart : Preserves (fun d : Direct σ => d.lastCase = case) (Direct.restart m cmd) := by
    rintro d rfl
    rw [Direct.restart]
    cases d.lastCase <;> rfl
  have trace (input : Input conf) : Preserves (fun d : Direct σ => d.lastCase = case)
      (executorTrace (direct m) options input) := by
    refine Preserves.bind ?_ fun text => Preserves.bind ?_ fun printed => ?_
    · refine (preserves_onlyIf _ (tell .resetLog)).bind fun _ => ?_
      exact preserves_traceTestCase tell (fun _ _ _ => ask _) (fun _ => ask _) input options.sources
    · exact .ite (.pure []) output
    · exact .ite (.raise _) (.pure text)
  exact restart.bind fun _ => (Preserves.forEach trace inputs).bind fun texts =>
    .ite (.raise _) (.pure texts)

/-- Where traces are returned, each input has been traced by itself. -/
lemma executorTraces_ok {options : TraceOptions} {cmd : χ} {inputs : List (Input conf)}
    {d : Direct σ} {texts : List (List Char)}
    (h : (executorTraces (direct m) options cmd inputs d).1 = .ok texts) : ∃ s,
      forEach (executorTrace (direct m) options) inputs (Direct.restart m cmd d).2 = (.ok texts,s) := by
  obtain ⟨_,s,hrestart,hrun⟩ := bind_eq_ok.mp (Prod.ext h rfl : executorTraces (direct m) options cmd
    inputs d = (.ok texts,(executorTraces (direct m) options cmd inputs d).2))
  obtain ⟨texts',s',heach,hlast⟩ := bind_eq_ok.mp hrun
  have after : (Direct.restart m cmd d).2 = s := congrArg Prod.snd hrestart
  rw [after,heach]
  split at hlast
  · cases hlast
  · exact ⟨s',by rw [Except.ok.inj (congrArg Prod.fst hlast)]⟩

lemma gem5Executor_nil (case : List UInt8) :
    (gem5Executor g m case : Executor (Input conf)).traceTestCase [] = [] := by
  dsimp only [gem5Executor]
  split
  · rename_i texts htexts
    obtain ⟨s,hrun⟩ := executorTraces_ok htexts
    rw [List.length_eq_zero_iff.mp (forEach_length hrun),List.map_nil]
  · rfl

lemma gem5Executor_causal (h : Steady conf g m) (case : List UInt8) :
    Executor.Causal (ι := Input conf) (gem5Executor g m case) := by
  have runs : ∀ inputs : List (Input conf), inputs ≠ [] → ∃ texts s,
      (gem5Executor g m case).traceTestCase inputs = texts.map g.trace ∧
      forEach (executorTrace (direct m) g.toTraceOptions) inputs
        (Direct.restart m (g.cmd false) { lastCase := some case }).2 = (.ok texts,s) := by
    intro inputs hne
    obtain ⟨texts,htexts⟩ := h.runs case inputs hne
    obtain ⟨s,hrun⟩ := executorTraces_ok htexts
    refine ⟨texts,s,?_,hrun⟩
    dsimp only [gem5Executor]
    rw [htexts]
  constructor
  · intro xs
    by_cases hne : xs = []
    · rw [hne,gem5Executor_nil]
      rfl
    · obtain ⟨texts,s,heq,hrun⟩ := runs xs hne
      rw [heq,List.length_map,forEach_length hrun]
  · intro xs ys k hprefix
    by_cases hx : xs = []
    · subst hx
      have hy : ys = [] := by simpa using hprefix.symm
      rw [hy]
    · have hy : ys ≠ [] := by
        rintro rfl
        exact hx (by simpa using hprefix)
      obtain ⟨texts,s,heq,hrun⟩ := runs xs hx
      obtain ⟨texts',s',heq',hrun'⟩ := runs ys hy
      have same := congrArg (·[k]?) (forEach_take hrun hrun' hprefix)
      rw [List.getElem?_take_of_succ,List.getElem?_take_of_succ] at same
      rw [heq,heq',List.getElem?_map,List.getElem?_map,same]

/-- Without an input there is no last one. -/
lemma executorTraces_nil {options : TraceOptions} {cmd : χ} (d : Direct σ) :
    (executorTraces (direct m) options cmd ([] : List (Input conf)) d).1 = .error .index := by
  rw [executorTraces,bind_ok (restart_returns cmd d)]
  rfl

/-- A test case that is loaded is the last one. -/
lemma load_lastCase (case : List UInt8) (d : Direct σ) :
    (Direct.load m case d).1 = .ok () ∧ (Direct.load m case d).2.lastCase = some case := by
  rw [Direct.load]
  cases d.machine <;> exact ⟨rfl,rfl⟩

/-- Without a test case gem5 is started again all the same. -/
lemma traceTestCase_unloaded {s : Fuzzing (Direct σ)} (hs : s.loaded = false)
    (inputs : List (Input conf)) : (x86Gem5 g (direct m)).traceTestCase inputs s = (.error .noTestCase,
      { s with orchestration := (Direct.restart m (g.cmd s.priming) s.orchestration).2 }) := by
  have restarted : lifted ((direct m).restart (g.cmd s.priming)) s = (.ok (),
      { s with orchestration := (Direct.restart m (g.cmd s.priming) s.orchestration).2 }) := by
    rw [lifted,restart_returns]
    rfl
  dsimp only [x86Gem5]
  rw [if_neg (by rw [hs]; decide)]
  exact bind_ok restarted

lemma traceTestCase_nil {s : Fuzzing (Direct σ)} (hs : s.loaded = true) :
    ((x86Gem5 g (direct m)).traceTestCase ([] : List (Input conf)) s).1 =
      .error (.executor .index) := by
  have raises : lifted (executorTraces (direct m) g.toTraceOptions (g.cmd s.priming)
      ([] : List (Input conf))) s = (.error (.executor .index),_) :=
    Prod.ext (congrArg raised (executorTraces_nil _)) rfl
  dsimp only [x86Gem5]
  rw [if_pos hs]
  exact congrArg Prod.fst (bind_error raises)

/-- Inputs are traced as a machine of its own traces them. -/
lemma traceTestCase_steady (h : Steady conf g m) {s : Fuzzing (Direct σ)} (hs : s.loaded = true)
    {case : List UInt8} (hcase : s.orchestration.lastCase = some case) {inputs : List (Input conf)}
    (hne : inputs ≠ []) : (x86Gem5 g (direct m)).traceTestCase inputs s =
      (.ok ((gem5Executor g m case).traceTestCase inputs),{ s with orchestration :=
        (executorTraces (direct m) g.toTraceOptions (g.cmd s.priming) inputs s.orchestration).2 }) := by
  obtain ⟨texts,htexts⟩ := h.runs case inputs hne
  have same : (gem5Executor g m case).traceTestCase inputs = texts.map g.trace := by
    dsimp only [gem5Executor]
    rw [htexts]
  rw [← executorTraces_steady h s.priming _ hcase] at htexts
  dsimp only [x86Gem5]
  rw [if_pos hs,same]
  refine bind_ok (?_ : lifted _ s = (.ok texts,_))
  rw [lifted,htexts]
  rfl

/-- The executor over the machine gives the results of the function. -/
lemma refines_gem5Executor (h : Steady conf g m) :
    Target.Refines (ι := Input conf) (Evaluated g m) (fun _ => True) (x86Gem5 g (direct m))
      (functional (gem5Executor g m) .index g.clock) where
  loadTestCase case _ := by
    intro s s' hs
    obtain ⟨loads,hlast⟩ := load_lastCase (m := m) case s.orchestration
    refine ⟨congrArg raised loads,fun _ _ => ⟨?_,?_,hs.reads⟩⟩
    · exact (congrArg (Option.map (gem5Executor g m)) hlast).symm
    · exact (congrArg Option.isSome hlast).symm
  traceTestCase inputs := by
    intro s s' hs
    have executor := hs.executor
    have loaded := hs.loaded
    dsimp only [functional]
    cases hcase : s.orchestration.lastCase with
    | none =>
      rw [hcase] at executor loaded
      rw [traceTestCase_unloaded loaded,executor]
      exact ⟨rfl,nofun⟩
    | some case =>
      rw [hcase] at executor loaded
      rw [executor]
      dsimp only [Option.map_some]
      by_cases hne : inputs = []
      · subst hne
        rw [traceTestCase_nil loaded]
        exact ⟨rfl,nofun⟩
      have kept := keeps_lastCase (m := m) g.toTraceOptions (g.cmd s.priming) inputs (some case)
        s.orchestration hcase
      rw [traceTestCase_steady h loaded hcase hne,if_neg (by simpa using hne)]
      refine ⟨rfl,fun _ _ => ⟨?_,?_,hs.reads⟩⟩
      · rw [executor,kept]
      · rw [loaded,kept]
  bugged := .pure false
  startPriming := fun _ _ h => ⟨rfl,fun _ _ => ⟨h.executor,h.loaded,h.reads⟩⟩
  stopPriming := fun _ _ h => ⟨rfl,fun _ _ => ⟨h.executor,h.loaded,h.reads⟩⟩
  expired := by
    intro s s' h
    dsimp only [x86Gem5,functional]
    rw [h.reads]
    exact ⟨rfl,fun _ _ => ⟨h.executor,h.loaded,rfl⟩⟩

/-- If the machine raises no exception, priming boots it alike and every round has an input, then a
campaign over the pool raises no exception. Whatever the clock shows, the classes that it
reports are violations: inputs with one contract trace that a machine of its own tells apart behind
one prefix. Without a timeout it reports what its rounds have to report, and the counters, the end
and the last message are those of these rounds. -/
theorem campaign_exact (hw : Speaks w m) (ht : Timely w) (hconf : 8*conf.dataSize<2^64)
    (hsteady : Steady conf g m) {c : Campaign (Input conf) (List UInt8)} (hN : 0<c.numTestCases)
    (hc : ∀ i, (c.testCase i).length<2^64) (hprimes : ∀ i, (c.round i).noPriming = false)
    (hinputs : ∀ i n, (c.round i).boosted n ≠ [])
    (hlengths : ∀ i xs n, ((c.round i).traceTestCase xs n).length = xs.length) :
    ∃ o message, (start (x86Gem5 g (orchestration w)) c ⟨{},false,false,0⟩).1 = .ok (o,message) ∧
      (∀ i v, (i,v) ∈ o.reports → Violates (c.round i) (gem5Executor g m (c.testCase i)) v) ∧
      (¬Over g.clock →
        Exact c (fun i => Reports (c.round i) (gem5Executor g m (c.testCase i))) o message) := by
  have regular : ∀ i, Regular (c.round i) (gem5Executor g m (c.testCase i)) :=
    fun i => ⟨gem5Executor_causal hsteady _,hlengths i,fun _ => rfl,hprimes i⟩
  obtain ⟨o,message,s',hrun,sound,exact⟩ := start_functional regular hinputs hN IpcError.index g.clock {}
  refine ⟨o,message,?_,sound,exact⟩
  have pool := refines_start (refines_x86Gem5 (g := g) hw ht hsteady.uniform hconf) hc
  have machine := refines_start (refines_gem5Executor hsteady) (c := c) fun _ => trivial
  rw [(pool ⟨{},false,false,0⟩ ⟨{},false,false,0⟩ ⟨alike_new w _,rfl,rfl,rfl⟩).1,
    (machine ⟨{},false,false,0⟩ {} ⟨rfl,rfl,rfl⟩).1,hrun]

lemma teller_output (registerStart inputHash : ℕ) (input : List UInt8) :
    teller.output () (.traceTestCase registerStart inputHash input) =
      if input.head? = some 0 then [65] else [66] := rfl

lemma teller_ask (registerStart inputHash : ℕ) (input : List UInt8) (last : Option (List UInt8)) :
    ∃ letter text, decode [letter] = .ok text ∧
      (Direct.exchange teller).input registerStart inputHash input ⟨some (),last,[]⟩ =
        (.ok [letter],⟨some (),last,[resetLine]⟩) := by
  have asked : ∀ {letter}, teller.output () (.traceTestCase registerStart inputHash input) = [letter] →
      (Direct.exchange teller).input registerStart inputHash input ⟨some (),last,[]⟩ =
        (.ok [letter],⟨some (),last,[resetLine]⟩) := by
    intro letter h
    change Direct.ask teller (.traceTestCase registerStart inputHash input) ⟨some (),last,[]⟩ = _
    rw [Direct.ask]
    dsimp only
    rw [h]
    rfl
  by_cases zero : input.head? = some 0
  · exact ⟨65,['A'],rfl,asked (by rw [teller_output,if_pos zero])⟩
  · exact ⟨66,['B'],rfl,asked (by rw [teller_output,if_neg zero])⟩

/-- An input is traced by the teller as one letter, and what was printed is read. -/
lemma teller_trace (input : Input {}) (last : Option (List UInt8)) : ∃ text,
    executorTrace (direct teller) {} input ⟨some (),last,[]⟩ = (.ok text,⟨some (),last,[]⟩) := by
  obtain ⟨letter,text,htext,hasked⟩ := teller_ask ({} : Conf).registerStart (hashInput input)
    (inputBytes input) last
  have reset : onlyIf (!({} : TraceOptions).persistLog) ((direct teller).tell .resetLog)
      ⟨some (),last,[]⟩ = (.ok (),⟨some (),last,[]⟩) := rfl
  have decoded : lift (decode [letter]) (⟨some (),last,[resetLine]⟩ : Direct Unit) =
      (.ok text,⟨some (),last,[resetLine]⟩) := congrArg (·,_) htext
  have traced : ipcTraceTestCase (direct teller) {} input ⟨some (),last,[]⟩ =
      (.ok (text ++ [] ++ [] ++ [] ++ []),⟨some (),last,[resetLine]⟩) := by
    refine (bind_ok reset).trans ?_
    refine (bind_ok rfl).trans ((bind_ok rfl).trans ((bind_ok rfl).trans ((bind_ok rfl).trans ?_)))
    exact (bind_ok hasked).trans ((bind_ok decoded).trans rfl)
  have read : getGem5Output (direct teller) {} ⟨some (),last,[resetLine]⟩ =
      (.ok [],⟨some (),last,[]⟩) := rfl
  exact ⟨_,(bind_ok traced).trans ((bind_ok read).trans rfl)⟩

lemma teller_steady : Steady {} shortSettings teller where
  boot := rfl
  runs case inputs hne := by
    have step : ∀ (input : Input {}) d, d = ⟨some (),some case,[]⟩ → ∃ text d',
        executorTrace (direct teller) {} input d = (.ok text,d') ∧ d' = ⟨some (),some case,[]⟩ := by
      rintro input _ rfl
      obtain ⟨text,h⟩ := teller_trace input (some case)
      exact ⟨text,_,h,rfl⟩
    obtain ⟨texts,d,hrun,-⟩ := forEach_ok step inputs rfl
    refine ⟨texts,?_⟩
    have restarted : (direct teller).restart (shortSettings.cmd false) { lastCase := some case } =
        (.ok (),⟨some (),some case,[]⟩) := rfl
    have traced : forEach (executorTrace (direct teller) shortSettings.toTraceOptions) inputs
        ⟨some (),some case,[]⟩ = (.ok texts,d) := hrun
    rw [executorTraces,bind_ok restarted,bind_ok traced,if_neg (by simpa using hne)]
    rfl

/-- Both rounds report the two inputs. -/
theorem campaign_exact_short :
    ∃ o message, (start (x86Gem5 shortSettings (orchestration teller.pair)) shortCampaign
        ⟨{},false,false,0⟩).1 = .ok (o,message) ∧
      (o.reports.map Prod.fst = [0,1] ∧ message = .found) ∧
      (∀ i v, (i,v) ∈ o.reports → Violates (shortCampaign.round i)
        (gem5Executor shortSettings teller (shortCampaign.testCase i)) v) ∧
      (¬Over shortSettings.clock → Exact shortCampaign (fun i => Reports (shortCampaign.round i)
        (gem5Executor shortSettings teller (shortCampaign.testCase i))) o message) := by
  obtain ⟨o,message,hrun,hrest⟩ := campaign_exact (pair_speaks teller) (pair_timely teller)
    dataSize_fits teller_steady (c := shortCampaign) (by decide) shortCampaign_fits (fun _ => rfl)
    (fun _ _ => List.cons_ne_nil _ _) fun _ _ _ => List.length_map _
  refine ⟨o,message,hrun,?_,hrest⟩
  -- the two rounds are run on the machine that is called directly
  have found : (match (start (x86Gem5 shortSettings (direct teller)) shortCampaign
      ⟨{},false,false,0⟩).1 with
      | .ok (o,message) => decide (o.reports.map Prod.fst = [0,1] ∧ message = .found)
      | .error _ => false) = true := by decide +kernel
  have pool := refines_start (refines_x86Gem5 (g := shortSettings) (pair_speaks teller)
    (pair_timely teller) (teller_uniform _ _) dataSize_fits) shortCampaign_fits
  rw [← (pool ⟨{},false,false,0⟩ ⟨{},false,false,0⟩ ⟨alike_new _ _,rfl,rfl,rfl⟩).1,hrun] at found
  exact of_decide_eq_true found

end Pools

end ProteanAmulet.Gem5IPCOrchestration
