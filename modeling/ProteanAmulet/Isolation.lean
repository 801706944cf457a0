import ProteanAmulet.Lockstep

/-! Isolation of the inputs of a batch: what an earlier input leaves behind does not reach the
trace of a later one, as long as no store is left for the bypass. -/
namespace ProteanAmulet

/-- The registers of the loop in `_load_input` for which there is a value; `none` is EFLAGS. -/
def loadedRegisters (conf : Conf) : List (Option Gpr) :=
  inputRegisters.take (conf.dataSize-1-conf.registerStart)

/-- What `_load_input` initialises. -/
def initialised (su : Setup) : View where
  reg r := some r ∈ loadedRegisters su.conf ∨ r=.SP ∨ r=.BP ∨ r=.R14
  flag _ := none ∈ loadedRegisters su.conf
  rest := none ∈ loadedRegisters su.conf
  mem x :=
    (su.sandboxBase ≤ x ∧ x<su.sandboxBase+Setup.overflowRegionSize) ∨
    (su.upperOverflowBase ≤ x ∧ x<su.upperOverflowBase+Setup.overflowRegionSize) ∨
    (su.sandboxBase ≤ x ∧ x<su.sandboxBase+8*su.conf.alignedSize)

/-- The instruction reads initialised registers and flags only: where these agree, it makes
the same accesses, stores the same values and ends in agreeing states. The branches that the
model decodes are read the same way. -/
structure Insn.ReadsInitialised (su : Setup) (insn : Insn) : Prop where
  accesses : ∀ {c c'}, (initialised su).Cpus c c' → insn.accesses c = insn.accesses c'
  storeValue : ∀ {c c'} seen, (initialised su).Cpus c c' →
    insn.storeValue c seen = insn.storeValue c' seen
  faults : ∀ {c c'} seen, (initialised su).Cpus c c' → insn.faults c seen = insn.faults c' seen
  finish : ∀ {c c'} seen, (initialised su).Cpus c c' →
    (initialised su).Cpus (insn.finish c seen) (insn.finish c' seen)
  branch : ∀ {c c' : Cpu} {d}, (initialised su).Cpus c c' →
    X86UnicornCond.decode insn.bytes c.eflags (c.reg .C) = some d → d.1 ≠ 0 →
      X86UnicornCond.decode insn.bytes c'.eflags (c'.reg .C) = some d ∧
        (d.2.2 = true → (initialised su).reg .C)

/-- Two states that agree on what is initialised. -/
def SameInitialised (su : Setup) (s u : State) : Prop :=
  ∃ n, Pair (initialised su) (List.replicate n (initialised su)) s u

section Steps
variable {su : Setup}

lemma initialised_replicate {n m : ℕ} {s u : State}
    (h : Pair (initialised su) (List.replicate n (initialised su) ++
      List.replicate m (initialised su)) s u) : SameInitialised su s u := by
  rw [List.replicate_append_replicate] at h
  exact ⟨_,h⟩

/-- No exposure of a tracer that shows addresses only depends on data. -/
lemma shown_ct (hct : su.tracer=.ct) {s u : State} :
    (∀ tr address insn, ∀ e ∈ su.tracer.instructionExposes tr address insn, Shown s u e) ∧
    ∀ b insn a, ∀ e ∈ su.tracer.accessExposes b insn a, Shown s u e := by
  rw [hct]
  constructor
  · intro tr address insn e he
    simp only [Tracer.instructionExposes,List.mem_singleton] at he
    subst he
    trivial
  · intro b insn a e he
    simp only [Tracer.accessExposes,List.mem_singleton] at he
    subst he
    trivial

theorem runAccesses_isolated (hct : su.tracer=.ct) {insn : Insn}
    (hi : insn.ReadsInitialised su) {c c' : Cpu} (hc : (initialised su).Cpus c c')
    {as : List Access}
    (hloads : ∀ a ∈ as, a.isWrite=false →
      ∀ x, a.address ≤ x → x<a.address+a.size → (initialised su).mem x)
    {seen seen' : List (List Byte)} {s s' u : State} (h : SameInitialised su s u)
    (hrec : Ready su s u) (hs : runAccesses su insn c as seen s = some (seen',s')) :
    ∃ u', runAccesses su insn c' as seen u = some (seen',u') ∧ SameInitialised su s' u' := by
  have hk : su.tracer ≠ .prot := by simp [hct]
  induction as generalizing seen s u with
  | nil =>
    cases hs
    exact ⟨u,rfl,h⟩
  | cons a as ih =>
    have has := fun b hb => hloads b (List.mem_cons_of_mem _ hb)
    obtain ⟨n,hp⟩ := h
    have hes : ∀ e ∈ su.tracer.accessExposes s.inSpeculation insn a, Shown s u e :=
      fun e he => (shown_ct hct).2 _ _ _ e he
    unfold runAccesses at hs ⊢
    cases hw : a.isWrite with
    | true =>
      rw [hw,if_pos rfl] at hs
      obtain ⟨s₁,h₁,hs⟩ := Option.bind_eq_some_iff.mp hs
      have hval := hi.storeValue seen hc
      obtain ⟨_,u₁,-,hu₁,-,-,-,hrec',hp'⟩ := Pair.store hk hp (View.le_refl _) hrec hw hes
        (fun _ _ _ _ => hval) (fun _ => by rw [hval]; exact id) h₁
      obtain ⟨u',hu',hR⟩ := ih has ⟨n,hp'⟩ ⟨hrec'.recordable,hrec'.address⟩ hs
      refine ⟨u',?_,hR⟩
      simp only [if_true,Option.bind_eq_bind]
      rw [hu₁,Option.bind_some]
      exact hu'
    | false =>
      rw [hw,if_neg (by simp)] at hs
      obtain ⟨s₁,h₁,hs⟩ := Option.bind_eq_some_iff.mp hs
      obtain ⟨_,u₁,m,-,hu₁,hf,hrec',-,-,-,-⟩ := Pair.load hk hp (View.le_refl _) hrec hw hes h₁
      have hread : Memory.read s₁.mem a.address a.size = Memory.read u₁.mem a.address a.size :=
        hf.pair.mems.read (hloads a List.mem_cons_self hw)
      rw [hread] at hs
      obtain ⟨u',hu',hR⟩ := ih has (initialised_replicate hf.pair) hrec' hs
      refine ⟨u',?_,hR⟩
      simp only [Bool.false_eq_true,if_false,Option.bind_eq_bind]
      rw [hu₁,Option.bind_some]
      exact hu'

/-- The loads of the instruction executed next find initialised memory. -/
def LoadsInitialised (su : Setup) (s : State) : Prop :=
  ∀ insn s', Executes su s insn s' → ∀ a ∈ insn.accesses s'.cpu, a.isWrite=false →
    ∀ x, a.address ≤ x → x<a.address+a.size → (initialised su).mem x

/-- The program reads initialised registers and flags only. -/
def ReadsInitialised (su : Setup) : Prop :=
  ∀ address insn, su.testCase.fetch address = some insn → insn.ReadsInitialised su

theorem emuStep_isolated (hct : su.tracer=.ct) (hsu : ReadsInitialised su) {s u : State}
    {o : Outcome} (h : SameInitialised su s u) (hloads : LoadsInitialised su u)
    (ho : emuStep su s = some o) :
    ∃ o', emuStep su u = some o' ∧ o.Rel (SameInitialised su) o' := by
  have hk : su.tracer ≠ .prot := by simp [hct]
  obtain ⟨n,hp⟩ := h
  have hrip := hp.cpus.rip
  refine emuStep_rel ⟨n,hp⟩ hrip ?_ ho
  intro insn s' _ hf hs'
  have hi := hsu _ _ hf
  obtain ⟨i,s₁,u',m,-,-,hu',hp',hrec,-,-⟩ := Pair.instructionHook hk hp (View.le_refl _)
    (fun tr _ e he => (shown_ct hct).1 _ _ _ e he)
    (fun _ _ d hd hz => hi.branch hp.cpus hd hz) hs'
  rw [hrip] at hu'
  have hR := initialised_replicate hp'
  refine ⟨u',hu',hp'.stopRequested,hp'.cpus.rip,fun _ => initialised_replicate hp'.resumed,
    fun _ _ => hR,?_⟩
  intro _ hex seen s'' hacc
  rw [hi.accesses hp'.cpus] at hacc
  obtain ⟨u'',hu'',k,hR''⟩ :=
    runAccesses_isolated hct hi hp'.cpus (hloads insn u' hex) hR hrec hacc
  exact ⟨seen,u'',hu'',hi.faults seen hp'.cpus,⟨k,hR''⟩,
    ⟨k,hR''.setCpu (View.le_refl _) (hi.finish seen hp'.cpus)⟩⟩

/-- The configurations of a batch and of a run of its own correspond. -/
structure Isolated (su : Setup) (d₀ c d : Config) : Prop where
  phase : c.phase = d.phase
  same : SameInitialised su c.state d.state
  left : Invariant su c
  right : Invariant su d
  visits : Visits su d₀ d

theorem tick_isolated (hct : su.tracer=.ct) (hsu : ReadsInitialised su) {d₀ c d c' : Config}
    (hloads : ∀ d, Visits su d₀ d → LoadsInitialised su d.state) (h : Isolated su d₀ c d)
    (hc : tick su c = some c') : ∃ d', tick su d = some d' ∧ Isolated su d₀ c' d' := by
  have hleft := tick_invariant h.left hc
  suffices hs : ∃ d', tick su d = some d' ∧ c'.phase = d'.phase ∧
      SameInitialised su c'.state d'.state by
    obtain ⟨d',hd,hphase,hsame⟩ := hs
    exact ⟨d',hd,hphase,hsame,hleft,tick_invariant h.right hd,h.visits.tick hd⟩
  have hphase := h.phase
  have hsame := h.same
  have hinv := h.left
  have hinv' := h.right
  have hl := hloads d h.visits
  obtain ⟨phase,s⟩ := c
  obtain ⟨phase',u⟩ := d
  obtain rfl : phase=phase' := hphase
  cases phase with
  | emulating first =>
    obtain ⟨o,ho,rfl⟩ := Option.map_eq_some_iff.mp hc
    obtain ⟨o',ho',hrel⟩ := emuStep_isolated hct hsu hsame hl ho
    obtain ⟨hp,hR⟩ := hrel.next (fun ⟨_,hR⟩ => hR.inSpeculation) first
    exact ⟨_,by unfold tick; rw [ho']; rfl,hp,hR⟩
  | draining =>
    obtain ⟨n,hp⟩ := hsame
    have hspec := hp.inSpeculation
    unfold tick at hc ⊢
    dsimp only at hc hspec ⊢
    rw [← hspec]
    split at hc
    · rename_i hs
      obtain ⟨s',hs',rfl⟩ := Option.map_eq_some_iff.mp hc
      obtain ⟨w,ws,u',hvs,hu',hp',-⟩ :=
        hp.rollback hinv.1.recoverable hinv'.1.recoverable hs'
      rw [if_pos hs,hu']
      obtain ⟨-,hall⟩ := List.eq_replicate_iff.mp hvs.symm
      obtain rfl : w = initialised su := hall w List.mem_cons_self
      have hws : ws = List.replicate ws.length (initialised su) :=
        List.eq_replicate_of_mem fun b hb => hall b (List.mem_cons_of_mem _ hb)
      rw [hws] at hp'
      exact ⟨_,rfl,rfl,ws.length,hp'⟩
    · rename_i hs
      cases hc
      rw [if_neg hs]
      exact ⟨_,rfl,rfl,n,hp⟩
  | finished =>
    cases hc
    exact ⟨_,rfl,rfl,hsame⟩
  | exited =>
    cases hc
    exact ⟨_,rfl,rfl,hsame⟩

lemma loadMemory_agree (input : Input su.conf) (m m' : Mem) :
    (initialised su).Mems (loadMemory su input m) (loadMemory su input m') := by
  intro x hx
  unfold loadMemory Memory.fill
  split_ifs with h₁ h₂ h₃
  · rfl
  · rfl
  · rfl
  · rcases hx with hx | hx | hx
    · exact absurd hx h₃
    · exact absurd hx h₂
    · exact absurd hx h₁

/-- The start of an input, in a batch and on a fresh model. -/
theorem started_pair (hct : su.tracer=.ct) (input : Input su.conf) {s u : State} {c : Cpu}
    (hc : loadRegisters inputRegisters input.getRegisters s.cpu = some c)
    (hn : s.nesting = u.nesting) (hstop : s.stopRequested = u.stopRequested)
    (hp : 0<s.nesting → s.previousStore.address=0) (hp' : u.previousStore.address=0)
    (hu : u.taintingEnabled=false) :
    ∃ c', loadRegisters inputRegisters input.getRegisters u.cpu = some c' ∧
      Pair (initialised su) [] (started su input s c) (started su input u c') := by
  obtain ⟨c',hc',hreg,hflags,-⟩ := loadRegisters_pair u.cpu rfl hc
  rw [getRegisters_length] at hreg hflags
  have hpin : ∀ r, (initialised su).reg r → (c.pinned su).reg r = (c'.pinned su).reg r := by
    intro r hr
    refine Cpu.pinned_reg su fun h₁ h₂ h₃ => hreg r (fun _ _ => rfl) (Or.inl ?_)
    rcases hr with hr | hr | hr | hr
    · exact hr
    · exact absurd hr h₁
    · exact absurd hr h₂
    · exact absurd hr h₃
  have hfl : none ∈ loadedRegisters su.conf → c.eflags = c'.eflags :=
    fun h => hflags (fun _ _ => rfl) (Or.inl h)
  refine ⟨c',hc',⟨?_,?_,?_⟩⟩
  · exact
      { cpus := ⟨rfl,hpin,fun f hf => congrArg (·.getLsbD f.bit) (hfl hf),
          fun hr k _ => congrArg (·.getLsbD k) (hfl hr)⟩
        mems := loadMemory_agree input s.mem u.mem
        nesting := hn
        inSpeculation := rfl
        speculationWindow := rfl
        latestRollbackAddress := rfl
        stopRequested := hstop
        stack := True.intro
        pendingStore := fun hlt => SameStore.none _ (hp hlt) hp' }
  · constructor
    · simp [started,Tracer.resetTrace,Tracer.initialTrace,hct]
    · rfl
  · simp [started,hu]

theorem runAccesses_kept {insn : Insn} {c : Cpu} {as : List Access}
    {seen seen' : List (List Byte)} {s s' : State}
    (h : runAccesses su insn c as seen s = some (seen',s')) :
    s'.stopRequested = s.stopRequested ∧ s'.nesting = s.nesting := by
  induction as generalizing seen s with
  | nil =>
    cases h
    exact ⟨rfl,rfl⟩
  | cons a as ih =>
    unfold runAccesses at h
    cases hw : a.isWrite with
    | true =>
      rw [hw,if_pos rfl] at h
      obtain ⟨s₁,h₁,h⟩ := Option.bind_eq_some_iff.mp h
      obtain ⟨_,_,_,rfl,-⟩ := traceMemAccess_store hw h₁
      obtain ⟨logs,hl⟩ := logged_eq su s a
      have h' := ih h
      rw [hl] at h'
      exact h'
    | false =>
      rw [hw,if_neg (by simp)] at h
      obtain ⟨s₁,h₁,h⟩ := Option.bind_eq_some_iff.mp h
      have h' := ih h
      obtain ⟨s₂,ht,hs₁⟩ := traceMemAccess_load hw h₁
      obtain ⟨_,_,rfl⟩ := ht
      rcases hs₁ with rfl | ⟨-,-,rfl⟩ <;> exact h'

lemma cond_nesting {s s' : State} {address : ℕ} {insn : Insn}
    (h : X86UnicornCond.speculateInstruction s address insn = some s') :
    s'.nesting = s.nesting := by
  rw [X86UnicornCond.speculateInstruction_eq] at h
  split at h
  · cases h
    rfl
  · obtain ⟨⟨_,_,isLoop⟩,-,rfl⟩ := Option.map_eq_some_iff.mp h
    cases isLoop <;> split <;> rfl

lemma bpas_nesting {s s' : State} {address : ℕ}
    (h : X86UnicornBpas.speculateInstruction s address = some s') : s'.nesting = s.nesting := by
  rw [X86UnicornBpas.speculateInstruction_eq] at h
  split at h
  · cases h
    rfl
  · split at h
    · cases h
      rfl
    · obtain ⟨_,-,rfl⟩ := Option.map_eq_some_iff.mp h
      rfl

theorem instructionHook_nesting {s s' : State} {address : ℕ} {insn : Insn}
    (h : instructionHook su s address insn = some s') : s'.nesting = s.nesting := by
  rw [instructionHook_eq] at h
  obtain ⟨i,-,h⟩ := Option.bind_eq_some_iff.mp h
  obtain ⟨s₁,h₁,h⟩ := Option.bind_eq_some_iff.mp h
  have hn : s₁.nesting = s.nesting := by
    obtain ⟨_,_,rfl⟩ := seqTraceInstruction_traced h₁
    obtain ⟨_,_,hc⟩ := counted_eq su s i
    rw [hc]
  rw [← hn]
  unfold speculateInstruction at h
  cases hcl : su.clause <;> rw [hcl] at h
  case seq | null =>
    cases h
    rfl
  case cond => exact cond_nesting h
  case bpas => exact bpas_nesting h
  case condBpas =>
    obtain ⟨s₂,h₂,h⟩ := Option.bind_eq_some_iff.mp h
    exact (bpas_nesting h).trans (cond_nesting h₂)

/-- Between two steps no stop is pending, and the nesting stays. -/
def Kept (n : ℕ) (s : State) : Prop := s.stopRequested=false ∧ s.nesting = n

theorem emuStep_kept {n : ℕ} {s : State} {o : Outcome} (h : Kept n s)
    (ho : emuStep su s = some o) : Kept n o.state := by
  unfold emuStep at ho
  split at ho
  · cases ho
    exact h
  · split at ho
    · cases ho
      exact h
    · obtain ⟨s₁,h₁,ho⟩ := Option.bind_eq_some_iff.mp ho
      have hn : s₁.nesting = n := (instructionHook_nesting h₁).trans h.2
      unfold execute at ho
      split at ho
      · cases ho
        exact ⟨rfl,hn⟩
      · rename_i hgo
        have hgo' : s₁.stopRequested=false := by simpa using hgo
        split at ho
        · cases ho
          exact ⟨hgo',hn⟩
        · obtain ⟨⟨seen,s₂⟩,h₂,ho⟩ := Option.bind_eq_some_iff.mp ho
          obtain ⟨hs,hn'⟩ := runAccesses_kept h₂
          have hk : Kept n s₂ := ⟨hs.trans hgo',hn'.trans hn⟩
          dsimp only at ho
          split at ho <;> cases ho <;> exact hk

theorem tick_kept {n : ℕ} {c c' : Config} (h : Kept n c.state) (hc : tick su c = some c') :
    Kept n c'.state := by
  obtain ⟨phase,s⟩ := c
  cases phase with
  | emulating first =>
    obtain ⟨o,ho,rfl⟩ := Option.map_eq_some_iff.mp hc
    have hk := emuStep_kept h ho
    cases o <;> exact hk
  | draining =>
    unfold tick at hc
    dsimp only at hc
    split at hc
    · obtain ⟨s',hs',rfl⟩ := Option.map_eq_some_iff.mp hc
      obtain ⟨s₁,h₁,rfl⟩ := Option.map_eq_some_iff.mp hs'
      obtain ⟨_,_,_,_,_,-,-,rfl,-⟩ := restore_cases h₁
      exact h
    · cases hc
      exact h
  | finished =>
    cases hc
    exact h
  | exited =>
    cases hc
    exact h

theorem session_stopRequested {Start : Setup → State → Prop} {c : Config}
    (h : Session Start su c) : c.state.stopRequested=false := by
  induction h with
  | fresh su => rfl
  | load tc _ ih => exact ih
  | begin nesting tainting tracing input _ _ hb ih =>
    rw [begin_eq] at hb
    obtain ⟨c₀,-,rfl⟩ := Option.map_eq_some_iff.mp hb
    exact ih
  | tick _ ht ih => exact (tick_kept ⟨ih,rfl⟩ ht).1

/-- The model between two inputs. -/
structure Idle (su : Setup) (n : ℕ) (s : State) : Prop where
  kept : Kept n s
  logs : s.storeLogs=[]
  never : su.clause.bypasses=false → s.previousStore.address=0

/-- One input on an idle model without a pending store: the trace is that of a fresh model. -/
theorem executeInput_isolated (hct : su.tracer=.ct) (hcov : Covered su)
    (hsu : ReadsInitialised su) {n fuel : ℕ} {s s' : State} {input : Input su.conf}
    (hidle : Idle su n s) (hp : n ≠ 0 → s.previousStore.address=0)
    (hloads : ∀ c, begin su input (tracedModel n) = some c →
      ∀ d, Visits su c d → LoadsInitialised su d.state)
    (h : executeInput su fuel s input = some s') :
    Idle su n s' ∧ ∃ u', executeInput su fuel (tracedModel n) input = some u' ∧
      s'.tracer.trace = u'.tracer.trace := by
  obtain ⟨c,hc,h⟩ := Option.bind_eq_some_iff.mp h
  rw [begin_eq] at hc
  obtain ⟨cpu,hcpu,rfl⟩ := Option.map_eq_some_iff.mp hc
  obtain ⟨cpu',hcpu',hpair⟩ := started_pair hct input hcpu (u := tracedModel n)
    hidle.kept.2 hidle.kept.1 (fun hlt => hp (by rw [← hidle.kept.2]; omega)) rfl rfl
  have hd : begin su input (tracedModel n) =
      some ⟨.emulating true,started su input (tracedModel n) cpu'⟩ := by
    rw [begin_eq,hcpu']
    rfl
  have hrec : Recorded su (started su input s cpu) :=
    started_recorded hidle.logs (fun hn => hp (by rwa [← hidle.kept.2])) hidle.never
  have hrec' : Recorded su (started su input (tracedModel n) cpu') :=
    started_recorded rfl (fun _ => rfl) fun _ => rfl
  have hstart : Isolated su ⟨.emulating true,started su input (tracedModel n) cpu'⟩
      ⟨.emulating true,started su input s cpu⟩
      ⟨.emulating true,started su input (tracedModel n) cpu'⟩ :=
    ⟨rfl,⟨0,hpair⟩,⟨hrec,hcov⟩,⟨hrec',hcov⟩,Visits.refl _⟩
  have hkept : Kept n (started su input s cpu) := hidle.kept
  obtain ⟨u',hu',hfin⟩ := run_rel
    (R := fun c d => Isolated su
      ⟨.emulating true,started su input (tracedModel n) cpu'⟩ c d ∧ Kept n c.state)
    (fun h => h.1.phase)
    (fun h hc => by
      obtain ⟨d',hd',h'⟩ := tick_isolated hct hsu (hloads _ hd) h.1 hc
      exact ⟨d',hd',h',tick_kept h.2 hc⟩)
    ⟨hstart,hkept⟩ h
  obtain ⟨hiso,hkept⟩ := hfin
  obtain ⟨-,hlogs,hnever⟩ := hiso.left
  obtain ⟨_,hsame⟩ := hiso.same
  refine ⟨⟨hkept,hlogs,hnever⟩,u',?_,hsame.same.trace⟩
  unfold executeInput
  rw [hd]
  exact hu'

/-- No input of the batch starts with a store that can be bypassed. -/
def CleanStarts (su : Setup) (fuel : ℕ) (s : State) (inputs : List (Input su.conf)) : Prop :=
  su.clause.bypasses → s.nesting ≠ 0 → ∀ k < inputs.length, ∀ ss last,
    executeInputs su fuel s (inputs.take k) = some (ss,last) → last.previousStore.address=0

theorem executeInputs_isolated (hct : su.tracer=.ct) (hcov : Covered su)
    (hsu : ReadsInitialised su) {n fuel : ℕ} {s last : State} {inputs : List (Input su.conf)}
    {ss : List State} (hidle : Idle su n s) (hclean : CleanStarts su fuel s inputs)
    (hloads : ∀ input ∈ inputs, ∀ c, begin su input (tracedModel n) = some c →
      ∀ d, Visits su c d → LoadsInitialised su d.state)
    (h : executeInputs su fuel s inputs = some (ss,last)) :
    List.Forall₂ (fun input s' => ∃ u',
      executeInput su fuel (tracedModel n) input = some u' ∧
        s'.tracer.trace = u'.tracer.trace) inputs ss := by
  induction inputs generalizing s ss with
  | nil =>
    cases h
    exact List.Forall₂.nil
  | cons input inputs ih =>
    obtain ⟨s',hs',h⟩ := Option.bind_eq_some_iff.mp h
    obtain ⟨⟨ss',last'⟩,hss,h⟩ := Option.bind_eq_some_iff.mp h
    cases h
    have hp : n ≠ 0 → s.previousStore.address=0 := by
      intro hn
      cases hb : su.clause.bypasses with
      | false => exact hidle.never hb
      | true => exact hclean hb (by rwa [hidle.kept.2]) 0 (by simp) [] s rfl
    obtain ⟨hidle',hu'⟩ := executeInput_isolated hct hcov hsu hidle hp
      (hloads input List.mem_cons_self) hs'
    refine List.Forall₂.cons hu' (ih hidle' ?_ (fun i hi => hloads i (List.mem_cons_of_mem _ hi)) hss)
    intro hb hn k hk ss'' last'' hl
    refine hclean hb (by rwa [hidle.kept.2,← hidle'.kept.2]) (k+1) (by simpa using hk)
      (s' :: ss'') last'' ?_
    simp only [List.take_succ_cons,executeInputs,hs',Option.bind_eq_bind,Option.bind_some,hl]
    rfl

/-- Isolation of the inputs: on a model that has run other inputs before, every element of
`trace_test_case(inputs, nesting)` is the trace of its input on a freshly loaded model, unless
an input starts while a store of the input before waits to be bypassed. -/
theorem traceTestCase_isolated (hct : su.tracer=.ct) (hcov : Covered su)
    (hsu : ReadsInitialised su) {s s' : State} (hs : Session Starts su ⟨.finished,s⟩)
    {fuel nesting : ℕ} {inputs : List (Input su.conf)} {traces : List (List Obs)}
    (hloads : ∀ input ∈ inputs, ∀ c, begin su input (tracedModel nesting) = some c →
      ∀ d, Visits su c d → LoadsInitialised su d.state)
    (hclean : CleanStarts su fuel
      { s with executionTracingEnabled := true, nesting := nesting } inputs)
    (h : traceTestCase su fuel s inputs nesting = some (traces,s')) :
    traces.length = inputs.length ∧ ∀ k (hk : k < inputs.length), ∃ trace s'',
      traceTestCase su fuel State.fresh [inputs[k]] nesting = some ([trace],s'') ∧
        traces[k]? = some trace := by
  obtain ⟨⟨ss,last⟩,hss,h⟩ := Option.bind_eq_some_iff.mp h
  cases h
  obtain ⟨-,hlogs,hnever⟩ := session_invariant hs
  have hidle : Idle su nesting
      { s with executionTracingEnabled := true, nesting := nesting } :=
    ⟨⟨session_stopRequested hs,rfl⟩,hlogs,hnever⟩
  have hall := executeInputs_isolated hct hcov hsu hidle hclean hloads hss
  have hlen := hall.length_eq
  refine ⟨by simp [hlen],fun k hk => ?_⟩
  obtain ⟨u',hu',htrace⟩ := hall.get hk (by omega)
  have hu'' : executeInput su fuel (tracedModel nesting) inputs[k] = some u' := hu'
  refine ⟨u'.tracer.trace,_,traceTestCase_single hu'',?_⟩
  have hk' : k<ss.length := by omega
  have ht : ss[k].tracer.trace = u'.tracer.trace := htrace
  simp [hk',ht]

end Steps

section Witnesses
open Asm

lemma loadedRegisters_default : loadedRegisters {} = inputRegisters := rfl

/-- A line that is no branch has no branch to agree on. -/
lemma branch_of_decode {su : Setup} {insn : Insn}
    (h : ∀ f r, X86UnicornCond.decode insn.bytes f r = some (0,false,false)) {c c' : Cpu}
    {d : ℕ × Bool × Bool}
    (hd : X86UnicornCond.decode insn.bytes c.eflags (c.reg .C) = some d) (hz : d.1 ≠ 0) :
    X86UnicornCond.decode insn.bytes c'.eflags (c'.reg .C) = some d ∧
      (d.2.2 = true → (initialised su).reg .C) := by
  rw [h] at hd
  cases hd
  exact absurd rfl hz

lemma nop_readsInitialised (su : Setup) : nop.insn.ReadsInitialised su where
  accesses _ := rfl
  storeValue _ _ := rfl
  faults _ _ := rfl
  finish _ h := ⟨by simp [nop,Cpu.next,h.rip],h.reg,h.flag,h.rest⟩
  branch _ := branch_of_decode fun _ _ => rfl

lemma store_readsInitialised {clause : Clause} {tracer : Tracer} {code : List Line} :
    (store .R14 0 .A).insn.ReadsInitialised (setup clause tracer code) where
  accesses h := by simp [store,h.reg .R14 (by simp [initialised])]
  storeValue _ h := by
    simp only [store,h.reg .A (Or.inl (by
      rw [show (setup clause tracer code).conf = {} from rfl,loadedRegisters_default]
      simp [inputRegisters]))]
  faults _ _ := rfl
  finish _ h := ⟨by simp [store,Cpu.next,h.rip],h.reg,h.flag,h.rest⟩
  branch _ := branch_of_decode fun _ _ => rfl

lemma storing_readsInitialised {clause : Clause} {tracer : Tracer} {code : List Line}
    (h : ∀ l ∈ code, l = nop ∨ l = store .R14 0 .A) :
    ReadsInitialised (setup clause tracer code) := by
  intro address insn hf
  obtain ⟨l,hl,rfl⟩ := fetch_mem hf
  rcases h l hl with rfl | rfl
  · exact nop_readsInitialised _
  · exact store_readsInitialised

lemma storing_loadsInitialised {clause : Clause} {tracer : Tracer} {code : List Line}
    (h : ∀ l ∈ code, l = nop ∨ l = store .R14 0 .A) (s : State) :
    LoadsInitialised (setup clause tracer code) s := by
  intro insn s' hex a ha hw
  obtain ⟨l,hl,rfl⟩ := fetch_mem hex.fetch
  rcases h l hl with rfl | rfl
  · cases ha
  · obtain rfl := List.mem_singleton.mp ha
    cases hw

/-- Two inputs whose runs bypass a store each. -/
theorem traceTestCase_isolated_storeNop :
    ∃ traces s', traceTestCase storeNop 20 State.fresh [input [(1024,5)],input [(1024,6)]] 1 =
        some (traces,s') ∧
      ∃ trace s'', traceTestCase storeNop 20 State.fresh [input [(1024,6)]] 1 =
          some ([trace],s'') ∧ traces[1]? = some trace := by
  have hcode : ∀ l ∈ [store .R14 0 .A,nop], l = nop ∨ l = store .R14 0 .A := by simp
  have hclean : CleanStarts storeNop 20 (tracedModel 1)
      [input [(1024,5)],input [(1024,6)]] := by
    intro _ _ k hk ss last hl
    have hk₂ : k<2 := hk
    have hk' : k=0 ∨ k=1 := by omega
    rcases hk' with rfl | rfl
    · cases hl
      rfl
    · have h : (executeInputs storeNop 20 (tracedModel 1) [input [(1024,5)]]).map
          (·.2.previousStore.address) = some 0 := by decide +kernel
      rw [show executeInputs storeNop 20 (tracedModel 1) [input [(1024,5)]] = some (ss,last)
        from hl] at h
      exact Option.some.inj h
  have hcov : Covered storeNop := covered_of_lines (by simp [store,nop])
  have h := traceTestCase_isolated rfl hcov (storing_readsInitialised hcode)
    (Session.fresh storeNop)
    (fun _ _ _ _ d _ => storing_loadsInitialised hcode d.state) hclean rfl
  exact ⟨_,_,rfl,h.2 1 (by decide)⟩

/-- The test case that ends with a store: the store of the first input is bypassed at the
start of the second one, whose trace gets longer by that. -/
theorem traceTestCase_not_isolated :
    ∃ (su : Setup) (i j : Input su.conf), su.tracer=.ct ∧ Covered su ∧ ReadsInitialised su ∧
      (∀ s, LoadsInitialised su s) ∧
      ∃ t t' trace s s', traceTestCase su 20 State.fresh [i,j] 1 = some ([t,t'],s) ∧
        traceTestCase su 20 State.fresh [j] 1 = some ([trace],s') ∧ t' ≠ trace := by
  have hcode : ∀ l ∈ [store .R14 0 .A], l = nop ∨ l = store .R14 0 .A := by simp
  refine ⟨storeOnly,input [(1024,5)],input [(1024,6)],rfl,covered_of_lines (by simp [store]),
    storing_readsInitialised hcode,storing_loadsInitialised hcode,_,_,_,_,_,rfl,rfl,?_⟩
  decide +kernel

end Witnesses

end ProteanAmulet
