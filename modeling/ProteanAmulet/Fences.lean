import ProteanAmulet.Speculation

/-! The end of speculation. At a fence and at the end of the window the hook asks the emulator
to stop, but goes on to speculate; a checkpoint that it opens there outlives the stop. -/
namespace ProteanAmulet

def Instruction.isFence (i : Instruction) : Bool := decide (i.name ∈ ["LFENCE","MFENCE"])

section Steps
variable (su : Setup)

/-- Speculation is to end at the instruction. -/
def Expires (s : State) (i : Instruction) : Prop :=
  i.isFence ∨ su.conf.modelMaxSpecWindow<s.speculationWindow+1

/-- The clause sends the instruction the wrong way. -/
def Mispredicts (s : State) (insn : Insn) : Prop :=
  (su.clause=.cond ∨ su.clause=.condBpas) ∧
    ∃ d, X86UnicornCond.decode insn.bytes s.cpu.eflags (s.cpu.reg .C) = some d ∧ d.1 ≠ 0

/-- The clause bypasses a store that waits for this hook. -/
def Bypasses (s : State) : Prop := su.clause.bypasses ∧ s.previousStore.address ≠ 0

/-- Where speculation is to end, the hook finds nothing to speculate on: no room for a
checkpoint, or neither a jump to mispredict nor a store to bypass. A fence does not load
under null injection. -/
structure Orderly (s : State) : Prop where
  quiet : ∀ insn i, Current su s insn i → i.isFence ∨ s.inSpeculation ∧ Expires su s i →
    s.checkpoints.length<s.nesting → ¬Mispredicts su s insn ∧ ¬Bypasses su s
  fence : su.clause=.null → ∀ insn i, Current su s insn i → i.isFence →
    ∀ a ∈ insn.accesses s.cpu, a.isWrite

variable {su}

lemma cond_still {s s' : State} {address : ℕ} {insn : Insn}
    (hq : s.checkpoints.length<s.nesting →
      ¬∃ d, X86UnicornCond.decode insn.bytes s.cpu.eflags (s.cpu.reg .C) = some d ∧ d.1 ≠ 0)
    (h : X86UnicornCond.speculateInstruction s address insn = some s') : s'=s := by
  rw [X86UnicornCond.speculateInstruction_eq] at h
  split at h
  · exact (Option.some.inj h).symm
  · obtain ⟨d,hd,rfl⟩ := Option.map_eq_some_iff.mp h
    by_cases hz : d.1=0
    · rw [if_pos hz]
    · exact absurd ⟨d,hd,hz⟩ (hq (by omega))

lemma bpas_still {s s' : State} {address : ℕ}
    (hq : s.checkpoints.length<s.nesting → s.previousStore.address=0)
    (h : X86UnicornBpas.speculateInstruction s address = some s') :
    ∃ p, s' = { s with previousStore := p } := by
  rw [X86UnicornBpas.speculateInstruction_eq] at h
  split at h
  · cases h
    exact ⟨_,rfl⟩
  · rw [if_pos (hq (by omega))] at h
    cases h
    exact ⟨_,rfl⟩

/-- Without anything to speculate on the hook only forgets a store or notes the address. -/
lemma speculateInstruction_still {s s' : State} {address : ℕ} {insn : Insn}
    (hq : s.checkpoints.length<s.nesting → ¬Mispredicts su s insn ∧ ¬Bypasses su s)
    (h : speculateInstruction su s address insn = some s') :
    ∃ p a, s' = { s with previousStore := p, instructionAddress := a } := by
  have pending : su.clause.bypasses → s.checkpoints.length<s.nesting →
      s.previousStore.address=0 := by
    intro hby hlt
    by_contra hne
    exact (hq hlt).2 ⟨hby,hne⟩
  unfold speculateInstruction at h
  cases hcl : su.clause <;> rw [hcl] at h pending
  case seq =>
    cases h
    exact ⟨_,_,rfl⟩
  case null =>
    cases h
    exact ⟨_,_,rfl⟩
  case cond =>
    obtain rfl := cond_still (fun hlt hd => (hq hlt).1 ⟨Or.inl hcl,hd⟩) h
    exact ⟨_,_,rfl⟩
  case bpas =>
    obtain ⟨p,rfl⟩ := bpas_still (pending rfl) h
    exact ⟨_,_,rfl⟩
  case condBpas =>
    obtain ⟨s₁,h₁,h₂⟩ := Option.bind_eq_some_iff.mp h
    obtain rfl := cond_still (fun hlt hd => (hq hlt).1 ⟨Or.inr hcl,hd⟩) h₁
    obtain ⟨p,rfl⟩ := bpas_still (pending rfl) h₂
    exact ⟨_,_,rfl⟩

lemma speculateInstruction_stop {s s' : State} {address : ℕ} {insn : Insn}
    (h : speculateInstruction su s address insn = some s') :
    s'.stopRequested = s.stopRequested := by
  have cond : ∀ {s s' : State}, X86UnicornCond.speculateInstruction s address insn = some s' →
      s'.stopRequested = s.stopRequested := by
    intro s s' h
    rw [X86UnicornCond.speculateInstruction_eq] at h
    split at h
    · cases h
      rfl
    · obtain ⟨⟨_,_,isLoop⟩,-,rfl⟩ := Option.map_eq_some_iff.mp h
      cases isLoop <;> split <;> rfl
  have bpas : ∀ {s s' : State}, X86UnicornBpas.speculateInstruction s address = some s' →
      s'.stopRequested = s.stopRequested := by
    intro s s' h
    rw [X86UnicornBpas.speculateInstruction_eq] at h
    split at h
    · cases h
      rfl
    · split at h
      · cases h
        rfl
      · obtain ⟨_,-,rfl⟩ := Option.map_eq_some_iff.mp h
        rfl
  unfold speculateInstruction at h
  cases hcl : su.clause <;> rw [hcl] at h
  case seq | null =>
    cases h
    rfl
  case cond => exact cond h
  case bpas => exact bpas h
  case condBpas =>
    obtain ⟨s₁,h₁,h⟩ := Option.bind_eq_some_iff.mp h
    exact (bpas h).trans (cond h₁)

/-- The hook of a speculative clause in speculation: the window grows by one, and the
emulation is stopped where it is to end. -/
lemma counted_inSpeculation (hsu : su.clause ≠ .seq) {s : State} (hs : s.inSpeculation=true)
    (i : Instruction) :
    (counted su s i).speculationWindow = s.speculationWindow+1 ∧
    (Expires su s i → (counted su s i).stopRequested = true) := by
  have eq : counted su s i = countInstruction su s i := by
    unfold counted
    split
    · exact absurd ‹_› hsu
    · rfl
  rw [eq]
  unfold countInstruction
  rw [if_pos hs]
  refine ⟨rfl,?_⟩
  unfold Expires Instruction.isFence
  rintro (fence | expired)
  · simp [of_decide_eq_true fence]
  · simp [expired]

lemma counted_outside {s : State} (hs : s.inSpeculation=false) (i : Instruction) :
    counted su s i = s := by
  have count : countInstruction su s i = s := by simp [countInstruction,hs]
  unfold counted
  split
  · rfl
  · exact count

/-- The step that runs the hook of an instruction. -/
lemma Current.emuStep_eq {s : State} {insn : Insn} {i : Instruction} (hc : Current su s insn i) :
    emuStep su s =
      (instructionHook su s s.cpu.rip insn).bind (execute su insn s.cpu.rip) := by
  unfold emuStep
  rw [if_neg hc.inside,hc.fetch]
  rfl

/-- Where speculation is to end, the hook leaves a stop request. -/
lemma instructionHook_stops (hsu : su.clause ≠ .seq) {s s' : State} {insn : Insn}
    {i : Instruction} (hc : Current su s insn i) (hs : s.inSpeculation=true)
    (he : Expires su s i) (h : instructionHook su s s.cpu.rip insn = some s') :
    s'.stopRequested = true := by
  rw [instructionHook_eq,hc.mapped,Option.bind_some] at h
  obtain ⟨s₁,h₁,h⟩ := Option.bind_eq_some_iff.mp h
  rw [speculateInstruction_stop h]
  obtain ⟨_,_,rfl⟩ := seqTraceInstruction_traced h₁
  exact (counted_inSpeculation hsu hs i).2 he

/-- Where the hook finds nothing to speculate on, no checkpoint is opened. -/
lemma instructionHook_quiet {s s' : State} {insn : Insn} {i : Instruction}
    (hc : Current su s insn i)
    (hq : s.checkpoints.length<s.nesting → ¬Mispredicts su s insn ∧ ¬Bypasses su s)
    (h : instructionHook su s s.cpu.rip insn = some s') :
    s'.checkpoints = s.checkpoints ∧ s'.inSpeculation = s.inSpeculation ∧ s'.cpu=s.cpu := by
  rw [instructionHook_eq,hc.mapped,Option.bind_some] at h
  obtain ⟨s₁,h₁,h⟩ := Option.bind_eq_some_iff.mp h
  obtain ⟨w,b,hcount⟩ := counted_eq su s i
  rw [hcount] at h₁
  obtain ⟨tr,tt,rfl⟩ := seqTraceInstruction_traced h₁
  obtain ⟨p,a,rfl⟩ := speculateInstruction_still (by exact hq) h
  exact ⟨rfl,rfl,rfl⟩

/-- The loads among the accesses are not injected. -/
def Spared (su : Setup) (s : State) (as : List Access) : Prop :=
  su.clause=.null → s.checkpoints.length<s.nesting →
    s.instructionAddress ≠ s.latestRollbackAddress → ∀ a ∈ as, a.isWrite=true

/-- Only a load under null injection opens a checkpoint. -/
lemma runAccesses_quiet {insn : Insn} {c : Cpu} {as : List Access}
    {seen seen' : List (List Byte)} {s s' : State} (hq : Spared su s as)
    (h : runAccesses su insn c as seen s = some (seen',s')) :
    s'.checkpoints = s.checkpoints ∧ s'.inSpeculation = s.inSpeculation := by
  induction as generalizing seen s with
  | nil =>
    cases h
    exact ⟨rfl,rfl⟩
  | cons a as ih =>
    have later : Spared su s as := fun hcl room elsewhere b hb =>
      hq hcl room elsewhere b (List.mem_cons_of_mem a hb)
    unfold runAccesses at h
    cases hw : a.isWrite with
    | true =>
      rw [hw,if_pos rfl] at h
      obtain ⟨s₁,h₁,h⟩ := Option.bind_eq_some_iff.mp h
      obtain ⟨_,_,_,rfl,-⟩ := traceMemAccess_store hw h₁
      obtain ⟨logs,hl⟩ := logged_eq su s a
      rw [hl] at h
      have kept := ih (by exact later) h
      exact kept
    | false =>
      rw [hw,if_neg (by simp)] at h
      obtain ⟨s₁,h₁,h⟩ := Option.bind_eq_some_iff.mp h
      obtain ⟨s₂,ht,hs₁⟩ := traceMemAccess_load hw h₁
      obtain ⟨_,_,rfl⟩ := ht
      rcases hs₁ with rfl | ⟨hcl,⟨room,-,elsewhere⟩,-⟩
      · have kept := ih (by exact later) h
        exact kept
      · have writes := hq hcl room elsewhere a List.mem_cons_self
        rw [hw] at writes
        cases writes

lemma execute_quiet {insn : Insn} {address : ℕ} {s : State}
    (hq : s.stopRequested=true ∨ Spared su s (insn.accesses s.cpu))
    {o : Outcome} (h : execute su insn address s = some o) :
    o.state.checkpoints = s.checkpoints ∧ o.state.inSpeculation = s.inSpeculation := by
  unfold execute at h
  split at h
  · cases h
    exact ⟨rfl,rfl⟩
  · rename_i go
    split at h
    · cases h
      exact ⟨rfl,rfl⟩
    · obtain ⟨⟨seen,s'⟩,h₁,h⟩ := Option.bind_eq_some_iff.mp h
      have kept := runAccesses_quiet (hq.resolve_left go) h₁
      dsimp only at h
      split at h <;> cases h <;> exact kept

/-- In speculation an orderly step opens no checkpoint where it is to end, and returns. -/
lemma emuStep_stops (hsu : su.clause ≠ .seq) {s : State} (ho : Orderly su s) {insn : Insn}
    {i : Instruction} (hc : Current su s insn i) (hs : s.inSpeculation=true)
    (he : Expires su s i) {o : Outcome} (h : emuStep su s = some o) :
    ∃ s', o = .returned s' ∧ s'.checkpoints = s.checkpoints ∧ s'.inSpeculation=true := by
  rw [hc.emuStep_eq] at h
  obtain ⟨s₁,h₁,h⟩ := Option.bind_eq_some_iff.mp h
  obtain ⟨same,still,-⟩ := instructionHook_quiet hc (ho.quiet insn i hc (Or.inr ⟨hs,he⟩)) h₁
  have stop := instructionHook_stops hsu hc hs he h₁
  unfold execute at h
  rw [if_pos stop] at h
  cases h
  exact ⟨_,rfl,same,still.trans hs⟩

/-- An orderly fence outside of speculation does not start it. -/
lemma emuStep_fence {s : State} (ho : Orderly su s) {insn : Insn} {i : Instruction}
    (hc : Current su s insn i) (hs : s.inSpeculation=false) (hf : i.isFence) {o : Outcome}
    (h : emuStep su s = some o) : o.state.inSpeculation=false := by
  rw [hc.emuStep_eq] at h
  obtain ⟨s₁,h₁,h⟩ := Option.bind_eq_some_iff.mp h
  obtain ⟨-,still,cpu⟩ := instructionHook_quiet hc (ho.quiet insn i hc (Or.inl hf)) h₁
  have writes : Spared su s₁ (insn.accesses s₁.cpu) := by
    rw [cpu]
    exact fun hcl _ _ => ho.fence hcl insn i hc hf
  rw [(execute_quiet (Or.inr writes) h).2,still,hs]

end Steps

/-- What a transient path has done: the instructions it executed beyond the one of the
outermost checkpoint, and for each open checkpoint the number it falls back to. -/
structure Transient where
  executed : ℕ := 0
  saved : List ℕ := []

namespace Transient

/-- One step. In speculation an instruction is executed when the emulator goes on. A rollback
falls back to before the instruction, or to behind a jump that was mispredicted. -/
def tick (g : Transient) (c c' : Config) : Transient :=
  match c.phase with
  | .emulating _ =>
    let new := c'.state.checkpoints.take (c'.state.checkpoints.length-c.state.checkpoints.length)
    { executed :=
        if c.state.inSpeculation ∧ c'.phase=c.phase then g.executed+1 else g.executed
      saved := new.map (fun cp =>
        if c.state.inSpeculation ∧ cp.nextInstruction ≠ c.state.cpu.rip then g.executed+1
        else g.executed) ++ g.saved }
  | .draining =>
    match g.saved with
    | n :: saved => if c.state.inSpeculation then ⟨n,saved⟩ else g
    | [] => g
  | _ => g

end Transient

section Runs
variable (su : Setup)

/-- The configurations of an input, all of whose steps are orderly. -/
inductive Walk : Config → Transient → Prop
  | start {s : State} {c : Config} (nesting : ℕ) (tainting tracing : Bool)
      (input : Input su.conf) (h : Session (fun _ _ => True) su ⟨.finished,s⟩)
      (hb : begin su input { s with
        nesting := nesting, taintingEnabled := tainting, executionTracingEnabled := tracing } =
        some c) : Walk c {}
  | tick {c c' : Config} {g : Transient} (h : Walk c g) (ho : Orderly su c.state)
      (ht : tick su c = some c') : Walk c' (g.tick c c')

variable {su}

lemma Walk.session {c : Config} {g : Transient} (h : Walk su c g) :
    Session (fun _ _ => True) su c := by
  induction h with
  | start nesting tainting tracing input h hb =>
    exact h.begin nesting tainting tracing input trivial hb
  | tick _ _ ht ih => exact ih.tick ht

/-- The counts are bounded by the windows and by the limit. -/
structure Bounded (su : Setup) (s : State) (g : Transient) : Prop where
  window : g.executed ≤ s.speculationWindow
  limit : g.executed ≤ su.conf.modelMaxSpecWindow
  saved : List.Forall₂ (fun n cp => n ≤ cp.specWindow ∧ n ≤ su.conf.modelMaxSpecWindow)
    g.saved s.checkpoints

@[simp] lemma next_state (first : Bool) (o : Outcome) : (o.next first).state = o.state := by
  cases o <;> rfl

lemma forall₂_pushed {new cps : List Checkpoint} {saved : List ℕ} {f : Checkpoint → ℕ}
    {R : ℕ → Checkpoint → Prop} (hn : ∀ cp ∈ new, R (f cp) cp) (h : List.Forall₂ R saved cps) :
    List.Forall₂ R (new.map f ++ saved) (new ++ cps) := by
  induction new with
  | nil => exact h
  | cons cp new ih =>
    exact .cons (hn cp List.mem_cons_self) (ih fun q hq => hn q (List.mem_cons_of_mem cp hq))

/-- The most that the path has executed after a step. -/
def Transient.most (g : Transient) (s : State) : ℕ :=
  if s.inSpeculation then g.executed+1 else g.executed

lemma Bounded.pushed {s : State} {g : Transient} (hb : Bounded su s g) (first : Bool)
    {c' : Config} (new : List Checkpoint) (hp : c'.state.checkpoints = new ++ s.checkpoints)
    (hnew : ∀ cp ∈ new, g.most s ≤ cp.specWindow ∧ g.most s ≤ su.conf.modelMaxSpecWindow)
    (hgo : c'.phase=.emulating first →
      g.most s ≤ c'.state.speculationWindow ∧ g.most s ≤ su.conf.modelMaxSpecWindow)
    (hw : s.speculationWindow ≤ c'.state.speculationWindow) :
    Bounded su c'.state (g.tick ⟨.emulating first,s⟩ c') := by
  have taken : c'.state.checkpoints.take (c'.state.checkpoints.length-s.checkpoints.length) =
      new := by
    rw [hp,List.length_append,Nat.add_sub_cancel,List.take_left]
  unfold Transient.most at hnew hgo
  have window := hb.window
  have limit := hb.limit
  constructor
  · simp only [Transient.tick]
    split_ifs with h
    · rw [if_pos h.1] at hgo
      exact (hgo h.2).1
    · omega
  · simp only [Transient.tick]
    split_ifs with h
    · rw [if_pos h.1] at hgo
      exact (hgo h.2).2
    · exact limit
  · simp only [Transient.tick,taken]
    rw [hp]
    apply forall₂_pushed ?_ hb.saved
    intro cp hcp
    have bound := hnew cp hcp
    split_ifs with h
    · rw [if_pos h.1] at bound
      exact bound
    · split_ifs at bound <;> omega

/-- One orderly step of the emulator. -/
lemma Bounded.emuStep (hsu : su.clause ≠ .seq) {s : State} {g : Transient} (ho : Orderly su s)
    (hb : Bounded su s g) (first : Bool) {o : Outcome} (h : emuStep su s = some o) :
    Bounded su (o.next first).state (g.tick ⟨.emulating first,s⟩ (o.next first)) := by
  -- a step that ends the emulation and opens nothing keeps the counts
  have ends : ∀ o' : Outcome, o'.state.checkpoints = s.checkpoints →
      (∀ s', o' ≠ .running s') → s.speculationWindow ≤ o'.state.speculationWindow →
      Bounded su (o'.next first).state (g.tick ⟨.emulating first,s⟩ (o'.next first)) := by
    intro o' hc hr hw
    refine hb.pushed first [] (by simpa using hc) (by simp) ?_ (by simpa using hw)
    intro hp
    cases o' with
    | running s' => exact absurd rfl (hr s')
    | returned s' => cases hp
    | fault s' =>
      unfold Outcome.next at hp
      dsimp only at hp
      split_ifs at hp
  rcases emuStep_grown h with (rfl | rfl) | ⟨insn,i,new,hc,hg⟩
  · exact ends (.returned s) rfl (by simp) le_rfl
  · exact ends (.fault s) rfl (by simp) le_rfl
  · obtain ⟨w,b,hcount⟩ := counted_eq su s i
    have pushed : (o.next first).state.checkpoints = new ++ s.checkpoints := by
      rw [next_state,hg.checkpoints,hcount]
    have window := hb.window
    have limit := hb.limit
    cases hs : s.inSpeculation with
    | false =>
      rw [counted_outside hs] at hg
      refine hb.pushed first new pushed ?_ ?_ ?_
      · intro cp hcp
        rw [hg.saved cp hcp]
        simpa [Transient.most,hs] using ⟨window,limit⟩
      · intro _
        rw [next_state,hg.window]
        simpa [Transient.most,hs] using ⟨window,limit⟩
      · rw [next_state,hg.window]
    | true =>
      have counts := (counted_inSpeculation hsu hs i).1
      by_cases he : Expires su s i
      · obtain ⟨s',rfl,same,-⟩ := emuStep_stops hsu ho hc hs he h
        refine ends (.returned s') same (by simp) ?_
        rw [hg.window,counts]
        omega
      · have room : s.speculationWindow+1 ≤ su.conf.modelMaxSpecWindow := by
          unfold Expires at he
          push Not at he
          omega
        have most : g.most s ≤ s.speculationWindow+1 := by
          simp only [Transient.most,hs,if_true]
          omega
        refine hb.pushed first new pushed ?_ ?_ ?_
        · intro cp hcp
          rw [hg.saved cp hcp,counts]
          omega
        · intro _
          rw [next_state,hg.window,counts]
          omega
        · rw [next_state,hg.window,counts]
          omega

lemma Walk.bounded (hsu : su.clause ≠ .seq) {c : Config} {g : Transient} (h : Walk su c g) :
    Bounded su c.state g := by
  induction h with
  | start nesting tainting tracing input h hb =>
    rw [begin_eq] at hb
    obtain ⟨c₀,-,rfl⟩ := Option.map_eq_some_iff.mp hb
    exact ⟨Nat.zero_le _,Nat.zero_le _,.nil⟩
  | @tick c c' g hw ho ht ih =>
    obtain ⟨phase,s⟩ := c
    cases phase with
    | emulating first =>
      obtain ⟨o,ho',rfl⟩ := Option.map_eq_some_iff.mp ht
      exact ih.emuStep hsu ho first ho'
    | draining =>
      unfold ProteanAmulet.tick at ht
      dsimp only at ht
      split at ht
      · rename_i hs
        obtain ⟨s',hs',rfl⟩ := Option.map_eq_some_iff.mp ht
        obtain ⟨s₁,h₁,rfl⟩ := Option.map_eq_some_iff.mp hs'
        obtain ⟨cp,cps,log,logs,tt,hc,hl,rfl,-⟩ := restore_cases h₁
        have saved := ih.saved
        rw [hc] at saved
        cases hsv : g.saved with
        | nil =>
          rw [hsv] at saved
          cases saved
        | cons n rest =>
          rw [hsv] at saved
          cases saved with
          | cons head tail =>
            simp only [Transient.tick,hsv,hs,if_true]
            exact ⟨head.1,head.2,tail⟩
      · rename_i hs
        cases ht
        have keep : g.tick ⟨.draining,s⟩ ⟨.finished,s⟩ = g := by
          unfold Transient.tick
          dsimp only
          split
          · rw [if_neg hs]
          · rfl
        rw [keep]
        exact ih
    | finished =>
      cases ht
      exact ih
    | exited =>
      cases ht
      exact ih

/-- While all steps are orderly, no transient path executes more instructions than the window
allows. In speculation no checkpoint is opened where it is to end, and a fence on a transient
path is followed by a rollback. -/
theorem speculation_ends (hsu : su.clause ≠ .seq) {c : Config} {g : Transient}
    (h : Walk su c g) :
    g.executed ≤ su.conf.modelMaxSpecWindow ∧
    ∀ first insn i c', c.phase=.emulating first → Current su c.state insn i →
      Orderly su c.state → tick su c = some c' →
      (c.state.inSpeculation → Expires su c.state i →
        c'.state.checkpoints = c.state.checkpoints) ∧
      (i.isFence → c'.state.inSpeculation → c'.phase=.draining) := by
  refine ⟨(h.bounded hsu).limit,?_⟩
  intro first insn i c' hp hc ho ht
  obtain ⟨phase,s⟩ := c
  cases hp
  obtain ⟨o,ho',rfl⟩ := Option.map_eq_some_iff.mp ht
  constructor
  · intro hs he
    obtain ⟨s',rfl,same,-⟩ := emuStep_stops hsu ho hc hs he ho'
    exact same
  · intro hf hs'
    rw [next_state] at hs'
    cases hs : s.inSpeculation with
    | true =>
      obtain ⟨s',rfl,-⟩ := emuStep_stops hsu ho hc hs (Or.inl hf) ho'
      rfl
    | false =>
      rw [emuStep_fence ho hc hs hf ho'] at hs'
      cases hs'

end Runs

section Witnesses
open Asm

/-- Code without fences is orderly before the window is full. -/
lemma orderly_of_plain {clause : Clause} {tracer : Tracer} {code : List Line}
    (hcode : ∀ l ∈ code, l.instruction.isFence=false) {s : State} (hw : s.speculationWindow<250) :
    Orderly (setup clause tracer code) s := by
  have plain : ∀ insn i, Current (setup clause tracer code) s insn i → i.isFence=false := by
    intro insn i hc
    have hm : (if (0 : ℤ) ≤ s.cpu.rip-0x400000 then
        (lookup code ((s.cpu.rip : ℤ)-0x400000).toNat).map (·.instruction) else none) = some i :=
      hc.mapped
    split_ifs at hm
    obtain ⟨l,hl,rfl⟩ := Option.map_eq_some_iff.mp hm
    exact hcode l (lookup_mem hl)
  constructor
  · intro insn i hc he
    have no := plain insn i hc
    rcases he with fence | ⟨-,fence | expired⟩
    · rw [no] at fence
      cases fence
    · rw [no] at fence
      cases fence
    · change 250<s.speculationWindow+1 at expired
      omega
  · intro _ insn i hc fence
    rw [plain insn i hc] at fence
    cases fence

/-- A store and two instructions after it. -/
def storeNops : Setup := setup .bpas .ct [store .R14 0 .A,nop,nop]

/-- The bypass at the second instruction, and one instruction beyond it. -/
theorem speculation_ends_storeNops :
    ∃ c g, Walk storeNops c g ∧ c.state.inSpeculation=true ∧ g.executed=1 ∧
      g.executed ≤ storeNops.conf.modelMaxSpecWindow := by
  have plain : ∀ l ∈ [store .R14 0 .A,nop,nop], l.instruction.isFence=false := by decide
  have h₀ : Walk storeNops _ _ :=
    .start 1 false true (input [(1024,5)]) (Session.fresh storeNops) rfl
  have h₁ : Walk storeNops _ _ := h₀.tick (orderly_of_plain plain (by decide)) rfl
  have h₂ : Walk storeNops _ _ := h₁.tick (orderly_of_plain plain (by decide)) rfl
  have h₃ : Walk storeNops _ _ := h₂.tick (orderly_of_plain plain (by decide)) rfl
  have limit := (speculation_ends (by decide) h₃).1
  exact ⟨_,_,h₃,rfl,rfl,limit⟩

/-- A store before a fence, and two of them. -/
def storeFence : Setup := setup .bpas .ct [store .R14 0 .A,lfence,nop]
def storesFence : Setup := setup .bpas .ct [store .R14 0 .A,store .R14 8 .A,lfence]

/-- The bypass of a store starts at the fence after it, and the emulation goes on behind the
fence. In speculation, the bypass of the second store opens a checkpoint at the fence. -/
theorem speculation_goes_on :
    (∃ c c' insn i, Session (fun _ _ => True) storeFence c ∧ c.phase=.emulating true ∧
      Current storeFence c.state insn i ∧ i.isFence ∧ tick storeFence c = some c' ∧
      c'.state.inSpeculation ∧ c'.phase ≠ .draining) ∧
    ∃ c c' insn i, Session (fun _ _ => True) storesFence c ∧ c.phase=.emulating true ∧
      Current storesFence c.state insn i ∧ c.state.inSpeculation ∧
      Expires storesFence c.state i ∧ tick storesFence c = some c' ∧
      c'.state.checkpoints ≠ c.state.checkpoints := by
  have h₁ : Session (fun _ _ => True) storeFence _ :=
    (Session.fresh storeFence).begin_ticks trivial 1 false true (input [(1024,5)]) 1 rfl
  have h₂ : Session (fun _ _ => True) storesFence _ :=
    (Session.fresh storesFence).begin_ticks trivial 2 false true (input [(1024,5)]) 2 rfl
  have at₁ : ∀ s : State, s.cpu.rip=0x400004 →
      Current storeFence s lfence.insn lfence.instruction := by
    intro s hs
    exact ⟨by rw [hs]; decide,by rw [hs]; rfl,by rw [hs]; rfl⟩
  have at₂ : ∀ s : State, s.cpu.rip=0x400008 →
      Current storesFence s lfence.insn lfence.instruction := by
    intro s hs
    exact ⟨by rw [hs]; decide,by rw [hs]; rfl,by rw [hs]; rfl⟩
  refine ⟨⟨_,_,_,_,h₁,rfl,at₁ _ rfl,rfl,rfl,rfl,by decide⟩,
    _,_,_,_,h₂,rfl,at₂ _ rfl,rfl,Or.inl rfl,rfl,?_⟩
  intro same
  cases congrArg List.length same

end Witnesses

end ProteanAmulet
