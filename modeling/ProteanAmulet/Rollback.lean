import ProteanAmulet.Model.Asm
import ProteanAmulet.Model.Frame

/-! Rollback exactness. The undo logs lead from the current memory back through the states in
which the open checkpoints were taken, as long as a store that is still waiting to be bypassed
is a store to the current memory. -/
namespace ProteanAmulet

/-- Undoing the last log gives the memory of the last checkpoint, and so on downwards. -/
def Unwinds : Mem → List (List (ℕ × List Byte)) → List Checkpoint → Prop
  | _, [], [] => True
  | m, log :: logs, cp :: cps =>
    Memory.undo log m = cp.atCall.mem ∧ Unwinds cp.atCall.mem logs cps
  | _, _, _ => False

/-- The saved registers and window are those of the call. -/
def Checkpoint.Faithful (cp : Checkpoint) : Prop :=
  { cp.context with eflags := cp.flags } = cp.atCall.cpu ∧
    cp.specWindow = cp.atCall.speculationWindow

structure Recoverable (s : State) : Prop where
  unwinds : Unwinds s.mem s.storeLogs s.checkpoints
  faithful : ∀ cp ∈ s.checkpoints, cp.Faithful
  speculating : s.inSpeculation = !s.checkpoints.isEmpty

namespace Recoverable

theorem congr {s s' : State} (h : Recoverable s) (hm : s'.mem = s.mem)
    (hl : s'.storeLogs = s.storeLogs) (hc : s'.checkpoints = s.checkpoints)
    (hs : s'.inSpeculation = s.inSpeculation) : Recoverable s' where
  unwinds := by rw [hm,hl,hc]; exact h.unwinds
  faithful := by rw [hc]; exact h.faithful
  speculating := by rw [hs,hc]; exact h.speculating

theorem traced {s s' : State} (h : Recoverable s) (ht : Traced s s') : Recoverable s' := by
  obtain ⟨_,_,rfl⟩ := ht
  exact h.congr rfl rfl rfl rfl

/-- A checkpoint whose log already holds what is needed to undo the change made to memory. -/
theorem opened {s : State} (h : Recoverable s) (next : ℕ) {s' : State} {log}
    (hm : Memory.undo log s'.mem = s.mem) (hl : s'.storeLogs = log :: s.storeLogs)
    (hc : s'.checkpoints = (s.opened next).checkpoints) (hs : s'.inSpeculation = true) :
    Recoverable s' where
  unwinds := by
    rw [hl,hc]
    exact ⟨hm,h.unwinds⟩
  faithful := by
    rw [hc]
    intro cp hcp
    rcases List.mem_cons.mp hcp with rfl | hcp
    · exact ⟨rfl,rfl⟩
    · exact h.faithful cp hcp
  speculating := by rw [hs,hc]; rfl

/-- A store that was logged when there was a log to put it in. -/
theorem stored {s : State} (h : Recoverable s) {a : Access} (hw : a.isWrite)
    {bs : List Byte} (hbs : s.checkpoints ≠ [] → bs.length ≤ 8) {s' : State}
    (hm : s'.mem = Memory.write s.mem a.address bs) (hl : s'.storeLogs = (logStore s a).storeLogs)
    (hc : s'.checkpoints = s.checkpoints) (hs : s'.inSpeculation = s.inSpeculation) :
    Recoverable s' where
  unwinds := by
    have hu := h.unwinds
    rw [hm,hl,hc]
    simp only [logStore,hw,if_true]
    match hlogs : s.storeLogs, hcps : s.checkpoints with
    | [], [] => exact True.intro
    | [], _ :: _ => rw [hlogs,hcps] at hu; exact hu.elim
    | _ :: _, [] => rw [hlogs,hcps] at hu; exact hu.elim
    | log :: logs, cp :: cps =>
      rw [hlogs,hcps] at hu
      exact ⟨by rw [Memory.undo_logged_write _ _ _ _ _ (hbs (by simp [hcps]))]; exact hu.1,hu.2⟩
  faithful := by rw [hc]; exact h.faithful
  speculating := by rw [hs,hc]; exact h.speculating

/-- There is a log for the last checkpoint. -/
theorem exists_log {s : State} (h : Recoverable s) {cp : Checkpoint} {cps : List Checkpoint}
    (hc : s.checkpoints = cp :: cps) : ∃ log logs, s.storeLogs = log :: logs := by
  have hu := h.unwinds
  rw [hc] at hu
  cases hl : s.storeLogs with
  | nil => rw [hl] at hu; exact hu.elim
  | cons log logs => exact ⟨log,logs,rfl⟩

/-- What the restoring part of a rollback gives back. -/
theorem restore_eq {s s' : State} (h : Recoverable s) {cp : Checkpoint} {cps : List Checkpoint}
    (hc : s.checkpoints = cp :: cps) (hr : restore s = some s') : s'.snapshot = cp.atCall := by
  obtain ⟨cp',cps',log,logs,tt,hc',hl,rfl,-⟩ := restore_cases hr
  obtain ⟨rfl,rfl⟩ := List.cons.inj (hc.symm.trans hc')
  have hu := h.unwinds
  have hf := h.faithful cp (by rw [hc]; exact List.mem_cons_self)
  rw [hc,hl] at hu
  simp only [State.snapshot,State.restored,hf.1,hf.2,hu.1]

theorem restore {s s' : State} (h : Recoverable s) (hr : restore s = some s') :
    Recoverable s' := by
  obtain ⟨cp,cps,log,logs,tt,hc,hl,rfl,-⟩ := restore_cases hr
  have hu := h.unwinds
  have hf := h.faithful
  rw [hc,hl] at hu
  rw [hc] at hf
  refine ⟨?_,fun cp hcp => hf cp (List.mem_cons_of_mem _ hcp),rfl⟩
  simpa only [State.restored,hu.1] using hu.2

end Recoverable

/-- A store that the next hook may bypass is what memory holds. -/
def PendingStored (s : State) : Prop :=
  s.checkpoints.length<s.nesting → s.previousStore.address ≠ 0 →
    s.previousStore.oldValue.length = s.previousStore.size ∧
    Memory.read s.mem s.previousStore.address s.previousStore.size =
      leBytes s.previousStore.value s.previousStore.size

/-- No store waits for the next hook. -/
def Cleared (s : State) : Prop :=
  s.checkpoints.length<s.nesting → s.previousStore.address=0

lemma Cleared.pendingStored {s : State} (h : Cleared s) : PendingStored s :=
  fun hlt hp => absurd (h hlt) hp

/-- The invariant between two steps. -/
structure Recorded (su : Setup) (s : State) : Prop where
  recoverable : Recoverable s
  pending : PendingStored s
  never : su.clause.bypasses=false → s.previousStore.address=0
  sequential : su.clause=.seq → s.checkpoints=[]

section Steps
variable {su : Setup}

theorem Recorded.traced {s s' : State} (h : Recorded su s) (ht : Traced s s') :
    Recorded su s' := by
  have hr := h.recoverable.traced ht
  obtain ⟨_,_,rfl⟩ := ht
  exact ⟨hr,h.pending,h.never,h.sequential⟩

theorem Recorded.counted {s : State} (h : Recorded su s) (i : Instruction) :
    Recorded su (counted su s i) := by
  obtain ⟨w,b,hc⟩ := counted_eq su s i
  rw [hc]
  exact ⟨h.recoverable.congr rfl rfl rfl rfl,h.pending,h.never,h.sequential⟩

theorem mispredicted_recorded {s : State} (h : Recorded su s) (hne : su.clause ≠ .seq)
    (next : ℕ) (d : ℕ × Bool × Bool) : Recorded su (X86UnicornCond.mispredicted s next d) := by
  obtain ⟨target,willJump,isLoop⟩ := d
  -- The counter of a LOOP is decremented before the checkpoint.
  have key : ∀ s₁ : State, Recorded su s₁ → ∀ n rip, Recorded su
      { s₁.opened n with cpu := { (s₁.opened n).cpu with rip := rip } } := by
    intro s₁ h₁ n rip
    refine ⟨h₁.recoverable.opened n rfl rfl rfl rfl,fun hlt => ?_,h₁.never,(absurd · hne)⟩
    exact h₁.pending (Nat.lt_of_succ_lt hlt)
  cases isLoop with
  | false => exact key s h _ _
  | true =>
    refine key { s with cpu := s.cpu.setReg .C (s.cpu.reg .C-1) } ?_ _ _
    exact ⟨h.recoverable.congr rfl rfl rfl rfl,h.pending,h.never,h.sequential⟩

theorem cond_recorded {s s' : State} {address : ℕ} {insn : Insn} (h : Recorded su s)
    (hne : su.clause ≠ .seq)
    (hs : X86UnicornCond.speculateInstruction s address insn = some s') : Recorded su s' := by
  rw [X86UnicornCond.speculateInstruction_eq] at hs
  split at hs
  · cases hs
    exact h
  · obtain ⟨d,-,rfl⟩ := Option.map_eq_some_iff.mp hs
    split
    · exact h
    · exact mispredicted_recorded h hne _ d

/-- The hook of a bypassing clause consumes the pending store unless no checkpoint can be
opened. -/
theorem bpas_recorded {s s' : State} {address : ℕ} (h : Recorded su s)
    (hs : X86UnicornBpas.speculateInstruction s address = some s') :
    Recoverable s' ∧ Cleared s' := by
  rw [X86UnicornBpas.speculateInstruction_eq] at hs
  split at hs
  · cases hs
    exact ⟨h.recoverable,fun hlt => absurd hlt (by omega)⟩
  · split at hs
    · cases hs
      exact ⟨h.recoverable.congr rfl rfl rfl rfl,fun _ => rfl⟩
    · obtain ⟨bs,hbs,rfl⟩ := Option.map_eq_some_iff.mp hs
      obtain ⟨hlen,hread⟩ := h.pending (by omega) ‹_›
      refine ⟨h.recoverable.opened address ?_ rfl rfl rfl,fun _ => rfl⟩
      rw [toBytes_eq hbs,← hread]
      exact Memory.write_write_read _ _ _ _ hlen.le

theorem speculateInstruction_recorded {s s' : State} {address : ℕ} {insn : Insn}
    (h : Recorded su s) (hs : speculateInstruction su s address insn = some s') :
    Recorded su s' ∧ Cleared s' := by
  unfold speculateInstruction at hs
  cases hcl : su.clause with
  | seq =>
    rw [hcl] at hs
    cases hs
    exact ⟨h,fun _ => h.never (by rw [hcl]; rfl)⟩
  | cond =>
    rw [hcl] at hs
    have h' := cond_recorded h (by simp [hcl]) hs
    exact ⟨h',fun _ => h'.never (by rw [hcl]; rfl)⟩
  | null =>
    rw [hcl] at hs
    cases hs
    have hp := h.never (by rw [hcl]; rfl)
    exact ⟨⟨h.recoverable.congr rfl rfl rfl rfl,h.pending,h.never,h.sequential⟩,fun _ => hp⟩
  | bpas =>
    rw [hcl] at hs
    obtain ⟨hr,hc⟩ := bpas_recorded h hs
    exact ⟨⟨hr,hc.pendingStored,by simp [hcl,Clause.bypasses],by simp [hcl]⟩,hc⟩
  | condBpas =>
    rw [hcl] at hs
    obtain ⟨s₁,h₁,h₂⟩ := Option.bind_eq_some_iff.mp hs
    obtain ⟨hr,hc⟩ := bpas_recorded (cond_recorded h (by simp [hcl]) h₁) h₂
    exact ⟨⟨hr,hc.pendingStored,by simp [hcl,Clause.bypasses],by simp [hcl]⟩,hc⟩

theorem instructionHook_recorded {s s' : State} {address : ℕ} {insn : Insn}
    (h : Recorded su s) (hs : instructionHook su s address insn = some s') :
    Recorded su s' ∧ Cleared s' := by
  rw [instructionHook_eq] at hs
  obtain ⟨i,-,hs⟩ := Option.bind_eq_some_iff.mp hs
  obtain ⟨s₁,h₁,hs⟩ := Option.bind_eq_some_iff.mp hs
  exact speculateInstruction_recorded ((h.counted i).traced (seqTraceInstruction_traced h₁)) hs

/-- The accesses the undo logs can cover: a log entry holds eight bytes. Without speculation
nothing is undone. -/
def Access.Covered (su : Setup) (a : Access) : Prop :=
  su.clause ≠ .seq → (a.isWrite=true ∨ su.clause=.null) → a.size ≤ 8

theorem Recorded.logged_storeLogs {s : State} (h : Recorded su s) (a : Access) :
    (logged su s a).storeLogs = (logStore s a).storeLogs := by
  unfold logged
  split
  · have hu := h.recoverable.unwinds
    rw [h.sequential ‹_›] at hu
    match hl : s.storeLogs with
    | [] => unfold logStore; split <;> simp [hl]
    | _ :: _ => rw [hl] at hu; exact hu.elim
  · rfl

/-- What the memory hook does to a store. -/
theorem traceMemAccess_store {s s' : State} {insn : Insn} {a : Access} {value : ℤ}
    (hw : a.isWrite) (hs : traceMemAccess su s insn a value = some s') :
    ∃ tr tt p, s' = { logged su s a with tracer := tr, taintTracker := tt, previousStore := p } ∧
      p = if su.clause.bypasses && !X86UnicornBpas.isCall insn then
        ⟨a.address,a.size,Memory.read s.mem a.address a.size,value⟩ else s.previousStore := by
  rw [traceMemAccess_eq] at hs
  obtain ⟨s₁,h₁,hs⟩ := Option.bind_eq_some_iff.mp hs
  obtain ⟨tr,tt,rfl⟩ := seqTraceMemAccess_traced h₁
  obtain ⟨logs,hl⟩ := logged_eq su s a
  rw [speculateMemAccess_store su _ insn value hw] at hs
  obtain rfl := Option.some.inj hs
  refine ⟨tr,tt,_,?_,rfl⟩
  split <;> simp [hl]

/-- A load leaves everything as it is, or it is the injected one. -/
theorem traceMemAccess_load {s s' : State} {insn : Insn} {a : Access} {value : ℤ}
    (hw : a.isWrite=false) (hs : traceMemAccess su s insn a value = some s') :
    ∃ s₁, Traced s s₁ ∧ (s'=s₁ ∨ su.clause=.null ∧ X86UnicornNull.Injects s₁ a ∧
      s' = X86UnicornNull.zeroed s₁ a) := by
  rw [traceMemAccess_eq,logged_load su s hw] at hs
  obtain ⟨s₁,h₁,hs⟩ := Option.bind_eq_some_iff.mp hs
  refine ⟨s₁,seqTraceMemAccess_traced h₁,?_⟩
  rw [speculateMemAccess_load su _ insn value hw] at hs
  obtain rfl := Option.some.inj hs
  split
  · rename_i h
    exact Or.inr ⟨h.1,h.2,rfl⟩
  · exact Or.inl rfl

/-- The invariant inside an instruction: a CALL never leaves a store pending. -/
structure Accessing (su : Setup) (insn : Insn) (s : State) : Prop extends Recorded su s where
  call : X86UnicornBpas.isCall insn → Cleared s

theorem store_recorded {s s' : State} {insn : Insn} {a : Access} {value : ℤ}
    (h : Accessing su insn s) (hw : a.isWrite) (ha : a.Covered su)
    (hs : traceMemAccess su s insn a value = some s') :
    Accessing su insn { s' with mem := Memory.write s'.mem a.address (leBytes value a.size) } := by
  obtain ⟨tr,tt,p,rfl,hp⟩ := traceMemAccess_store hw hs
  have hlogs := h.toRecorded.logged_storeLogs a
  obtain ⟨logs,hl⟩ := logged_eq su s a
  rw [hl] at hlogs ⊢
  have hlen : s.checkpoints ≠ [] → (leBytes value a.size).length ≤ 8 := by
    intro hne
    simpa using ha (fun hcl => hne (h.sequential hcl)) (Or.inl hw)
  refine ⟨⟨h.recoverable.stored hw hlen rfl hlogs rfl rfl,?_,?_,h.sequential⟩,?_⟩
  · intro hlt hne
    dsimp only at hne hlt ⊢
    subst hp
    split at hne
    · rw [if_pos ‹_›]
      refine ⟨Memory.read_length _ _ _,?_⟩
      have hr := Memory.read_write_self s.mem a.address (leBytes value a.size)
      rwa [leBytes_length] at hr
    -- A store that is not remembered finds nothing pending.
    · rename_i hb
      refine absurd ?_ hne
      cases hby : su.clause.bypasses with
      | false => exact h.never hby
      | true => exact h.call (by simpa [hby] using hb) hlt
  · intro hby
    subst hp
    simpa [hby] using h.never hby
  · intro hc hlt
    subst hp
    simpa [hc] using h.call hc hlt

theorem load_recorded {s s' : State} {insn : Insn} {a : Access} {value : ℤ}
    (h : Accessing su insn s) (hw : a.isWrite=false) (ha : a.Covered su)
    (hs : traceMemAccess su s insn a value = some s') : Accessing su insn s' := by
  obtain ⟨s₁,ht,hs⟩ := traceMemAccess_load hw hs
  have h₁ : Accessing su insn s₁ := by
    refine ⟨h.toRecorded.traced ht,?_⟩
    obtain ⟨_,_,rfl⟩ := ht
    exact h.call
  rcases hs with rfl | ⟨hcl,-,rfl⟩
  · exact h₁
  · have hp : s₁.previousStore.address=0 := h₁.never (by rw [hcl]; rfl)
    refine ⟨⟨h₁.recoverable.opened s₁.instructionAddress ?_ rfl rfl rfl,
      fun _ hne => absurd hp hne,fun _ => hp,by simp [hcl]⟩,fun _ _ => hp⟩
    exact Memory.undo_logged_write [] _ _ _ _ (by simpa using ha (by simp [hcl]) (Or.inr hcl))

theorem runAccesses_recorded {insn : Insn} {c : Cpu} {as : List Access}
    {seen seen' : List (List Byte)} {s s' : State} (h : Accessing su insn s)
    (ha : ∀ a ∈ as, a.Covered su) (hs : runAccesses su insn c as seen s = some (seen',s')) :
    Recorded su s' := by
  induction as generalizing seen s with
  | nil =>
    cases hs
    exact h.toRecorded
  | cons a as ih =>
    have haa := ha a List.mem_cons_self
    have has := fun b hb => ha b (List.mem_cons_of_mem _ hb)
    unfold runAccesses at hs
    cases hw : a.isWrite with
    | true =>
      rw [hw,if_pos rfl] at hs
      obtain ⟨s₁,h₁,hs⟩ := Option.bind_eq_some_iff.mp hs
      exact ih (store_recorded h hw haa h₁) has hs
    | false =>
      rw [hw,if_neg (by simp)] at hs
      obtain ⟨s₁,h₁,hs⟩ := Option.bind_eq_some_iff.mp hs
      exact ih (load_recorded h hw haa h₁) has hs

/-- The state a step of the emulator ends in. -/
def Outcome.state : Outcome → State
  | .running s | .returned s | .fault s => s

/-- Under a speculative clause the stores of the test case, and under null injection its
loads, are at most eight bytes wide. -/
def Covered (su : Setup) : Prop :=
  ∀ address insn, su.testCase.fetch address = some insn →
    ∀ c, ∀ a ∈ insn.accesses c, a.Covered su

theorem execute_recorded {insn : Insn} {address : ℕ} {s : State} {o : Outcome}
    (h : Recorded su s) (hc : Cleared s) (ha : ∀ c, ∀ a ∈ insn.accesses c, a.Covered su)
    (ho : execute su insn address s = some o) : Recorded su o.state := by
  unfold execute at ho
  split at ho
  · cases ho
    exact ⟨h.recoverable.congr rfl rfl rfl rfl,h.pending,h.never,h.sequential⟩
  · split at ho
    · cases ho
      exact h
    · obtain ⟨⟨seen,s'⟩,h₁,ho⟩ := Option.bind_eq_some_iff.mp ho
      have h' := runAccesses_recorded ⟨h,fun _ => hc⟩ (ha s.cpu) h₁
      dsimp only at ho
      split at ho
      · cases ho
        exact h'
      · cases ho
        exact ⟨h'.recoverable.congr rfl rfl rfl rfl,h'.pending,h'.never,h'.sequential⟩

theorem emuStep_recorded (hsu : Covered su) {s : State} {o : Outcome} (h : Recorded su s)
    (ho : emuStep su s = some o) : Recorded su o.state := by
  unfold emuStep at ho
  split at ho
  · cases ho
    exact h
  · split at ho
    · cases ho
      exact h
    · obtain ⟨s₁,h₁,ho⟩ := Option.bind_eq_some_iff.mp ho
      obtain ⟨h',hc⟩ := instructionHook_recorded h h₁
      exact execute_recorded h' hc (hsu _ _ ‹_›) ho

theorem rollback_recorded {s s' : State} (h : Recorded su s) (hr : rollback s = some s') :
    Recorded su s' := by
  obtain ⟨s₁,h₁,rfl⟩ := Option.map_eq_some_iff.mp hr
  have hr₁ := h.recoverable.restore h₁
  obtain ⟨cp,cps,log,logs,tt,hc,-,rfl,-⟩ := restore_cases h₁
  refine ⟨hr₁.congr rfl rfl rfl rfl,fun _ hne => absurd rfl hne,fun _ => rfl,fun hcl => ?_⟩
  exact absurd ((h.sequential hcl).symm.trans hc) (by simp)

/-- The invariant of a session. Between two inputs no checkpoint is open; while an input is
run the test case is covered. -/
def Invariant (su : Setup) (c : Config) : Prop :=
  match c.phase with
  | .finished => c.state.checkpoints=[] ∧ c.state.storeLogs=[] ∧
      (su.clause.bypasses=false → c.state.previousStore.address=0)
  | _ => Recorded su c.state ∧ Covered su

/-- An input may start: its test case is covered and no store is left from the last input. -/
def Starts (su : Setup) (s : State) : Prop :=
  Covered su ∧ (su.clause.bypasses → s.previousStore.address=0)

theorem started_recorded {input : Input su.conf} {s : State} {c : Cpu}
    (hlogs : s.storeLogs=[]) (hp : s.nesting ≠ 0 → s.previousStore.address=0)
    (hn : su.clause.bypasses=false → s.previousStore.address=0) :
    Recorded su (started su input s c) where
  recoverable := ⟨by simp only [started,hlogs]; exact True.intro,by simp [started],rfl⟩
  pending := fun hlt hne => absurd (hp (Nat.ne_zero_of_lt hlt)) hne
  never := hn
  sequential := fun _ => rfl

theorem tick_invariant {c c' : Config} (h : Invariant su c) (ht : tick su c = some c') :
    Invariant su c' := by
  obtain ⟨phase,s⟩ := c
  cases phase with
  | emulating first =>
    obtain ⟨hr,hsu⟩ : Recorded su s ∧ Covered su := h
    obtain ⟨o,ho,rfl⟩ := Option.map_eq_some_iff.mp ht
    have ho' := emuStep_recorded hsu hr ho
    cases o with
    | running s' => exact ⟨ho',hsu⟩
    | returned s' => exact ⟨ho',hsu⟩
    | fault s' =>
      unfold Outcome.next Invariant
      dsimp only
      split_ifs <;> exact ⟨ho',hsu⟩
  | draining =>
    obtain ⟨hr,hsu⟩ : Recorded su s ∧ Covered su := h
    unfold tick at ht
    dsimp only at ht
    split at ht
    · obtain ⟨s',hs',rfl⟩ := Option.map_eq_some_iff.mp ht
      exact ⟨rollback_recorded hr hs',hsu⟩
    · cases ht
      have hspec := hr.recoverable.speculating
      have hu := hr.recoverable.unwinds
      have hc : s.checkpoints=[] := by simp_all
      rw [hc] at hu
      have hl : s.storeLogs=[] := by
        cases hl : s.storeLogs with
        | nil => rfl
        | cons log logs => rw [hl] at hu; exact hu.elim
      exact ⟨hc,hl,hr.never⟩
  | finished =>
    cases ht
    exact h
  | exited =>
    cases ht
    exact h

theorem session_invariant {c : Config} (h : Session Starts su c) : Invariant su c := by
  induction h with
  | fresh su => exact ⟨rfl,rfl,fun _ => rfl⟩
  | load tc _ ih => exact ⟨ih.1,ih.2.1,ih.2.2⟩
  | @begin su s c nesting tainting tracing input _ hs hb ih =>
    rw [begin_eq] at hb
    obtain ⟨c₀,-,rfl⟩ := Option.map_eq_some_iff.mp hb
    refine ⟨started_recorded ih.2.1 (fun _ => ?_) ih.2.2,hs.1⟩
    cases hby : su.clause.bypasses with
    | false => exact ih.2.2 hby
    | true => exact hs.2 hby
  | tick _ ht ih => exact tick_invariant ih ht

/-- In a session whose inputs all start without a pending store, the restoring part of every
rollback gives back the registers, the flags, the memory and the window of the moment its
checkpoint was taken. -/
theorem rollback_exact {c : Config} (h : Session Starts su c) {cp : Checkpoint}
    {cps : List Checkpoint} (hc : c.state.checkpoints = cp :: cps) {s' : State}
    (hr : restore c.state = some s') :
    s'.cpu = cp.atCall.cpu ∧ s'.cpu.eflags = cp.atCall.cpu.eflags ∧ s'.mem = cp.atCall.mem ∧
      s'.speculationWindow = cp.atCall.speculationWindow := by
  have hrec : Recoverable c.state := by
    have hi := session_invariant h
    obtain ⟨phase,s⟩ := c
    cases phase with
    | finished => exact absurd (hi.1.symm.trans hc) (by simp)
    | emulating first => exact hi.1.recoverable
    | draining => exact hi.1.recoverable
    | exited => exact hi.1.recoverable
  have hs := hrec.restore_eq hc hr
  rw [← hs]
  exact ⟨rfl,rfl,rfl,rfl⟩

end Steps

section Witnesses
open Asm

lemma covered_of_lines {clause : Clause} {tracer : Tracer} {code : List Line}
    (h : ∀ l ∈ code, ∀ c, ∀ a ∈ l.insn.accesses c, a.size ≤ 8) :
    Covered (setup clause tracer code) := by
  intro address insn hf c a ha _ _
  obtain ⟨l,hl,rfl⟩ := fetch_mem hf
  exact h l hl c a ha

/-- A store, and an instruction at which it can be bypassed. -/
def storeNop : Setup := setup .bpas .ct [store .R14 0 .A,nop]

/-- The checkpoint that is open after two steps. -/
theorem rollback_exact_storeNop :
    ∃ c cp cps s', Session Starts storeNop c ∧ c.state.checkpoints = cp :: cps ∧
      restore c.state = some s' ∧ s'.mem = cp.atCall.mem := by
  have hs : Starts storeNop State.fresh :=
    ⟨covered_of_lines (by simp [store,nop]),fun _ => rfl⟩
  have h : Session Starts storeNop _ :=
    (Session.fresh storeNop).begin_ticks hs 1 false true (input [(1024,5)]) 2 rfl
  exact ⟨_,_,_,_,h,rfl,rfl,(rollback_exact h rfl rfl).2.2.1⟩

/-- A single store, so that the test case ends with the store pending. -/
def storeOnly : Setup := setup .bpas .ct [store .R14 0 .A]

/-- The second of two inputs opens a checkpoint for the store of the first one, and rolling
it back writes the value of that store over the second input. -/
theorem rollback_inexact :
    ∃ su c cp cps s', Session (fun su _ => Covered su) su c ∧ c.state.checkpoints = cp :: cps ∧
      restore c.state = some s' ∧ s'.mem ≠ cp.atCall.mem := by
  have hs : Covered storeOnly := covered_of_lines (by simp [store])
  have h₁ : Session (fun su _ => Covered su) storeOnly _ :=
    (Session.fresh storeOnly).begin_ticks hs 1 false true (input [(1024,5)]) 3 rfl
  have h₂ := h₁.begin_ticks hs 1 false true (input [(1024,6)]) 1 rfl
  refine ⟨_,_,_,_,_,h₂,rfl,rfl,fun h => ?_⟩
  have hbyte := congrFun h 0x8502000
  revert hbyte
  decide

end Witnesses

end ProteanAmulet
