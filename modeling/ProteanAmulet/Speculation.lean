import ProteanAmulet.Taint.Reach

/-! The speculation stack. A step of the emulator only pushes checkpoints, each with a log of
stores, a checkpoint of the taint tracker and the window of the instruction; a rollback pops
one of each. -/
namespace ProteanAmulet

/-- The number of checkpoints of the taint tracker, if there is one. -/
def State.taintDepth (s : State) : Option ℕ := s.taintTracker.map (·.checkpoints.length)

lemma track_depth {s s' : State} {f : TaintTracker → Option TaintTracker}
    (hf : ∀ t t', f t = some t' → t'.checkpoints = t.checkpoints) (h : s.track f = some s') :
    s'.taintDepth = s.taintDepth := by
  obtain ⟨tt,rfl,⟨hn,rfl⟩ | ⟨t,t',ht,hft,rfl⟩⟩ := track_cases h
  · simp [State.taintDepth,hn]
  · simp [State.taintDepth,ht,hf t t' hft]

lemma expose_depth {k : Tracer} {s s' : State} {e : Expose} (h : s.expose k e = some s') :
    s'.taintDepth = s.taintDepth := by
  cases e with
  | pc address =>
    refine track_depth (s := s.push _) ?_ h
    intro t t' ht
    cases ht
    unfold TaintTracker.taintPc
    split
    · split_ifs <;> rfl
    · rfl
  | addr address =>
    refine track_depth (s := { s with tracer := { s.tracer with
      trace := k.pushAddress s.inSpeculation address s.tracer.trace } }) ?_ h
    intro t t' ht
    cases ht
    rfl
  | reg r =>
    refine track_depth (s := s.push _) ?_ h
    intro t t' ht
    obtain ⟨ℓ,-,rfl⟩ := Option.map_eq_some_iff.mp ht
    cases ℓ <;> rfl
  | mem address size => exact track_depth (s := s.push _) (fun t t' ht => by cases ht; rfl) h

lemma exposeAll_depth {k : Tracer} {es : List Expose} {s s' : State}
    (h : s.exposeAll k es = some s') : s'.taintDepth = s.taintDepth := by
  induction es generalizing s with
  | nil =>
    cases h
    rfl
  | cons e es ih =>
    obtain ⟨s₁,h₁,h₂⟩ := Option.bind_eq_some_iff.mp h
    exact (ih h₂).trans (expose_depth h₁)

variable {su : Setup}

lemma observeInstruction_depth {s s' : State} {address : ℕ} {insn : Insn}
    (h : observeInstruction su s address insn = some s') : s'.taintDepth = s.taintDepth := by
  obtain ⟨tr,-,h⟩ := Option.bind_eq_some_iff.mp h
  obtain ⟨s₁,h₁,h⟩ := Option.bind_eq_some_iff.mp h
  have h₀ := exposeAll_depth h₁
  dsimp only at h
  split at h <;> cases h <;> exact h₀

lemma observeMemAccess_depth {s s' : State} {insn : Insn} {a : Access} {value : ℤ}
    (h : observeMemAccess su s insn a value = some s') : s'.taintDepth = s.taintDepth := by
  obtain ⟨s₁,h₁,h⟩ := Option.bind_eq_some_iff.mp h
  have h₀ := exposeAll_depth h₁
  split at h
  · split at h
    · cases h
      exact h₀
    · obtain ⟨tr,-,h⟩ := Option.bind_eq_some_iff.mp h
      cases h
      exact h₀
  · cases h

lemma seqTraceInstruction_depth {s s' : State} {i : Instruction} {address : ℕ} {insn : Insn}
    (h : seqTraceInstruction su s i address insn = some s') : s'.taintDepth = s.taintDepth := by
  obtain ⟨s₁,h₁,h₂⟩ := Option.bind_eq_some_iff.mp h
  refine (observeInstruction_depth h₂).trans (track_depth ?_ h₁)
  intro t t' ht
  obtain ⟨fl,-,rfl⟩ := TaintTracker.startInstruction_eq ht
  exact t.settle_checkpoints

lemma seqTraceMemAccess_depth {s s' : State} {insn : Insn} {a : Access} {value : ℤ}
    (h : seqTraceMemAccess su s insn a value = some s') : s'.taintDepth = s.taintDepth := by
  obtain ⟨s₁,h₁,h₂⟩ := Option.bind_eq_some_iff.mp h
  refine (observeMemAccess_depth h₂).trans (track_depth ?_ h₁)
  intro t t' ht
  cases ht
  unfold TaintTracker.trackMemoryAccess
  dsimp only
  split_ifs <;> rfl

/-- The second state has the checkpoints `new` more, and all that goes with them. -/
structure Grown (s s' : State) (new : List Checkpoint) : Prop where
  checkpoints : s'.checkpoints = new ++ s.checkpoints
  saved : ∀ cp ∈ new, cp.specWindow = s.speculationWindow
  logs : s'.storeLogs.length = new.length+s.storeLogs.length
  taints : s'.taintDepth = s.taintDepth.map (new.length+·)
  window : s'.speculationWindow = s.speculationWindow
  nesting : s'.nesting = s.nesting
  speculating : s'.inSpeculation = (s.inSpeculation || !new.isEmpty)
  bound : new ≠ [] → s'.checkpoints.length ≤ s.nesting

namespace Grown

/-- Nothing that the stack consists of has changed. -/
lemma same {s s' : State} (hc : s'.checkpoints = s.checkpoints)
    (hl : s'.storeLogs.length = s.storeLogs.length) (ht : s'.taintDepth = s.taintDepth)
    (hw : s'.speculationWindow = s.speculationWindow) (hn : s'.nesting = s.nesting)
    (hs : s'.inSpeculation = s.inSpeculation) : Grown s s' [] where
  checkpoints := hc
  saved := by simp
  logs := by simpa using hl
  taints := by
    rw [ht]
    cases s.taintDepth <;> simp
  window := hw
  nesting := hn
  speculating := by simpa using hs
  bound := by simp

lemma refl (s : State) : Grown s s [] := same rfl rfl rfl rfl rfl rfl

lemma trans {s₁ s₂ s₃ : State} {new new' : List Checkpoint} (h : Grown s₁ s₂ new)
    (h' : Grown s₂ s₃ new') : Grown s₁ s₃ (new' ++ new) where
  checkpoints := by rw [h'.checkpoints,h.checkpoints,List.append_assoc]
  saved cp hcp := by
    rcases List.mem_append.mp hcp with hcp | hcp
    · exact (h'.saved cp hcp).trans h.window
    · exact h.saved cp hcp
  logs := by
    rw [h'.logs,h.logs,List.length_append,Nat.add_assoc]
  taints := by
    rw [h'.taints,h.taints]
    cases s₁.taintDepth with
    | none => rfl
    | some n => simp [Nat.add_assoc]
  window := h'.window.trans h.window
  nesting := h'.nesting.trans h.nesting
  speculating := by
    rw [h'.speculating,h.speculating]
    cases new <;> cases new' <;> simp
  bound hne := by
    by_cases hn : new'=[]
    · subst hn
      rw [h'.checkpoints]
      exact h.bound (by simpa using hne)
    · rw [← h.nesting]
      exact h'.bound hn

lemma traced {s s' : State} (h : Traced s s') (hd : s'.taintDepth = s.taintDepth) :
    Grown s s' [] := by
  obtain ⟨_,_,rfl⟩ := h
  exact same rfl rfl hd rfl rfl rfl

/-- A single new checkpoint, with a log that may already hold something. -/
lemma opened {s s' : State} {next : ℕ} (hlt : s.checkpoints.length<s.nesting)
    (hc : s'.checkpoints = (s.opened next).checkpoints)
    (hl : s'.storeLogs.length = s.storeLogs.length+1)
    (ht : s'.taintTracker = (s.opened next).taintTracker)
    (hw : s'.speculationWindow = s.speculationWindow) (hn : s'.nesting = s.nesting)
    (hs : s'.inSpeculation = true) :
    Grown s s' [⟨s.cpu,next,s.cpu.eflags,s.speculationWindow,s.snapshot⟩] where
  checkpoints := hc
  saved := by simp
  logs := by
    rw [hl]
    simp [Nat.add_comm]
  taints := by
    rw [State.taintDepth,ht,State.taintDepth,State.opened]
    cases s.taintTracker with
    | none => rfl
    | some t => simp [TaintTracker.checkpoint,Nat.add_comm]
  window := hw
  nesting := hn
  speculating := by simp [hs]
  bound _ := by
    rw [hc,State.opened,List.length_cons]
    exact hlt

end Grown

lemma mispredicted_grown {s : State} (hlt : s.checkpoints.length<s.nesting) (next : ℕ)
    (d : ℕ × Bool × Bool) : ∃ new, Grown s (X86UnicornCond.mispredicted s next d) new := by
  obtain ⟨target,willJump,isLoop⟩ := d
  cases isLoop with
  | false => exact ⟨_,Grown.opened hlt rfl rfl rfl rfl rfl rfl⟩
  | true =>
    -- the counter of a LOOP is decremented before the checkpoint
    have first : Grown s { s with cpu := s.cpu.setReg .C (s.cpu.reg .C-1) } [] :=
      Grown.same rfl rfl rfl rfl rfl rfl
    exact ⟨_,first.trans (Grown.opened hlt rfl rfl rfl rfl rfl rfl)⟩

lemma cond_grown {s s' : State} {address : ℕ} {insn : Insn}
    (h : X86UnicornCond.speculateInstruction s address insn = some s') :
    ∃ new, Grown s s' new := by
  rw [X86UnicornCond.speculateInstruction_eq] at h
  split at h
  · cases h
    exact ⟨[],Grown.refl s⟩
  · obtain ⟨d,-,rfl⟩ := Option.map_eq_some_iff.mp h
    split
    · exact ⟨[],Grown.refl s⟩
    · exact mispredicted_grown (by omega) _ d

lemma bpas_grown {s s' : State} {address : ℕ}
    (h : X86UnicornBpas.speculateInstruction s address = some s') : ∃ new, Grown s s' new := by
  rw [X86UnicornBpas.speculateInstruction_eq] at h
  split at h
  · cases h
    exact ⟨[],Grown.refl s⟩
  · split at h
    · cases h
      exact ⟨[],Grown.same rfl rfl rfl rfl rfl rfl⟩
    · obtain ⟨bs,-,rfl⟩ := Option.map_eq_some_iff.mp h
      exact ⟨_,Grown.opened (by omega) rfl rfl rfl rfl rfl rfl⟩

lemma speculateInstruction_grown {s s' : State} {address : ℕ} {insn : Insn}
    (h : speculateInstruction su s address insn = some s') : ∃ new, Grown s s' new := by
  unfold speculateInstruction at h
  cases hcl : su.clause <;> rw [hcl] at h
  case seq =>
    cases h
    exact ⟨[],Grown.refl s⟩
  case null =>
    cases h
    exact ⟨[],Grown.same rfl rfl rfl rfl rfl rfl⟩
  case cond => exact cond_grown h
  case bpas => exact bpas_grown h
  case condBpas =>
    obtain ⟨s₁,h₁,h⟩ := Option.bind_eq_some_iff.mp h
    obtain ⟨new,hg⟩ := cond_grown h₁
    obtain ⟨new',hg'⟩ := bpas_grown h
    exact ⟨new' ++ new,hg.trans hg'⟩

/-- The instruction hook counts first and then only pushes. -/
lemma instructionHook_grown {s s' : State} {address : ℕ} {insn : Insn}
    (h : instructionHook su s address insn = some s') :
    ∃ i new, su.testCase.addressMap ((address : ℤ)-su.codeStart) = some i ∧
      Grown (counted su s i) s' new := by
  rw [instructionHook_eq] at h
  obtain ⟨i,hi,h⟩ := Option.bind_eq_some_iff.mp h
  obtain ⟨s₁,h₁,h⟩ := Option.bind_eq_some_iff.mp h
  obtain ⟨new,hg⟩ := speculateInstruction_grown h
  have seen := Grown.traced (seqTraceInstruction_traced h₁) (seqTraceInstruction_depth h₁)
  exact ⟨i,_,hi,seen.trans hg⟩

lemma logged_grown (s : State) (a : Access) : Grown s (logged su s a) [] := by
  have same : Grown s (logStore s a) [] := by
    unfold logStore
    split
    · refine Grown.same rfl ?_ rfl rfl rfl rfl
      cases s.storeLogs <;> simp
    · exact Grown.refl s
  unfold logged
  split
  · exact Grown.refl s
  · exact same

lemma traceMemAccess_grown {s s' : State} {insn : Insn} {a : Access} {value : ℤ}
    (h : traceMemAccess su s insn a value = some s') : ∃ new, Grown s s' new := by
  rw [traceMemAccess_eq] at h
  obtain ⟨s₁,h₁,h⟩ := Option.bind_eq_some_iff.mp h
  have seen := (logged_grown s a).trans
    (Grown.traced (seqTraceMemAccess_traced h₁) (seqTraceMemAccess_depth h₁))
  cases hw : a.isWrite with
  | true =>
    rw [speculateMemAccess_store su _ insn value hw] at h
    obtain rfl := Option.some.inj h
    split
    · exact ⟨_,seen.trans (Grown.same rfl rfl rfl rfl rfl rfl)⟩
    · exact ⟨_,seen⟩
  | false =>
    rw [speculateMemAccess_load su _ insn value hw] at h
    obtain rfl := Option.some.inj h
    split
    · rename_i inj
      exact ⟨_,seen.trans (Grown.opened inj.2.1 rfl rfl rfl rfl rfl rfl)⟩
    · exact ⟨_,seen⟩

lemma runAccesses_grown {insn : Insn} {c : Cpu} {as : List Access} {seen seen' : List (List Byte)}
    {s s' : State} (h : runAccesses su insn c as seen s = some (seen',s')) :
    ∃ new, Grown s s' new := by
  induction as generalizing seen s with
  | nil =>
    cases h
    exact ⟨[],Grown.refl _⟩
  | cons a as ih =>
    unfold runAccesses at h
    split at h
    · obtain ⟨s₁,h₁,h⟩ := Option.bind_eq_some_iff.mp h
      obtain ⟨new,hg⟩ := traceMemAccess_grown h₁
      obtain ⟨new',hg'⟩ := ih h
      have wrote : ∀ m, Grown s₁ { s₁ with mem := m } [] :=
        fun m => Grown.same rfl rfl rfl rfl rfl rfl
      exact ⟨_,hg.trans ((wrote _).trans hg')⟩
    · obtain ⟨s₁,h₁,h⟩ := Option.bind_eq_some_iff.mp h
      obtain ⟨new,hg⟩ := traceMemAccess_grown h₁
      obtain ⟨new',hg'⟩ := ih h
      exact ⟨_,hg.trans hg'⟩

lemma execute_grown {insn : Insn} {address : ℕ} {s : State} {o : Outcome}
    (h : execute su insn address s = some o) : ∃ new, Grown s o.state new := by
  unfold execute at h
  split at h
  · cases h
    exact ⟨[],Grown.same rfl rfl rfl rfl rfl rfl⟩
  · split at h
    · cases h
      exact ⟨[],Grown.refl s⟩
    · obtain ⟨⟨seen,s'⟩,h₁,h⟩ := Option.bind_eq_some_iff.mp h
      obtain ⟨new,hg⟩ := runAccesses_grown h₁
      dsimp only at h
      split at h
      · cases h
        exact ⟨new,hg⟩
      · cases h
        exact ⟨_,hg.trans (Grown.same rfl rfl rfl rfl rfl rfl)⟩

/-- The instruction whose hook runs next. -/
structure Current (su : Setup) (s : State) (insn : Insn) (i : Instruction) : Prop where
  inside : s.cpu.rip ≠ su.codeEnd
  fetch : su.testCase.fetch s.cpu.rip = some insn
  mapped : su.testCase.addressMap ((s.cpu.rip : ℤ)-su.codeStart) = some i

/-- A step of the emulator stands still, or it runs the hook of an instruction. -/
lemma emuStep_grown {s : State} {o : Outcome} (h : emuStep su s = some o) :
    (o = .returned s ∨ o = .fault s) ∨
    ∃ insn i new, Current su s insn i ∧ Grown (counted su s i) o.state new := by
  unfold emuStep at h
  split at h
  · cases h
    exact Or.inl (Or.inl rfl)
  · rename_i inside
    split at h
    · cases h
      exact Or.inl (Or.inr rfl)
    · rename_i insn hf
      obtain ⟨s₁,h₁,h⟩ := Option.bind_eq_some_iff.mp h
      obtain ⟨i,new,hi,hg⟩ := instructionHook_grown h₁
      obtain ⟨new',hg'⟩ := execute_grown h
      exact Or.inr ⟨insn,i,_,⟨inside,hf,hi⟩,hg.trans hg'⟩

/-- The four stacks have the same height, at most the nesting, and they are empty exactly
outside of speculation. -/
structure Balanced (s : State) : Prop where
  logs : s.storeLogs.length = s.checkpoints.length
  taints : ∀ n, s.taintDepth = some n → n = s.checkpoints.length
  bound : s.checkpoints.length ≤ s.nesting
  speculating : 0<s.checkpoints.length ↔ s.inSpeculation=true
  window : s.inSpeculation=false → s.speculationWindow=0

/-- The invariant: the outermost checkpoint was taken with an empty window. -/
structure Stacked (s : State) : Prop extends Balanced s where
  bottom : ∀ cps cp, s.checkpoints = cps ++ [cp] → cp.specWindow=0

namespace Stacked

lemma outside {s : State} (h : Stacked s) (hs : s.inSpeculation=false) : s.checkpoints=[] := by
  have := h.speculating
  rw [hs] at this
  apply List.length_eq_zero_iff.mp
  simpa using this

lemma grown {s s' : State} {new : List Checkpoint} (h : Stacked s) (hg : Grown s s' new) :
    Stacked s' where
  logs := by rw [hg.logs,hg.checkpoints,h.logs,List.length_append]
  taints n hn := by
    rw [hg.taints] at hn
    obtain ⟨m,hm,rfl⟩ := Option.map_eq_some_iff.mp hn
    rw [hg.checkpoints,List.length_append,h.taints m hm]
  bound := by
    by_cases hne : new=[]
    · subst hne
      rw [hg.checkpoints,hg.nesting]
      exact h.bound
    · rw [hg.nesting]
      exact hg.bound hne
  speculating := by
    have hs := h.speculating
    rw [hg.checkpoints,hg.speculating,List.length_append]
    cases new with
    | nil => simpa using hs
    | cons cp cps => simp
  window hs := by
    rw [hg.speculating,Bool.or_eq_false_iff] at hs
    rw [hg.window]
    exact h.window hs.1
  bottom cps cp heq := by
    rw [hg.checkpoints] at heq
    cases hs : s.inSpeculation with
    | false =>
      -- the new checkpoints save the window of a state outside of speculation
      rw [h.outside hs,List.append_nil] at heq
      rw [hg.saved cp (by simp [heq])]
      exact h.window hs
    | true =>
      have hne : s.checkpoints ≠ [] := List.ne_nil_of_length_pos (h.speculating.mpr hs)
      obtain ⟨old,last,hold⟩ := List.eq_nil_or_concat s.checkpoints |>.resolve_left hne
      rw [List.concat_eq_append] at hold
      rw [hold,← List.append_assoc] at heq
      obtain ⟨-,hlast⟩ := List.append_inj' heq rfl
      cases hlast
      exact h.bottom old cp hold

lemma counted {s : State} (h : Stacked s) (i : Instruction) : Stacked (counted su s i) := by
  have count : Stacked (countInstruction su s i) := by
    unfold countInstruction
    split
    · rename_i hs
      exact ⟨⟨h.logs,h.taints,h.bound,h.speculating,fun hn => absurd (hs.symm.trans hn) (by simp)⟩,
        h.bottom⟩
    · exact h
  unfold ProteanAmulet.counted
  split
  · exact h
  · exact count

lemma emuStep {s : State} {o : Outcome} (h : Stacked s) (ho : emuStep su s = some o) :
    Stacked o.state := by
  rcases emuStep_grown ho with (rfl | rfl) | ⟨insn,i,new,-,hg⟩
  · exact h
  · exact h
  · exact (h.counted i).grown hg

lemma rollback {s s' : State} (h : Stacked s) (hr : rollback s = some s') : Stacked s' := by
  obtain ⟨s₁,h₁,rfl⟩ := Option.map_eq_some_iff.mp hr
  obtain ⟨cp,cps,log,logs,tt,hc,hl,rfl,ht⟩ := restore_cases h₁
  have logs_eq := h.logs
  have bound := h.bound
  rw [hc,hl] at logs_eq
  rw [hc] at bound
  refine ⟨⟨Nat.succ.inj logs_eq,?_,?_,?_,?_⟩,?_⟩
  · intro n hn
    rcases ht with ⟨-,rfl⟩ | ⟨t,t',ht,hroll,rfl⟩
    · cases hn
    · obtain ⟨d,ds,hds,rfl,-⟩ := TaintTracker.rollback_eq hroll
      have depth := h.taints _ (by rw [State.taintDepth,ht,Option.map_some])
      rw [hds,hc] at depth
      cases hn
      exact Nat.succ.inj depth
  · exact Nat.le_of_succ_le bound
  · cases cps <;> simp [State.restored]
  · intro hs
    have hnil : cps=[] := by simpa [State.restored] using hs
    subst hnil
    exact h.bottom [] cp hc
  · intro cps' cp' heq
    have heq : cps = cps' ++ [cp'] := heq
    exact h.bottom (cp :: cps') cp' (by rw [hc,heq]; rfl)

end Stacked

/-- The invariant of a session. Between two inputs the model is outside of speculation. -/
structure SessionStacked (c : Config) : Prop where
  stacked : Stacked c.state
  finished : c.phase=.finished → c.state.inSpeculation=false

lemma tick_stacked {c c' : Config} (h : SessionStacked c) (ht : tick su c = some c') :
    SessionStacked c' := by
  obtain ⟨phase,s⟩ := c
  cases phase with
  | emulating first =>
    obtain ⟨o,ho,rfl⟩ := Option.map_eq_some_iff.mp ht
    have step := h.stacked.emuStep ho
    cases o with
    | running s' => exact ⟨step,by simp [Outcome.next]⟩
    | returned s' => exact ⟨step,by simp [Outcome.next]⟩
    | fault s' =>
      refine ⟨step,?_⟩
      unfold Outcome.next
      dsimp only
      split_ifs <;> simp
  | draining =>
    unfold tick at ht
    dsimp only at ht
    split at ht
    · obtain ⟨s',hs',rfl⟩ := Option.map_eq_some_iff.mp ht
      exact ⟨h.stacked.rollback hs',by simp⟩
    · cases ht
      exact ⟨h.stacked,fun _ => by simpa using ‹¬s.inSpeculation=true›⟩
  | finished =>
    cases ht
    exact h
  | exited =>
    cases ht
    exact h

lemma session_stacked {Start : Setup → State → Prop} {c : Config} (h : Session Start su c) :
    SessionStacked c := by
  induction h with
  | fresh su =>
    refine ⟨⟨⟨rfl,?_,le_rfl,by simp [State.fresh],fun _ => rfl⟩,?_⟩,fun _ => rfl⟩
    · intro n hn
      cases hn
    · intro cps cp heq
      simp [State.fresh] at heq
  | load tc _ ih =>
    have hs := ih.stacked
    exact ⟨⟨⟨hs.logs,hs.taints,hs.bound,hs.speculating,hs.window⟩,hs.bottom⟩,ih.finished⟩
  | @begin su s c nesting tainting tracing input _ _ hb ih =>
    rw [begin_eq] at hb
    obtain ⟨c₀,-,rfl⟩ := Option.map_eq_some_iff.mp hb
    have logs : s.storeLogs=[] := by
      apply List.length_eq_zero_iff.mp
      rw [ih.stacked.logs,ih.stacked.outside (ih.finished rfl)]
      rfl
    refine ⟨⟨⟨?_,?_,Nat.zero_le _,by simp [started],fun _ => rfl⟩,?_⟩,by simp⟩
    · simp [started,logs]
    · intro n hn
      cases tainting with
      | false => cases hn
      | true =>
        cases hn
        rfl
    · intro cps cp heq
      simp [started] at heq
  | tick _ ht ih => exact tick_stacked ih ht

/-- The states of a session, those between the hooks of an instruction included. -/
inductive Reachable (su : Setup) : State → Prop
  | between {c : Config} (h : Session (fun _ _ => True) su c) : Reachable su c.state
  | hooked {first : Bool} {s s' : State} {insn : Insn}
      (h : Session (fun _ _ => True) su ⟨.emulating first,s⟩)
      (hf : su.testCase.fetch s.cpu.rip = some insn)
      (hs : instructionHook su s s.cpu.rip insn = some s') : Reachable su s'
  | accessed {s s' : State} {insn : Insn} {done rest : List Access} {seen : List (List Byte)}
      (h : Reachable su s) (ha : insn.accesses s.cpu = done ++ rest)
      (hs : runAccesses su insn s.cpu done [] s = some (seen,s')) : Reachable su s'

lemma Reachable.stacked {s : State} (h : Reachable su s) : Stacked s := by
  induction h with
  | between h => exact (session_stacked h).stacked
  | hooked h _ hs =>
    obtain ⟨i,new,-,hg⟩ := instructionHook_grown hs
    exact ((session_stacked h).stacked.counted i).grown hg
  | accessed _ _ hs ih =>
    obtain ⟨new,hg⟩ := runAccesses_grown hs
    exact ih.grown hg

/-- In every state of every session there are as many store logs, and as many checkpoints of
the taint tracker, as checkpoints, at most as many as the nesting, and some exactly in
speculation; outside of it the window is empty. Every input ends with all of them empty. -/
theorem speculation_stack :
    (∀ s, Reachable su s → Balanced s) ∧
    ∀ c, Session (fun _ _ => True) su c → c.phase=.finished →
      c.state.inSpeculation=false ∧ c.state.speculationWindow=0 ∧ c.state.checkpoints=[] ∧
      c.state.storeLogs=[] ∧ ∀ t, c.state.taintTracker = some t → t.checkpoints=[] := by
  refine ⟨fun s h => h.stacked.toBalanced,?_⟩
  intro c h hf
  obtain ⟨stacked,finished⟩ := session_stacked h
  have out := finished hf
  have empty := stacked.outside out
  refine ⟨out,stacked.window out,empty,?_,?_⟩
  · apply List.length_eq_zero_iff.mp
    rw [stacked.logs,empty]
    rfl
  · intro t ht
    apply List.length_eq_zero_iff.mp
    rw [stacked.taints t.checkpoints.length (by rw [State.taintDepth,ht,Option.map_some]),empty]
    rfl

/-- The checkpoint at the instruction after a store, and the end of the input. -/
theorem speculation_stack_storeNop :
    (∃ s, Reachable storeNop s ∧ Balanced s ∧ s.checkpoints.length=1 ∧ s.taintDepth = some 1) ∧
    ∃ c, Session (fun _ _ => True) storeNop c ∧ c.phase=.finished ∧ c.state.storeLogs=[] := by
  have h₁ : Session (fun _ _ => True) storeNop _ :=
    (Session.fresh storeNop).begin_ticks trivial 1 true false (Asm.input [(1024,5)]) 2 rfl
  have h₂ : Session (fun _ _ => True) storeNop _ :=
    (Session.fresh storeNop).begin_ticks trivial 1 true false (Asm.input [(1024,5)]) 7 rfl
  exact ⟨⟨_,.between h₁,speculation_stack.1 _ (.between h₁),rfl,rfl⟩,
    _,h₂,rfl,(speculation_stack.2 _ h₂ rfl).2.2.2.1⟩

end ProteanAmulet
