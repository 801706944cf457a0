import ProteanAmulet.Fences
import ProteanAmulet.Lockstep

/-! The sequential run beside a speculative one, whatever the two record. Outside of speculation
they have the same registers and memory; while the speculative run is on a transient path, the
sequential one waits where the first checkpoint leads back to. -/
namespace ProteanAmulet

/-- The same model under the clause without speculation. -/
def Setup.sequential (su : Setup) : Setup := { su with clause := .seq }

/-- The branch is what its decoding says: it makes no access and goes where the checkpoint
goes, with the registers that the checkpoint saves. -/
structure ExactBranch (insn : Insn) (c : Cpu) (d : ℕ × Bool × Bool) : Prop where
  accesses : insn.accesses c = []
  faults : insn.faults c [] = false
  finish : insn.finish c [] = { if d.2.2 then c.setReg .C (c.reg .C-1) else c with
    rip := if d.2.1 then c.rip+insn.size+d.1 else c.rip+insn.size }

/-- The first access is a load, or all of them are stores. -/
def LoadsFirst (as : List Access) : Prop :=
  ∀ a ∈ as.head?, a.isWrite=true → ∀ b ∈ as, b.isWrite=true

/-- A first checkpoint leads back to where the program goes on: a branch that is predicted does
what its decoding says, and an injected load finds the memory as it was before the
instruction. -/
structure Resumes (su : Setup) (s : State) : Prop where
  branch : s.checkpoints=[] → 0<s.nesting → su.clause=.cond ∨ su.clause=.condBpas →
    ∀ insn i, Current su s insn i → ∀ d,
      X86UnicornCond.decode insn.bytes s.cpu.eflags (s.cpu.reg .C) = some d → d.1 ≠ 0 →
        ExactBranch insn s.cpu d
  inject : s.checkpoints=[] → 0<s.nesting → su.clause=.null →
    s.cpu.rip ≠ s.latestRollbackAddress → ∀ insn i, Current su s insn i →
      LoadsFirst (insn.accesses s.cpu)

/-- Outside of speculation the two runs have the same registers and memory. -/
structure Level (s u : State) : Prop where
  cpu : s.cpu = u.cpu
  mem : s.mem = u.mem
  checkpoints : s.checkpoints=[]
  inSpeculation : s.inSpeculation=false
  sequential : u.inSpeculation=false

/-- In speculation the sequential run is where the first checkpoint leads back to. -/
structure Behind (s u : State) : Prop where
  bottom : ∃ cps cp, s.checkpoints = cps ++ [cp] ∧
    { cp.atCall.cpu with rip := cp.nextInstruction } = u.cpu ∧ cp.atCall.mem = u.mem
  inSpeculation : s.inSpeculation=true
  sequential : u.inSpeculation=false

section Steps
variable {su : Setup} {s s' s₁ u u' : State} {insn : Insn}

lemma Level.traced (h : Level s u) (hs : Traced s s') (hu : Traced u u') : Level s' u' := by
  obtain ⟨_,_,rfl⟩ := hs
  obtain ⟨_,_,rfl⟩ := hu
  exact ⟨h.cpu,h.mem,h.checkpoints,h.inSpeculation,h.sequential⟩

lemma Level.noted (h : Level s u) (p : PreviousStore) (address : ℕ) :
    Level { s with previousStore := p, instructionAddress := address } u :=
  ⟨h.cpu,h.mem,h.checkpoints,h.inSpeculation,h.sequential⟩

lemma Level.setMem (h : Level s u) (m : Mem) : Level { s with mem := m } { u with mem := m } :=
  ⟨h.cpu,rfl,h.checkpoints,h.inSpeculation,h.sequential⟩

lemma Level.setCpu (h : Level s u) (c : Cpu) : Level { s with cpu := c } { u with cpu := c } :=
  ⟨rfl,h.mem,h.checkpoints,h.inSpeculation,h.sequential⟩

/-- A first checkpoint that leads back to the current instruction. -/
lemma Level.opened (h : Level s u) {next : ℕ} (hn : next = s.cpu.rip)
    (hc : s'.checkpoints = (s.opened next).checkpoints) (hs : s'.inSpeculation=true) :
    Behind s' u := by
  refine ⟨⟨[],⟨s.cpu,next,s.cpu.eflags,s.speculationWindow,s.snapshot⟩,?_,?_,h.mem⟩,hs,
    h.sequential⟩
  · rw [hc]
    unfold State.opened
    rw [h.checkpoints]
    rfl
  · dsimp only [State.snapshot]
    rw [hn,← h.cpu]

lemma Behind.grown {new : List Checkpoint} (h : Behind s u) (hg : Grown s s' new) :
    Behind s' u := by
  obtain ⟨cps,cp,hc,hcpu,hmem⟩ := h.bottom
  refine ⟨⟨new ++ cps,cp,?_,hcpu,hmem⟩,?_,h.sequential⟩
  · rw [hg.checkpoints,hc,List.append_assoc]
  · rw [hg.speculating,h.inSpeculation]
    rfl

lemma Behind.execute {address : ℕ} {o : Outcome} (h : Behind s u)
    (ho : ProteanAmulet.execute su insn address s = some o) : Behind o.state u := by
  obtain ⟨_,hg⟩ := execute_grown ho
  exact h.grown hg

/-- The hook of the sequential clause only records. -/
lemma instructionHook_sequential {address : ℕ} (h : instructionHook su.sequential u address insn =
    some u') : Traced u u' := by
  obtain ⟨i,-,h⟩ := Option.bind_eq_some_iff.mp h
  exact seqTraceInstruction_traced h

/-- Where the first checkpoint leads back to. -/
lemma mispredicted_bottom (s : State) (next : ℕ) (d : ℕ × Bool × Bool) :
    ∃ cp, (X86UnicornCond.mispredicted s next d).checkpoints = cp :: s.checkpoints ∧
      { cp.atCall.cpu with rip := cp.nextInstruction } =
        { if d.2.2 then s.cpu.setReg .C (s.cpu.reg .C-1) else s.cpu with
          rip := if d.2.1 then next+d.1 else next } ∧ cp.atCall.mem = s.mem := by
  obtain ⟨target,willJump,isLoop⟩ := d
  unfold X86UnicornCond.mispredicted
  cases isLoop <;> exact ⟨_,rfl,rfl,rfl⟩

lemma Level.branched {d : ℕ × Bool × Bool} (h : Level s u) (hd : ExactBranch insn s.cpu d) :
    Behind (X86UnicornCond.mispredicted s (s.cpu.rip+insn.size) d)
      { u with cpu := insn.finish u.cpu [] } := by
  obtain ⟨cp,hcp,hback,hmem⟩ := mispredicted_bottom s (s.cpu.rip+insn.size) d
  refine ⟨⟨[],cp,?_,?_,hmem.trans h.mem⟩,rfl,h.sequential⟩
  · rw [hcp,h.checkpoints]
    rfl
  · rw [hback,← h.cpu]
    exact hd.finish.symm

/-- The branch that the predictor takes from the sequential run makes no access. -/
lemma ExactBranch.execute {d : ℕ × Bool × Bool} {o : Outcome} (hd : ExactBranch insn u.cpu d)
    (hstop : u.stopRequested=false) (ho : execute su insn u.cpu.rip u = some o) :
    o = .running { u with cpu := insn.finish u.cpu [] } := by
  unfold ProteanAmulet.execute at ho
  rw [if_neg (by simp [hstop]),if_neg (by simp),hd.accesses] at ho
  simp only [runAccesses,Option.bind_eq_bind,Option.bind_some,hd.faults] at ho
  cases ho
  rfl

/-- An access that is not injected is made in both runs. -/
lemma Level.traceMemAccess {a : Access} {value : ℤ} (h : Level s u) (hq : Spared su s [a])
    (hs : traceMemAccess su s insn a value = some s')
    (hu : traceMemAccess su.sequential u insn a value = some u') :
    Level s' u' ∧ ∀ as, Spared su s as → Spared su s' as := by
  have hu' : Traced u u' := seqTraceMemAccess_traced hu
  cases hw : a.isWrite with
  | true =>
    obtain ⟨tr,tt,p,rfl,-⟩ := traceMemAccess_store hw hs
    obtain ⟨logs,hl⟩ := logged_eq su s a
    rw [hl]
    obtain ⟨_,_,rfl⟩ := hu'
    exact ⟨⟨h.cpu,h.mem,h.checkpoints,h.inSpeculation,h.sequential⟩,fun _ hq => hq⟩
  | false =>
    obtain ⟨s₁,ht,hs₁⟩ := traceMemAccess_load hw hs
    obtain ⟨_,_,rfl⟩ := ht
    rcases hs₁ with rfl | ⟨hcl,⟨room,-,elsewhere⟩,-⟩
    · exact ⟨h.traced ⟨_,_,rfl⟩ hu',fun _ hq => hq⟩
    · have writes := hq hcl room elsewhere a (List.mem_singleton_self a)
      rw [hw] at writes
      cases writes

lemma Level.runAccesses {c : Cpu} {as : List Access} {seen seen₁ seen₂ : List (List Byte)}
    (h : Level s u) (hq : Spared su s as)
    (hs : runAccesses su insn c as seen s = some (seen₁,s'))
    (hu : runAccesses su.sequential insn c as seen u = some (seen₂,u')) :
    seen₁=seen₂ ∧ Level s' u' := by
  induction as generalizing s u seen with
  | nil =>
    cases hs
    cases hu
    exact ⟨rfl,h⟩
  | cons a as ih =>
    have first : Spared su s [a] := fun hcl room elsewhere b hb =>
      hq hcl room elsewhere b (List.mem_singleton.mp hb ▸ List.mem_cons_self)
    have rest : Spared su s as := fun hcl room elsewhere b hb =>
      hq hcl room elsewhere b (List.mem_cons_of_mem a hb)
    unfold ProteanAmulet.runAccesses at hs hu
    cases hw : a.isWrite with
    | true =>
      rw [hw,if_pos rfl] at hs hu
      obtain ⟨s₁,hs₁,hs⟩ := Option.bind_eq_some_iff.mp hs
      obtain ⟨u₁,hu₁,hu⟩ := Option.bind_eq_some_iff.mp hu
      obtain ⟨ha,later⟩ := h.traceMemAccess first hs₁ hu₁
      rw [← ha.mem] at hu
      exact ih (ha.setMem (Memory.write s₁.mem a.address (leBytes (insn.storeValue c seen) a.size)))
        (later as rest) hs hu
    | false =>
      rw [hw,if_neg (by simp)] at hs hu
      obtain ⟨s₁,hs₁,hs⟩ := Option.bind_eq_some_iff.mp hs
      obtain ⟨u₁,hu₁,hu⟩ := Option.bind_eq_some_iff.mp hu
      obtain ⟨ha,later⟩ := h.traceMemAccess first hs₁ hu₁
      rw [ha.mem] at hs
      exact ih ha (later as rest) hs hu

/-- An instruction without an injected load is executed in both runs, and faults in both or in
none. -/
lemma Level.execute {o p : Outcome} (h : Level s u)
    (hstop : s.stopRequested=false ∧ u.stopRequested=false)
    (hq : Spared su s (insn.accesses s.cpu)) (ho : ProteanAmulet.execute su insn s.cpu.rip s = some o)
    (hp : ProteanAmulet.execute su.sequential insn u.cpu.rip u = some p) : o.Rel Level p := by
  unfold ProteanAmulet.execute at ho hp
  rw [if_neg (by simp [hstop.1]),if_neg (by simp)] at ho
  rw [if_neg (by simp [hstop.2]),if_neg (by simp),← h.cpu] at hp
  obtain ⟨⟨seen,s₁⟩,hs₁,ho⟩ := Option.bind_eq_some_iff.mp ho
  obtain ⟨⟨seen',u₁⟩,hu₁,hp⟩ := Option.bind_eq_some_iff.mp hp
  obtain ⟨rfl,ha⟩ := h.runAccesses hq hs₁ hu₁
  dsimp only at ho hp
  split at ho
  · rw [if_pos ‹_›] at hp
    cases ho
    cases hp
    exact ha
  · rw [if_neg ‹_›] at hp
    cases ho
    cases hp
    exact ha.setCpu _

/-- An injected load opens a checkpoint at the instruction, before any store of it. -/
lemma Level.executeInjected {o : Outcome} (h : Level s u) (hstop : s.stopRequested=false)
    (hcl : su.clause=.null) (room : s.checkpoints.length<s.nesting)
    (elsewhere : s.instructionAddress ≠ s.latestRollbackAddress)
    (here : s.instructionAddress = s.cpu.rip) (hf : LoadsFirst (insn.accesses s.cpu))
    (hl : ∃ a ∈ insn.accesses s.cpu, a.isWrite=false)
    (ho : ProteanAmulet.execute su insn s.cpu.rip s = some o) : Behind o.state u := by
  unfold ProteanAmulet.execute at ho
  rw [if_neg (by simp [hstop]),if_neg (by simp)] at ho
  obtain ⟨⟨seen,s₁⟩,hs₁,ho⟩ := Option.bind_eq_some_iff.mp ho
  have injected : Behind s₁ u := by
    cases has : insn.accesses s.cpu with
    | nil =>
      obtain ⟨a,ha,-⟩ := hl
      rw [has] at ha
      cases ha
    | cons a as =>
      rw [has] at hs₁ hl hf
      have hw : a.isWrite=false := by
        by_contra hw
        obtain ⟨b,hb,hbw⟩ := hl
        have writes := hf a rfl (by simpa using hw) b hb
        rw [hbw] at writes
        cases writes
      unfold ProteanAmulet.runAccesses at hs₁
      rw [hw,if_neg (by simp)] at hs₁
      obtain ⟨s₂,hs₂,hs₁⟩ := Option.bind_eq_some_iff.mp hs₁
      rw [traceMemAccess_eq,logged_load su s hw] at hs₂
      obtain ⟨s₃,hs₃,hs₂⟩ := Option.bind_eq_some_iff.mp hs₂
      obtain ⟨tr,tt,rfl⟩ := seqTraceMemAccess_traced hs₃
      rw [speculateMemAccess_load su _ insn 0 hw,if_pos (by exact ⟨hcl,room,hw,elsewhere⟩)]
        at hs₂
      cases hs₂
      have first : Level { s with tracer := tr, taintTracker := tt } u :=
        h.traced ⟨_,_,rfl⟩ ⟨_,_,rfl⟩
      have back : Behind
          (X86UnicornNull.zeroed { s with tracer := tr, taintTracker := tt } a) u :=
        first.opened here rfl rfl
      obtain ⟨_,hg⟩ := runAccesses_grown hs₁
      exact back.grown hg
  dsimp only at ho
  split at ho <;> cases ho
  · exact injected
  · exact injected.grown (Grown.same rfl rfl rfl rfl rfl rfl)

lemma cond_cases {address : ℕ} (h : X86UnicornCond.speculateInstruction s address insn = some s') :
    s'=s ∨ s.checkpoints.length<s.nesting ∧ ∃ d,
      X86UnicornCond.decode insn.bytes s.cpu.eflags (s.cpu.reg .C) = some d ∧ d.1 ≠ 0 ∧
        s' = X86UnicornCond.mispredicted s (address+insn.size) d := by
  rw [X86UnicornCond.speculateInstruction_eq] at h
  split at h
  · exact Or.inl (Option.some.inj h).symm
  · rename_i room
    obtain ⟨d,hd,rfl⟩ := Option.map_eq_some_iff.mp h
    by_cases hz : d.1=0
    · exact Or.inl (if_pos hz)
    · exact Or.inr ⟨Nat.not_le.mp room,d,hd,hz,if_neg hz⟩

lemma bpas_cases {address : ℕ} (h : X86UnicornBpas.speculateInstruction s address = some s') :
    (∃ p, s' = { s with previousStore := p }) ∨
      s'.checkpoints = (s.opened address).checkpoints ∧ s'.inSpeculation=true := by
  rw [X86UnicornBpas.speculateInstruction_eq] at h
  split at h
  · cases h
    exact Or.inl ⟨_,rfl⟩
  · split at h
    · cases h
      exact Or.inl ⟨_,rfl⟩
    · obtain ⟨bs,-,rfl⟩ := Option.map_eq_some_iff.mp h
      exact Or.inr ⟨rfl,rfl⟩

lemma bpas_cpu {address : ℕ} (h : X86UnicornBpas.speculateInstruction s address = some s') :
    s'.cpu = s.cpu := by
  rw [X86UnicornBpas.speculateInstruction_eq] at h
  split at h
  · cases h
    rfl
  · split at h
    · cases h
      rfl
    · obtain ⟨bs,-,rfl⟩ := Option.map_eq_some_iff.mp h
      rfl

/-- Outside of speculation the end of the hook takes notes, sends a branch the wrong way, or
opens a checkpoint at the instruction. -/
lemma Level.speculateInstruction (h : Level s u)
    (hs : speculateInstruction su s s.cpu.rip insn = some s') :
    (∃ p address, s' = { s with previousStore := p, instructionAddress := address } ∧
      (su.clause=.null → address = s.cpu.rip)) ∨
    (0<s.nesting ∧ (su.clause=.cond ∨ su.clause=.condBpas) ∧ ∃ d new,
      X86UnicornCond.decode insn.bytes s.cpu.eflags (s.cpu.reg .C) = some d ∧ d.1 ≠ 0 ∧
      Grown (X86UnicornCond.mispredicted s (s.cpu.rip+insn.size) d) s' new ∧
      s'.cpu = (X86UnicornCond.mispredicted s (s.cpu.rip+insn.size) d).cpu) ∨
    Behind s' u := by
  have positive : s.checkpoints.length<s.nesting → 0<s.nesting := Nat.zero_lt_of_lt
  have bpas : X86UnicornBpas.speculateInstruction s s.cpu.rip = some s' → su.clause ≠ .null →
      (∃ p address, s' = { s with previousStore := p, instructionAddress := address } ∧
        (su.clause=.null → address = s.cpu.rip)) ∨ Behind s' u := by
    intro hb hne
    rcases bpas_cases hb with ⟨p,rfl⟩ | ⟨hc,hspec⟩
    · exact Or.inl ⟨p,s.instructionAddress,rfl,fun hcl => absurd hcl hne⟩
    · exact Or.inr (h.opened rfl hc hspec)
  unfold ProteanAmulet.speculateInstruction at hs
  cases hcl : su.clause <;> rw [hcl] at hs bpas
  case seq =>
    cases hs
    exact Or.inl ⟨_,_,rfl,by simp⟩
  case null =>
    cases hs
    exact Or.inl ⟨_,_,rfl,fun _ => rfl⟩
  case cond =>
    rcases cond_cases hs with rfl | ⟨room,d,hd,hz,rfl⟩
    · exact Or.inl ⟨_,_,rfl,by simp⟩
    · exact Or.inr (Or.inl ⟨positive room,Or.inl rfl,d,[],hd,hz,.refl _,rfl⟩)
  case bpas =>
    rcases bpas hs (by simp) with noted | back
    · exact Or.inl noted
    · exact Or.inr (Or.inr back)
  case condBpas =>
    obtain ⟨s₁,h₁,hs⟩ := Option.bind_eq_some_iff.mp hs
    rcases cond_cases h₁ with rfl | ⟨room,d,hd,hz,rfl⟩
    · rcases bpas hs (by simp) with noted | back
      · exact Or.inl noted
      · exact Or.inr (Or.inr back)
    · obtain ⟨new,hg⟩ := bpas_grown hs
      exact Or.inr (Or.inl ⟨positive room,Or.inr rfl,d,new,hd,hz,hg,bpas_cpu hs⟩)

/-- The execution of an instruction at which no checkpoint was opened before. -/
lemma Level.executeNoted {o p : Outcome} (h : Level s u) (hres : Resumes su s₁) {i : Instruction}
    (hc : Current su s₁ insn i) (hs₁ : s₁.cpu=s.cpu ∧ s₁.checkpoints=[] ∧ s₁.nesting=s.nesting ∧
      s₁.latestRollbackAddress = s.latestRollbackAddress)
    (hstop : s.stopRequested=false ∧ u.stopRequested=false)
    (here : su.clause=.null → s.instructionAddress = s.cpu.rip)
    (ho : ProteanAmulet.execute su insn s.cpu.rip s = some o)
    (hp : ProteanAmulet.execute su.sequential insn u.cpu.rip u = some p) :
    o.Rel Level p ∨ Behind o.state u := by
  obtain ⟨hcpu,hcps,hn,hl⟩ := hs₁
  by_cases hq : Spared su s (insn.accesses s.cpu)
  · exact Or.inl (h.execute hstop hq ho hp)
  · unfold Spared at hq
    push Not at hq
    obtain ⟨hcl,room,elsewhere,a,ha,hw⟩ := hq
    have first : LoadsFirst (insn.accesses s.cpu) := by
      rw [← hcpu]
      refine hres.inject hcps (by omega) hcl ?_ insn i hc
      rw [hcpu,hl,← here hcl]
      exact elsewhere
    exact Or.inr (h.executeInjected hstop.1 hcl room elsewhere (here hcl) first
      ⟨a,ha,by simpa using hw⟩ ho)

/-- A step outside of speculation. Both runs execute the instruction, or the speculative one
leaves it for a transient path: the sequential run waits at the instruction, or behind the
branch that it is. -/
theorem Level.emuStep {o p : Outcome} (h : Level s u) (hres : Resumes su s)
    (hstop : s.stopRequested=false ∧ u.stopRequested=false) (ho : emuStep su s = some o)
    (hp : emuStep su.sequential u = some p) :
    o.Rel Level p ∨ Behind o.state u ∨ ∃ u', p = .running u' ∧ Behind o.state u' := by
  by_cases hend : s.cpu.rip = su.codeEnd
  · unfold ProteanAmulet.emuStep at ho hp
    rw [if_pos hend] at ho
    rw [← h.cpu,if_pos (by exact hend)] at hp
    cases ho
    cases hp
    exact Or.inl h
  cases hf : su.testCase.fetch s.cpu.rip with
  | none =>
    unfold ProteanAmulet.emuStep at ho hp
    rw [if_neg hend,hf] at ho
    rw [← h.cpu,if_neg (by exact hend),show su.sequential.testCase.fetch s.cpu.rip = none from hf]
      at hp
    cases ho
    cases hp
    exact Or.inl h
  | some insn =>
    unfold ProteanAmulet.emuStep at ho hp
    rw [if_neg hend,hf] at ho
    rw [← h.cpu,if_neg (by exact hend),
      show su.sequential.testCase.fetch s.cpu.rip = some insn from hf] at hp
    obtain ⟨s₂,hook,ho⟩ := Option.bind_eq_some_iff.mp ho
    obtain ⟨u₁,hook',hp⟩ := Option.bind_eq_some_iff.mp hp
    rw [instructionHook_eq] at hook
    obtain ⟨i,hi,hook⟩ := Option.bind_eq_some_iff.mp hook
    obtain ⟨s₁,h₁,h₂⟩ := Option.bind_eq_some_iff.mp hook
    rw [counted_outside h.inSpeculation] at h₁
    obtain ⟨tr,tt,rfl⟩ := seqTraceInstruction_traced h₁
    obtain ⟨tr',tt',rfl⟩ := instructionHook_sequential hook'
    rw [h.cpu] at hp
    have current : Current su s insn i := ⟨hend,hf,hi⟩
    have level : Level { s with tracer := tr, taintTracker := tt }
        { u with tracer := tr', taintTracker := tt' } := h.traced ⟨_,_,rfl⟩ ⟨_,_,rfl⟩
    have stop₂ := (speculateInstruction_stop h₂).trans hstop.1
    rcases level.speculateInstruction h₂ with
      ⟨q,address,rfl,here⟩ | ⟨hn,hcl,d,new,hd,hz,hg,hcpu⟩ | back
    · rcases (level.noted q address).executeNoted hres current ⟨rfl,h.checkpoints,rfl,rfl⟩
        ⟨hstop.1,hstop.2⟩ here ho hp with rel | back
      · exact Or.inl rel
      · exact Or.inr (Or.inl ⟨back.bottom,back.inSpeculation,back.sequential⟩)
    · have exact := hres.branch h.checkpoints hn hcl insn i current d hd hz
      have back : Behind s₂ _ := (level.branched exact).grown hg
      have moved : s₂.cpu.rip ≠ s.cpu.rip := by
        have size := insn.size_pos
        rw [hcpu]
        unfold X86UnicornCond.mispredicted
        dsimp only
        split <;> omega
      unfold ProteanAmulet.execute at ho
      rw [if_neg (by simp [stop₂]),if_pos moved] at ho
      cases ho
      refine Or.inr (Or.inr ⟨_,?_,back⟩)
      rw [h.cpu] at exact
      exact ExactBranch.execute exact hstop.2 hp
    · have behind := back.execute ho
      exact Or.inr (Or.inl ⟨behind.bottom,behind.inSpeculation,behind.sequential⟩)

/-- A rollback goes to the checkpoint below, and from the first one back to the sequential
run. -/
theorem Behind.rollback (h : Behind s u) (hr : Recoverable s) (hs : rollback s = some s') :
    Level s' u ∨ Behind s' u := by
  obtain ⟨s₁,h₁,rfl⟩ := Option.map_eq_some_iff.mp hs
  obtain ⟨cps,bot,hc,hcpu,hmem⟩ := h.bottom
  obtain ⟨cp,cps',log,logs,tt,hc',hl,rfl,-⟩ := restore_cases h₁
  have hsnap := hr.restore_eq hc' h₁
  cases cps with
  | nil =>
    obtain ⟨rfl,rfl⟩ := List.cons.inj (hc'.symm.trans hc)
    refine Or.inl ⟨?_,?_,rfl,rfl,h.sequential⟩
    · rw [← hcpu,← hsnap]
      rfl
    · rw [← hmem,← hsnap]
      rfl
  | cons x xs =>
    obtain ⟨rfl,rfl⟩ := List.cons.inj (hc'.symm.trans hc)
    exact Or.inr ⟨⟨xs,bot,rfl,hcpu,hmem⟩,by simp [State.restored],h.sequential⟩

end Steps

end ProteanAmulet
