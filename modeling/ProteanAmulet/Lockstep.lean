import ProteanAmulet.Twin

/-! The hooks and rollbacks of two runs in lockstep: whatever the first run does, the second
one can do, as long as the branches and the exposed values agree. -/
namespace ProteanAmulet

/-- Two runs in the same control state with the same trace. -/
structure Pair (v : View) (vs : List View) (s u : State) : Prop extends Twin v vs s u where
  same : s.tracer.Same u.tracer
  untracked : u.taintTracker = none

namespace Pair
variable {su : Setup} {v w : View} {vs : List View} {s s' u : State}

theorem mono (h : Pair w vs s u) (hvw : v ≤ w) : Pair v vs s u :=
  ⟨h.toTwin.mono hvw,h.same,h.untracked⟩

/-- The tracing part of the instruction hook. -/
theorem seqTraceInstruction {i : Instruction} {address : ℕ} {insn : Insn}
    (hk : su.tracer ≠ .prot) (h : Pair v vs s u)
    (hshown : ∀ tr, su.tracer.analyze su.testCase s.tracer address = some tr →
      ∀ e ∈ su.tracer.instructionExposes tr address insn, Shown s u e)
    (hs : seqTraceInstruction su s i address insn = some s') :
    ∃ u', ProteanAmulet.seqTraceInstruction su u i address insn = some u' ∧ Pair v vs s' u' ∧
      Recordable u' ∧ Traced u u' := by
  have htraced := seqTraceInstruction_traced hs
  obtain ⟨s₁,h₁,hs⟩ := Option.bind_eq_some_iff.mp hs
  obtain ⟨tt,rfl,-⟩ := track_cases h₁
  obtain ⟨u',hu',ht,hn,hsame,hrec⟩ := observeInstruction_twin hk h.untracked
    (s := { s with taintTracker := tt }) h.inSpeculation h.same
    (fun tr htr e he => by have := hshown tr htr e he; cases e <;> exact this) hs
  refine ⟨u',?_,⟨h.toTwin.traced htraced ht,hsame,hn⟩,hrec,ht⟩
  unfold ProteanAmulet.seqTraceInstruction
  rw [track_none h.untracked]
  exact hu'

/-- The tracing part of the memory hook, with the stores logged before. -/
theorem seqTraceMemAccess {insn : Insn} {a : Access} {value value' : ℤ}
    (hk : su.tracer ≠ .prot) (h : Pair v vs s u)
    (hrec : Recordable u)
    (hes : ∀ e ∈ su.tracer.accessExposes s.inSpeculation insn a, Shown s u e)
    (hs : seqTraceMemAccess su s insn a value = some s') :
    ∃ u', ProteanAmulet.seqTraceMemAccess su u insn a value' = some u' ∧ Pair v vs s' u' ∧
      Recordable u' ∧ Traced u u' := by
  have htraced := seqTraceMemAccess_traced hs
  obtain ⟨s₁,h₁,hs⟩ := Option.bind_eq_some_iff.mp hs
  obtain ⟨tt,rfl,-⟩ := track_cases h₁
  obtain ⟨u',hu',ht,hn,hsame,hrec'⟩ := observeMemAccess_twin hk h.untracked
    (s := { s with taintTracker := tt }) h.inSpeculation h.same hrec
    (fun e he => by have := hes e he; cases e <;> exact this) hs
  refine ⟨u',?_,⟨h.toTwin.traced htraced ht,hsame,hn⟩,hrec',ht⟩
  unfold ProteanAmulet.seqTraceMemAccess
  rw [track_none h.untracked]
  exact hu'

end Pair

/-- The target and the kind of a branch are read off its bytes. -/
lemma X86UnicornCond.decode_target {code : List Byte} {f r : BitVec 64} {d : ℕ × Bool × Bool}
    (h : decode code f r = some d) (f' r' : BitVec 64) :
    ∃ b, decode code f' r' = some (d.1,b,d.2.2) := by
  obtain ⟨⟨target,willJump,isLoop⟩,hj,rfl⟩ := Option.map_eq_some_iff.mp h
  suffices hs : ∃ b, jump code f' r' = some (target,b,isLoop) by
    obtain ⟨b,hb⟩ := hs
    exact ⟨b,by unfold decode; rw [hb]; rfl⟩
  have key : ∀ {t : List Byte} {l : Bool} (b b' : Bool),
      some (t,b,l) = some (target,willJump,isLoop) → ∃ b, some (t,b',l) = some (target,b,isLoop) := by
    intro t l b b' hb
    simp only [Option.some.injEq,Prod.mk.injEq] at hb
    exact ⟨b',by rw [hb.1,hb.2.2]⟩
  unfold jump at hj ⊢
  cases code with
  | nil => cases hj
  | cons c₀ code₁ =>
    dsimp only at hj ⊢
    split_ifs at hj ⊢ <;> try exact key _ _ hj
    -- The two-byte opcodes are left.
    cases code₁ with
    | nil => cases hj
    | cons c₁ code₂ =>
      dsimp only at hj ⊢
      split_ifs at hj ⊢ <;> exact key _ _ hj

/-- What the two runs have in common inside an instruction. -/
structure Ready (su : Setup) (s u : State) : Prop where
  recordable : Recordable u
  address : su.clause=.null → s.instructionAddress = u.instructionAddress

/-- The branch goes the same way in both states. -/
def SameBranch (v : View) (insn : Insn) (s u : State) : Prop :=
  s.checkpoints.length<s.nesting →
    ∀ d, X86UnicornCond.decode insn.bytes s.cpu.eflags (s.cpu.reg .C) = some d → d.1 ≠ 0 →
      X86UnicornCond.decode insn.bytes u.cpu.eflags (u.cpu.reg .C) = some d ∧
        (d.2.2 = true → v.reg .C)

/-- The second run follows an operation of the first that opens `n` checkpoints. -/
structure Follows (v : View) (vs : List View) (n : ℕ) (s s' u u' : State) : Prop where
  pair : Pair v (List.replicate n v ++ vs) s' u'
  tracker : s'.taintTracker = s.taintTracker.map (TaintTracker.checkpoint^[n])
  recordable : Recordable u → Recordable u'

lemma Follows.refl {v : View} {vs : List View} {s u : State} (h : Pair v vs s u) :
    Follows v vs 0 s s u u :=
  ⟨h,by cases s.taintTracker <;> rfl,id⟩

lemma Follows.trans {v : View} {vs : List View} {n n' : ℕ} {s₁ s₂ s₃ u₁ u₂ u₃ : State}
    (h : Follows v vs n s₁ s₂ u₁ u₂)
    (h' : Follows v (List.replicate n v ++ vs) n' s₂ s₃ u₂ u₃) :
    Follows v vs (n'+n) s₁ s₃ u₁ u₃ := by
  refine ⟨?_,?_,h'.recordable ∘ h.recordable⟩
  · have hp := h'.pair
    rwa [← List.append_assoc,List.replicate_append_replicate] at hp
  · rw [h'.tracker,h.tracker,Option.map_map,← Function.iterate_add]

namespace Pair
variable {su : Setup} {v w : View} {vs : List View} {s s' u : State}

/-- A checkpoint that changes the state further only where the two agree. -/
theorem follows_opened {u' : State} (h : Twin v (v :: vs) s' u')
    (hs : s'.tracer = s.tracer) (hst : s'.taintTracker = s.taintTracker.map .checkpoint)
    (hu : u'.tracer = u.tracer) (hut : u'.taintTracker = u.taintTracker.map .checkpoint)
    (hspec : u'.inSpeculation = true) (hp : Pair v vs s u) : Follows v vs 1 s s' u u' where
  pair := ⟨h,by rw [hs,hu]; exact hp.same,by rw [hut,hp.untracked]; rfl⟩
  tracker := hst
  recordable := fun _ hn => absurd hspec (by simp [hn])

lemma setReg_cpus {c c' : Cpu} (h : v.Cpus c c') (r : Gpr) (f : BitVec 64 → BitVec 64)
    (hr : v.reg r) : v.Cpus (c.setReg r (f (c.reg r))) (c'.setReg r (f (c'.reg r))) := by
  refine ⟨h.rip,fun r' hr' => ?_,h.flag,h.rest⟩
  unfold Cpu.setReg
  by_cases hrr : r'=r
  · subst hrr
    simp only [Function.update_self,h.reg r' hr]
  · simp only [Function.update_of_ne hrr,h.reg r' hr']

theorem mispredicted (h : Pair v vs s u) (next : ℕ) {d : ℕ × Bool × Bool}
    (hd : d.2.2 = true → v.reg .C) :
    Follows v vs 1 s (X86UnicornCond.mispredicted s next d) u
      (X86UnicornCond.mispredicted u next d) := by
  obtain ⟨target,willJump,isLoop⟩ := d
  cases isLoop with
  | false =>
    refine follows_opened ?_ rfl rfl rfl rfl rfl h
    exact { h.toTwin.opened _ with cpus := h.cpus.setRip _ }
  | true =>
    have hc := setReg_cpus h.cpus .C (·-1) (hd rfl)
    have ht := h.toTwin.setCpu v.le_refl hc
    refine follows_opened ?_ rfl rfl rfl rfl rfl h
    exact { ht.opened _ with cpus := hc.setRip _ }

theorem cond {address : ℕ} {insn : Insn} (h : Pair v vs s u) (hb : SameBranch v insn s u)
    (hs : X86UnicornCond.speculateInstruction s address insn = some s') :
    ∃ u' n, X86UnicornCond.speculateInstruction u address insn = some u' ∧
      Follows v vs n s s' u u' ∧
      (s'.cpu = s.cpu ∧ u'.cpu = u.cpu ∨ address<s'.cpu.rip) := by
  rw [X86UnicornCond.speculateInstruction_eq] at hs ⊢
  rw [← h.nesting,← h.toTwin.length_eq]
  split at hs
  · cases hs
    exact ⟨u,0,by rw [if_pos ‹_›],Follows.refl h,Or.inl ⟨rfl,rfl⟩⟩
  · rename_i hlen
    rw [if_neg hlen]
    obtain ⟨d,hd,rfl⟩ := Option.map_eq_some_iff.mp hs
    by_cases hz : d.1=0
    · obtain ⟨b,hb'⟩ := X86UnicornCond.decode_target hd u.cpu.eflags (u.cpu.reg .C)
      refine ⟨u,0,?_,?_,?_⟩
      · rw [hb',Option.map_some,if_pos hz]
      · rw [if_pos hz]
        exact Follows.refl h
      · rw [if_pos hz]
        exact Or.inl ⟨rfl,rfl⟩
    · obtain ⟨hd',hC⟩ := hb (by omega) d hd hz
      refine ⟨_,1,by rw [hd',Option.map_some,if_neg hz],?_,?_⟩
      · rw [if_neg hz]
        exact h.mispredicted _ hC
      · rw [if_neg hz]
        refine Or.inr ?_
        have hsize := insn.size_pos
        obtain ⟨target,willJump,isLoop⟩ := d
        cases willJump <;> cases isLoop <;>
          simp only [X86UnicornCond.mispredicted,if_true,Bool.false_eq_true,if_false] <;> omega

theorem bpas {address : ℕ} (h : Pair v vs s u)
    (hs : X86UnicornBpas.speculateInstruction s address = some s') :
    ∃ u' n, X86UnicornBpas.speculateInstruction u address = some u' ∧
      Follows v vs n s s' u u' ∧ s'.cpu = s.cpu ∧ u'.cpu = u.cpu := by
  have hlen : s.nesting ≤ s.checkpoints.length ↔ u.nesting ≤ u.checkpoints.length := by
    rw [h.nesting,h.toTwin.length_eq]
  rw [X86UnicornBpas.speculateInstruction_eq] at hs ⊢
  split at hs
  · rename_i hle
    cases hs
    exact ⟨u,0,by rw [if_pos (hlen.mp hle)],Follows.refl h,rfl,rfl⟩
  · rename_i hle
    rw [if_neg (mt hlen.mpr hle)]
    have hlt : s.checkpoints.length<s.nesting := by omega
    have hstore := h.pendingStore hlt
    split at hs
    · rename_i hp
      cases hs
      refine ⟨{ u with previousStore := {} },0,by rw [if_pos (hstore.address.symm.trans hp)],
        ⟨⟨?_,h.same,h.untracked⟩,?_,id⟩,rfl,rfl⟩
      · exact { h.toTwin with pendingStore := fun _ => SameStore.none v rfl rfl }
      · cases s.taintTracker <;> rfl
    · rename_i hp
      have hp' : u.previousStore.address ≠ 0 := by rwa [← hstore.address]
      obtain ⟨bs,hbs,rfl⟩ := Option.map_eq_some_iff.mp hs
      obtain ⟨bs',hbs'⟩ := Option.isSome_iff_exists.mp (hstore.fits hp (by rw [hbs]; rfl))
      refine ⟨X86UnicornBpas.bypassed u address bs',1,
        by rw [if_neg hp',hbs',Option.map_some],?_,rfl,rfl⟩
      exact follows_opened (h.toTwin.bypassed hlt hp address bs bs') rfl rfl rfl rfl rfl h

/-- The speculating part of the instruction hook: afterwards the processors are as before, or
the instruction was skipped. -/
theorem speculateInstruction {address : ℕ} {insn : Insn} (h : Pair v vs s u)
    (hb : su.clause=.cond ∨ su.clause=.condBpas → SameBranch v insn s u)
    (hs : speculateInstruction su s address insn = some s') :
    ∃ u' n, ProteanAmulet.speculateInstruction su u address insn = some u' ∧
      Follows v vs n s s' u u' ∧
      (su.clause=.null → s'.instructionAddress = u'.instructionAddress) ∧
      (s'.cpu = s.cpu ∧ u'.cpu = u.cpu ∨ address<s'.cpu.rip) := by
  unfold ProteanAmulet.speculateInstruction at hs ⊢
  cases hcl : su.clause <;> rw [hcl] at hs
  case seq =>
    cases hs
    exact ⟨u,0,rfl,Follows.refl h,nofun,Or.inl ⟨rfl,rfl⟩⟩
  case cond =>
    obtain ⟨u',n,hu',hf,hc⟩ := h.cond (hb (Or.inl hcl)) hs
    exact ⟨u',n,hu',hf,nofun,hc⟩
  case bpas =>
    obtain ⟨u',n,hu',hf,hc⟩ := h.bpas hs
    exact ⟨u',n,hu',hf,nofun,Or.inl hc⟩
  case null =>
    cases hs
    refine ⟨{ u with instructionAddress := address },0,rfl,
      ⟨⟨{ h.toTwin with },h.same,h.untracked⟩,?_,id⟩,fun _ => rfl,Or.inl ⟨rfl,rfl⟩⟩
    cases s.taintTracker <;> rfl
  case condBpas =>
    obtain ⟨s₁,h₁,hs⟩ := Option.bind_eq_some_iff.mp hs
    obtain ⟨u₁,n₁,hu₁,hf₁,hc₁⟩ := h.cond (hb (Or.inr hcl)) h₁
    obtain ⟨u',n₂,hu',hf₂,hc₂,hc₂'⟩ := hf₁.pair.bpas hs
    refine ⟨u',n₂+n₁,?_,hf₁.trans hf₂,nofun,?_⟩
    · simp only [Option.bind_eq_bind,hu₁,Option.bind_some,hu']
    · rw [hc₂,hc₂']
      exact hc₁

/-- The instruction hook. The tracing needs the larger view, the rest of the step only the
smaller one. -/
theorem instructionHook {address : ℕ} {insn : Insn} (hk : su.tracer ≠ .prot)
    (h : Pair v vs s u) (hwv : w ≤ v)
    (hshown : ∀ tr, su.tracer.analyze su.testCase s.tracer address = some tr →
      ∀ e ∈ su.tracer.instructionExposes tr address insn, Shown s u e)
    (hb : su.clause=.cond ∨ su.clause=.condBpas → SameBranch w insn s u)
    (hs : instructionHook su s address insn = some s') :
    ∃ i s₁ u' n, su.testCase.addressMap ((address : ℤ)-su.codeStart) = some i ∧
      ProteanAmulet.seqTraceInstruction su (counted su s i) i address insn = some s₁ ∧
      ProteanAmulet.instructionHook su u address insn = some u' ∧
      Pair w (List.replicate n w ++ vs) s' u' ∧ Ready su s' u' ∧
      s'.taintTracker = s₁.taintTracker.map (TaintTracker.checkpoint^[n]) ∧
      (s'.cpu = s.cpu ∧ u'.cpu = u.cpu ∨ address<s'.cpu.rip) := by
  rw [instructionHook_eq] at hs ⊢
  obtain ⟨i,hi,hs⟩ := Option.bind_eq_some_iff.mp hs
  obtain ⟨s₁,h₁,hs⟩ := Option.bind_eq_some_iff.mp hs
  obtain ⟨wd,b,hcs⟩ := counted_eq su s i
  obtain ⟨wd',b',hcu⟩ := counted_eq su u i
  have hc : Pair v vs (ProteanAmulet.counted su s i) (ProteanAmulet.counted su u i) :=
    ⟨h.toTwin.counted su i,by rw [hcs,hcu]; exact h.same,by rw [hcu]; exact h.untracked⟩
  have hshown' : ∀ tr, su.tracer.analyze su.testCase (ProteanAmulet.counted su s i).tracer
      address = some tr → ∀ e ∈ su.tracer.instructionExposes tr address insn,
        Shown (ProteanAmulet.counted su s i) (ProteanAmulet.counted su u i) e := by
    rw [hcs,hcu]
    intro tr htr e he
    have := hshown tr htr e he
    cases e <;> exact this
  obtain ⟨u₁,hu₁,hp₁,hrec,htu⟩ := Pair.seqTraceInstruction hk hc hshown' h₁
  have hts := seqTraceInstruction_traced h₁
  have hb' : su.clause=.cond ∨ su.clause=.condBpas → SameBranch w insn s₁ u₁ := by
    intro hcl
    have := hb hcl
    rw [hcs] at hts
    rw [hcu] at htu
    obtain ⟨_,_,rfl⟩ := hts
    obtain ⟨_,_,rfl⟩ := htu
    exact this
  have hcpu : s₁.cpu = s.cpu ∧ u₁.cpu = u.cpu := by
    rw [hcs] at hts
    rw [hcu] at htu
    obtain ⟨_,_,rfl⟩ := hts
    obtain ⟨_,_,rfl⟩ := htu
    exact ⟨rfl,rfl⟩
  obtain ⟨u',n,hu',hf,hia,hc'⟩ := (hp₁.mono hwv).speculateInstruction hb' hs
  refine ⟨i,s₁,u',n,hi,h₁,?_,hf.pair,⟨hf.recordable hrec,hia⟩,hf.tracker,?_⟩
  · rw [hi,Option.bind_some,hu₁,Option.bind_some,hu']
  · rwa [hcpu.1,hcpu.2] at hc'

theorem setCpu {c c' : Cpu} (h : Pair w vs s u) (hvw : v ≤ w) (hc : v.Cpus c c') :
    Pair v vs { s with cpu := c } { u with cpu := c' } :=
  ⟨h.toTwin.setCpu hvw hc,h.same,h.untracked⟩

theorem resumed (h : Pair v vs s u) :
    Pair v vs { s with stopRequested := false } { u with stopRequested := false } :=
  ⟨{ h.toTwin with stopRequested := rfl },h.same,h.untracked⟩

theorem logged (h : Pair v vs s u) (a : Access) :
    Pair v vs (logged su s a) (ProteanAmulet.logged su u a) := by
  obtain ⟨l,hl⟩ := logged_eq su s a
  obtain ⟨l',hl'⟩ := logged_eq su u a
  rw [hl,hl']
  exact ⟨{ h.toTwin with },h.same,h.untracked⟩

/-- A load in both runs. From here on the two need to agree only on the smaller view. -/
theorem load {insn : Insn} {a : Access} (hk : su.tracer ≠ .prot) (h : Pair v vs s u)
    (hwv : w ≤ v) (hrec : Ready su s u)
    (hw : a.isWrite=false) (hes : ∀ e ∈ su.tracer.accessExposes s.inSpeculation insn a, Shown s u e)
    (hs : traceMemAccess su s insn a 0 = some s') :
    ∃ s₁ u' n, ProteanAmulet.seqTraceMemAccess su s insn a 0 = some s₁ ∧
      traceMemAccess su u insn a 0 = some u' ∧ Follows w vs n s₁ s' u u' ∧ Ready su s' u' ∧
      s'.cpu = s.cpu ∧ u'.cpu = u.cpu ∧
      (s'.mem = s.mem ∧ u'.mem = u.mem ∨
        Memory.read s'.mem a.address a.size = Memory.read u'.mem a.address a.size) ∧
      (n=0 ∨ n=1 ∧ su.clause=.null ∧ X86UnicornNull.Injects s₁ a) := by
  rw [traceMemAccess_eq,logged_load su s hw] at hs
  obtain ⟨s₁,h₁,hs⟩ := Option.bind_eq_some_iff.mp hs
  obtain ⟨u₁,hu₁,hp,hrec',ht⟩ := Pair.seqTraceMemAccess hk h hrec.recordable hes h₁
  have hts := seqTraceMemAccess_traced h₁
  have hp' := hp.mono hwv
  have hia : su.clause=.null → s₁.instructionAddress = u₁.instructionAddress := by
    have := hrec.address
    obtain ⟨_,_,rfl⟩ := hts
    obtain ⟨_,_,rfl⟩ := ht
    exact this
  have hcs : s₁.cpu = s.cpu ∧ s₁.mem = s.mem := by
    obtain ⟨_,_,rfl⟩ := hts
    exact ⟨rfl,rfl⟩
  have hcu : u₁.cpu = u.cpu ∧ u₁.mem = u.mem := by
    obtain ⟨_,_,rfl⟩ := ht
    exact ⟨rfl,rfl⟩
  rw [traceMemAccess_eq,logged_load su u hw,hu₁,Option.bind_some]
  rw [speculateMemAccess_load su _ insn 0 hw] at hs ⊢
  obtain rfl := Option.some.inj hs
  by_cases hi : su.clause=.null ∧ X86UnicornNull.Injects s₁ a
  · rw [if_pos hi,if_pos ⟨hi.1,(hp.toTwin.injects_iff (hia hi.1) a).mp hi.2⟩]
    have hf := follows_opened (s := s₁) (u := u₁) (hp'.toTwin.zeroed (hia hi.1) a) rfl rfl rfl rfl rfl hp'
    refine ⟨s₁,_,1,h₁,rfl,⟨hf.pair,hf.tracker,fun _ => hf.recordable hrec'⟩,
      ⟨hf.recordable hrec',hia⟩,hcs.1,hcu.1,Or.inr ?_,Or.inr ⟨rfl,hi⟩⟩
    have hz : ∀ m : Mem, Memory.read (Memory.write m a.address (List.replicate a.size 0))
        a.address a.size = List.replicate a.size 0 := by
      intro m
      have := Memory.read_write_self m a.address (List.replicate a.size 0)
      rwa [List.length_replicate] at this
    exact (hz _).trans (hz _).symm
  · rw [if_neg hi,if_neg fun hi' => hi ⟨hi'.1,(hp.toTwin.injects_iff (hia hi'.1) a).mpr hi'.2⟩]
    exact ⟨s₁,u₁,0,h₁,rfl,⟨hp',by cases s₁.taintTracker <;> rfl,fun _ => hrec'⟩,
      ⟨hrec',hia⟩,hcs.1,hcu.1,Or.inl ⟨hcs.2,hcu.2⟩,Or.inl rfl⟩

/-- A store in both runs; the stored values have to agree if the view shows any of it. -/
theorem store {insn : Insn} {a : Access} {value value' : ℤ} (hk : su.tracer ≠ .prot)
    (h : Pair v vs s u) (hwv : w ≤ v)
    (hrec : Ready su s u) (hw : a.isWrite=true)
    (hes : ∀ e ∈ su.tracer.accessExposes s.inSpeculation insn a, Shown s u e)
    (hval : ∀ x, w.mem x → a.address ≤ x → x<a.address+a.size → value = value')
    (hfit : su.clause.bypasses → (toBytes value a.size).isSome → (toBytes value' a.size).isSome)
    (hs : traceMemAccess su s insn a value = some s') :
    ∃ s₁ u', ProteanAmulet.seqTraceMemAccess su (ProteanAmulet.logged su s a) insn a value =
        some s₁ ∧ traceMemAccess su u insn a value' = some u' ∧
      s'.taintTracker = s₁.taintTracker ∧ s'.cpu = s.cpu ∧ u'.cpu = u.cpu ∧ Ready su s' u' ∧
      Pair w vs { s' with mem := Memory.write s'.mem a.address (leBytes value a.size) }
        { u' with mem := Memory.write u'.mem a.address (leBytes value' a.size) } := by
  rw [traceMemAccess_eq] at hs ⊢
  obtain ⟨s₁,h₁,hs⟩ := Option.bind_eq_some_iff.mp hs
  have hes' : ∀ e ∈ su.tracer.accessExposes (ProteanAmulet.logged su s a).inSpeculation insn a,
      Shown (ProteanAmulet.logged su s a) (ProteanAmulet.logged su u a) e := by
    obtain ⟨l,hl⟩ := logged_eq su s a
    obtain ⟨l',hl'⟩ := logged_eq su u a
    rw [hl,hl']
    intro e he
    have := hes e he
    cases e <;> exact this
  have hrecl : Recordable (ProteanAmulet.logged su u a) := by
    obtain ⟨l',hl'⟩ := logged_eq su u a
    rw [hl']
    exact hrec.recordable
  obtain ⟨u₁,hu₁,hp,hrec',ht⟩ := Pair.seqTraceMemAccess hk (h.logged a) hrecl hes' h₁
  rw [hu₁,Option.bind_some]
  rw [speculateMemAccess_store su _ insn value hw] at hs
  rw [speculateMemAccess_store su _ insn value' hw]
  obtain rfl := Option.some.inj hs
  have hts := seqTraceMemAccess_traced h₁
  have hcs : s₁.cpu = s.cpu := by
    obtain ⟨_,_,rfl⟩ := hts
    obtain ⟨l,hl⟩ := logged_eq su s a
    rw [hl]
  have hcu : u₁.cpu = u.cpu := by
    obtain ⟨_,_,rfl⟩ := ht
    obtain ⟨l,hl⟩ := logged_eq su u a
    rw [hl]
  have hp' := hp.mono hwv
  have hia : su.clause=.null → s₁.instructionAddress = u₁.instructionAddress := by
    have := hrec.address
    obtain ⟨l,hl⟩ := logged_eq su s a
    obtain ⟨l',hl'⟩ := logged_eq su u a
    rw [hl] at hts
    rw [hl'] at ht
    obtain ⟨_,_,rfl⟩ := hts
    obtain ⟨_,_,rfl⟩ := ht
    exact this
  have hbs : ∀ x, w.mem x → a.address ≤ x →
      (leBytes value a.size)[x-a.address]? = (leBytes value' a.size)[x-a.address]? := by
    intro x hx hle
    by_cases hlt : x<a.address+a.size
    · rw [hval x hx hle hlt]
    · rw [List.getElem?_eq_none (by simp; omega),List.getElem?_eq_none (by simp; omega)]
  have hmem := hp'.mems.write hbs
  cases hc : su.clause.bypasses && !X86UnicornBpas.isCall insn with
  | false =>
    exact ⟨s₁,u₁,h₁,rfl,rfl,hcs,hcu,⟨hrec',hia⟩,
      ⟨{ hp'.toTwin with mems := hmem },hp'.same,hp'.untracked⟩⟩
  | true =>
    have hby : su.clause.bypasses = true := by
      cases hb : su.clause.bypasses <;> simp [hb] at hc ⊢
    refine ⟨s₁,_,h₁,rfl,rfl,hcs,hcu,⟨hrec',hia⟩,⟨?_,hp'.same,hp'.untracked⟩⟩
    refine { hp'.toTwin with
      mems := hmem
      pendingStore := fun _ => ⟨rfl,fun _ x hx hle => ?_,fun _ => hfit hby⟩ }
    have hle' : a.address ≤ x := hle
    change (Memory.read s₁.mem a.address a.size)[x-a.address]? =
      (Memory.read u₁.mem a.address a.size)[x-a.address]?
    rw [Memory.read_getElem?,Memory.read_getElem?,Nat.add_sub_cancel' hle',hp'.mems x hx]

/-- A rollback in both runs goes back to the view of the checkpoint. -/
theorem rollback (h : Pair v vs s u) (hrs : Recoverable s) (hru : Recoverable u)
    (hr : rollback s = some s') :
    ∃ w ws u', vs = w :: ws ∧ ProteanAmulet.rollback u = some u' ∧ Pair w ws s' u' ∧
      (s.taintTracker = none ∧ s'.taintTracker = none ∨
        ∃ t t', s.taintTracker = some t ∧ t.rollback = some t' ∧ s'.taintTracker = some t') := by
  obtain ⟨s₁,hs₁,rfl⟩ := Option.map_eq_some_iff.mp hr
  obtain ⟨cp,cps,log,logs,tt,hc,hl,rfl,htt⟩ := restore_cases hs₁
  have hstack := h.stack
  rw [hc] at hstack
  obtain ⟨w,ws,cp',cps',rfl,hcu,⟨hnext,hwin,hcpu,hmem⟩,hstack⟩ := hstack.of_cons
  obtain ⟨log',logs',hlu⟩ := hru.exists_log hcu
  have hu₁ := restore_none hcu hlu h.untracked
  have hsnap := hrs.restore_eq hc hs₁
  have hsnap' := hru.restore_eq hcu hu₁
  have hcs : { cp.context with eflags := cp.flags } = cp.atCall.cpu :=
    congrArg Snapshot.cpu hsnap
  have hcs' : { cp'.context with eflags := cp'.flags } = cp'.atCall.cpu :=
    congrArg Snapshot.cpu hsnap'
  have hms : Memory.undo log s.mem = cp.atCall.mem := congrArg Snapshot.mem hsnap
  have hms' : Memory.undo log' u.mem = cp'.atCall.mem := congrArg Snapshot.mem hsnap'
  refine ⟨w,ws,{ u.restored cp' cps' log' logs' with
      cpu := { (u.restored cp' cps' log' logs').cpu with rip := cp'.nextInstruction } },rfl,
    by unfold ProteanAmulet.rollback; rw [hu₁]; rfl,⟨?_,h.same,h.untracked⟩,htt⟩
  have hlen : cps.isEmpty = cps'.isEmpty := by
    have := hstack.length_eq
    cases cps <;> cases cps' <;> simp_all
  exact
    { cpus := by
        change w.Cpus { ({ cp.context with eflags := cp.flags } : Cpu) with
          rip := cp.nextInstruction } { ({ cp'.context with eflags := cp'.flags } : Cpu) with
          rip := cp'.nextInstruction }
        rw [hcs,hcs',hnext]
        exact hcpu.setRip _
      mems := by
        change w.Mems (Memory.undo log s.mem) (Memory.undo log' u.mem)
        rw [hms,hms']
        exact hmem
      nesting := h.nesting
      inSpeculation := congrArg (!·) hlen
      speculationWindow := hwin
      latestRollbackAddress := hnext
      stopRequested := h.stopRequested
      stack := hstack
      pendingStore := fun _ => SameStore.none w rfl rfl }

end Pair

/-- The emulator executes `insn` in state `s`; `s'` is the state after the instruction hook. -/
structure Executes (su : Setup) (s : State) (insn : Insn) (s' : State) : Prop where
  running : s.cpu.rip ≠ su.codeEnd
  fetch : su.testCase.fetch s.cpu.rip = some insn
  hook : instructionHook su s s.cpu.rip insn = some s'
  goes : s'.stopRequested=false
  stays : s'.cpu.rip = s.cpu.rip

/-- The instruction executed next faults, after its accesses. -/
def FaultsNext (su : Setup) (s : State) : Prop :=
  ∃ insn s' seen s'', Executes su s insn s' ∧
    runAccesses su insn s'.cpu (insn.accesses s'.cpu) [] s' = some (seen,s'') ∧
    insn.faults s'.cpu seen = true

lemma Executes.faultsNext {su : Setup} {s s' s'' : State} {insn : Insn} {seen : List (List Byte)}
    (h : Executes su s insn s')
    (hacc : runAccesses su insn s'.cpu (insn.accesses s'.cpu) [] s' = some (seen,s'')) :
    FaultsNext su s ↔ insn.faults s'.cpu seen = true := by
  refine ⟨?_,fun hf => ⟨insn,s',seen,s'',h,hacc,hf⟩⟩
  rintro ⟨insn₁,s₁,seen₁,s₂,h₁,hacc₁,hf⟩
  obtain rfl : insn=insn₁ := Option.some.inj (h.fetch.symm.trans h₁.fetch)
  obtain rfl : s'=s₁ := Option.some.inj (h.hook.symm.trans h₁.hook)
  obtain rfl : seen=seen₁ := congrArg Prod.fst (Option.some.inj (hacc.symm.trans hacc₁))
  exact hf

/-- The outcomes are of the same kind, with related states. -/
def Outcome.Rel (R : State → State → Prop) : Outcome → Outcome → Prop
  | .running s, .running u => R s u
  | .returned s, .returned u => R s u
  | .fault s, .fault u => R s u
  | _, _ => False

section Runs
variable {su : Setup}

/-- The two instruction hooks lead to related states, and so does the execution. -/
theorem emuStep_rel {R : State → State → Prop} {s u : State} {o : Outcome} (hR : R s u)
    (hrip : s.cpu.rip = u.cpu.rip)
    (hhook : ∀ insn s', s.cpu.rip ≠ su.codeEnd → su.testCase.fetch s.cpu.rip = some insn →
      instructionHook su s s.cpu.rip insn = some s' →
      ∃ u', instructionHook su u u.cpu.rip insn = some u' ∧
        s'.stopRequested = u'.stopRequested ∧ s'.cpu.rip = u'.cpu.rip ∧
        (s'.stopRequested=true →
          R { s' with stopRequested := false } { u' with stopRequested := false }) ∧
        (s'.stopRequested=false → s'.cpu.rip ≠ s.cpu.rip → R s' u') ∧
        (Executes su s insn s' → Executes su u insn u' → ∀ seen s'',
          runAccesses su insn s'.cpu (insn.accesses s'.cpu) [] s' = some (seen,s'') →
          ∃ seen' u'', runAccesses su insn u'.cpu (insn.accesses u'.cpu) [] u' =
              some (seen',u'') ∧
            insn.faults s'.cpu seen = insn.faults u'.cpu seen' ∧ R s'' u'' ∧
            R { s'' with cpu := insn.finish s'.cpu seen }
              { u'' with cpu := insn.finish u'.cpu seen' }))
    (ho : emuStep su s = some o) : ∃ o', emuStep su u = some o' ∧ o.Rel R o' := by
  unfold emuStep at ho ⊢
  rw [← hrip]
  split at ho
  · rename_i hend
    cases ho
    exact ⟨.returned u,by rw [if_pos hend],hR⟩
  · rename_i hend
    rw [if_neg hend]
    cases hf : su.testCase.fetch s.cpu.rip with
    | none =>
      rw [hf] at ho
      cases ho
      exact ⟨.fault u,rfl,hR⟩
    | some insn =>
      rw [hf] at ho
      obtain ⟨s',hs',ho⟩ := Option.bind_eq_some_iff.mp ho
      obtain ⟨u',hu',hstop,hrip',hRstop,hRgo,hexec⟩ := hhook insn s' hend hf hs'
      rw [← hrip] at hu'
      dsimp only
      rw [hu']
      simp only [Option.bind_eq_bind,Option.bind_some]
      unfold execute at ho ⊢
      rw [← hstop,← hrip']
      split at ho
      · cases ho
        exact ⟨.returned { u' with stopRequested := false },by rw [if_pos ‹_›],hRstop ‹_›⟩
      · rename_i hgo
        rw [if_neg hgo]
        split at ho
        · cases ho
          exact ⟨.running u',by rw [if_pos ‹_›],hRgo (by simpa using hgo) ‹_›⟩
        · rename_i hstay
          rw [if_neg hstay]
          obtain ⟨⟨seen,s''⟩,hacc,ho⟩ := Option.bind_eq_some_iff.mp ho
          have hgo' : s'.stopRequested=false := by simpa using hgo
          have hstay' : s'.cpu.rip = s.cpu.rip := by simpa using hstay
          obtain ⟨seen',u'',hacc',hfault,hRa,hRf⟩ := hexec ⟨hend,hf,hs',hgo',hstay'⟩
            ⟨by rwa [← hrip],by rwa [← hrip],by rwa [← hrip],by rwa [← hstop],
              by rwa [← hrip',← hrip]⟩ seen s'' hacc
          rw [hacc']
          simp only [Option.bind_eq_bind,Option.bind_some]
          dsimp only at ho
          rw [← hfault]
          split at ho
          · cases ho
            exact ⟨.fault u'',by rw [if_pos ‹_›]; rfl,hRa⟩
          · cases ho
            exact ⟨.running { u'' with cpu := insn.finish u'.cpu seen' },
              by rw [if_neg ‹_›]; rfl,hRf⟩

/-- Related outcomes lead to related configurations in the same phase. -/
theorem Outcome.Rel.next {R : State → State → Prop} {o o' : Outcome} (h : o.Rel R o')
    (hspec : ∀ {s u}, R s u → s.inSpeculation = u.inSpeculation) (first : Bool) :
    (o.next first).phase = (o'.next first).phase ∧
      R (o.next first).state (o'.next first).state := by
  cases o with
  | running s =>
    cases o' with
    | running u => exact ⟨rfl,h⟩
    | returned | fault => exact h.elim
  | returned s =>
    cases o' with
    | returned u => exact ⟨rfl,h⟩
    | running | fault => exact h.elim
  | fault s =>
    cases o' with
    | fault u => exact ⟨by simp only [Outcome.next,hspec h],h⟩
    | running | returned => exact h.elim

/-- The configurations of a run. -/
def Visits (su : Setup) (c₀ c : Config) : Prop := ∃ n, ticks su n c₀ = some c

lemma Visits.refl (c : Config) : Visits su c c := ⟨0,rfl⟩

lemma ticks_succ {n : ℕ} {c₀ c c' : Config} (h : ticks su n c₀ = some c)
    (ht : tick su c = some c') : ticks su (n+1) c₀ = some c' := by
  induction n generalizing c₀ with
  | zero =>
    cases h
    unfold ticks
    rw [ht]
    rfl
  | succ n ih =>
    obtain ⟨c₁,h₁,h⟩ := Option.bind_eq_some_iff.mp h
    rw [ticks,h₁]
    exact ih h

lemma Visits.tick {c₀ c c' : Config} (h : Visits su c₀ c) (ht : tick su c = some c') :
    Visits su c₀ c' := by
  obtain ⟨n,hn⟩ := h
  exact ⟨n+1,ticks_succ hn ht⟩

/-- A test of all the states of a run that ends. -/
def holds (su : Setup) (p : State → Bool) : ℕ → Config → Bool
  | 0, _ => false
  | n+1, c => p c.state && match c.phase with
    | .finished | .exited => true
    | _ => match tick su c with
      | none => true
      | some c' => holds su p n c'

theorem holds_visits {p : State → Bool} {n : ℕ} {c c' : Config} (h : holds su p n c = true)
    (hv : Visits su c c') : p c'.state = true := by
  obtain ⟨m,hm⟩ := hv
  induction n generalizing c m with
  | zero => cases h
  | succ n ih =>
    unfold holds at h
    obtain ⟨hp,h⟩ := Bool.and_eq_true_iff.mp h
    cases m with
    | zero =>
      cases hm
      exact hp
    | succ m =>
      obtain ⟨c₁,h₁,hrest⟩ := Option.bind_eq_some_iff.mp hm
      obtain ⟨phase,s⟩ := c
      have hstay : ∀ {k : ℕ} {c : Config}, tick su c = some c → ticks su k c = some c' → c'=c := by
        intro k c hc hk
        induction k with
        | zero => exact (Option.some.inj hk).symm
        | succ k ihk =>
          rw [ticks,hc,Option.bind_some] at hk
          exact ihk hk
      cases phase with
      | finished =>
        cases h₁
        rw [hstay rfl hrest]
        exact hp
      | exited =>
        cases h₁
        rw [hstay rfl hrest]
        exact hp
      | emulating first =>
        dsimp only at h
        rw [h₁] at h
        exact ih h m hrest
      | draining =>
        dsimp only at h
        rw [h₁] at h
        exact ih h m hrest

/-- A relation that every step keeps is kept by a whole run. -/
theorem run_rel {R : Config → Config → Prop} {fuel : ℕ} {c d : Config} {s : State}
    (hphase : ∀ {c d}, R c d → c.phase = d.phase)
    (hstep : ∀ {c d c'}, R c d → tick su c = some c' → ∃ d', tick su d = some d' ∧ R c' d')
    (h : R c d) (hs : run su fuel c = some s) :
    ∃ s', run su fuel d = some s' ∧ R ⟨.finished,s⟩ ⟨.finished,s'⟩ := by
  induction fuel generalizing c d with
  | zero => cases hs
  | succ fuel ih =>
    have hp := hphase h
    obtain ⟨phase,t⟩ := c
    obtain ⟨phase',t'⟩ := d
    obtain rfl : phase=phase' := hp
    unfold run at hs ⊢
    cases phase with
    | finished =>
      cases hs
      exact ⟨t',rfl,h⟩
    | exited => cases hs
    | emulating first =>
      obtain ⟨c',hc',hs⟩ := Option.bind_eq_some_iff.mp hs
      obtain ⟨d',hd',h'⟩ := hstep h hc'
      obtain ⟨s',hs',hR⟩ := ih h' hs
      exact ⟨s',by dsimp only; rw [hd']; exact hs',hR⟩
    | draining =>
      obtain ⟨c',hc',hs⟩ := Option.bind_eq_some_iff.mp hs
      obtain ⟨d',hd',h'⟩ := hstep h hc'
      obtain ⟨s',hs',hR⟩ := ih h' hs
      exact ⟨s',by dsimp only; rw [hd']; exact hs',hR⟩

end Runs

end ProteanAmulet
