import Mathlib.Logic.Hydra
import ProteanAmulet.Model.Asm
import ProteanAmulet.Speculation

/-! The loop of rollbacks ends. The current path and the open checkpoints are the heads of a
hydra: a step of the emulator cuts off the path and lets shorter ones grow, and a rollback turns
a checkpoint into the path that starts there. -/
namespace ProteanAmulet
open Relation

/-- All that is fetched lies below a bound, and every instruction that is executed leads to a
higher address. -/
structure TestCase.Forward (tc : TestCase) : Prop where
  finite : ∃ bound, ∀ address, bound ≤ address → tc.fetch address = none
  forward : ∀ {address insn}, tc.fetch address = some insn →
    ∀ c seen, c.rip = address → address<(insn.finish c seen).rip

/-- The second state has more checkpoints, all with the property. -/
def Pushes (P : Checkpoint → Prop) (s s' : State) : Prop :=
  ∃ new, s'.checkpoints = new ++ s.checkpoints ∧ ∀ cp ∈ new, P cp

namespace Pushes
variable {P Q : Checkpoint → Prop} {s s' s'' : State}

lemma same (h : s'.checkpoints = s.checkpoints) : Pushes P s s' := ⟨[],h,by simp⟩

lemma one {cp : Checkpoint} (h : s'.checkpoints = cp :: s.checkpoints) (hp : P cp) :
    Pushes P s s' := ⟨[cp],h,by simpa using hp⟩

lemma trans (h : Pushes P s s') (h' : Pushes P s' s'') : Pushes P s s'' := by
  obtain ⟨new,hn,hp⟩ := h
  obtain ⟨new',hn',hp'⟩ := h'
  refine ⟨new' ++ new,?_,?_⟩
  · rw [hn',hn,List.append_assoc]
  · intro cp hcp
    rcases List.mem_append.mp hcp with hcp | hcp
    · exact hp' cp hcp
    · exact hp cp hcp

lemma mono (h : Pushes P s s') (hpq : ∀ cp, P cp → Q cp) : Pushes Q s s' := by
  obtain ⟨new,hn,hp⟩ := h
  exact ⟨new,hn,fun cp hcp => hpq cp (hp cp hcp)⟩

end Pushes

section Steps
variable (su : Setup)

/-- A rollback may lead back to the next instruction: a store waits for its hook, or its loads
are still to be injected. -/
def Again (s : State) : Prop :=
  su.clause.bypasses=true ∧ s.previousStore.address ≠ 0 ∨
    su.clause=.null ∧ s.cpu.rip ≠ s.latestRollbackAddress

instance (s : State) : Decidable (Again su s) := inferInstanceAs (Decidable (_ ∨ _))

/-- The checkpoint leads behind the address, or to the address itself where that is possible. -/
def LeadsOn (address : ℕ) (again : Prop) (cp : Checkpoint) : Prop :=
  address<cp.nextInstruction ∨ cp.nextInstruction = address ∧ again

variable {su}

lemma cond_leadsOn {s s' : State} {address : ℕ} {insn : Insn}
    (h : X86UnicornCond.speculateInstruction s address insn = some s') :
    s'=s ∨ Pushes (fun cp => address<cp.nextInstruction) s s' ∧ address<s'.cpu.rip ∧
      s'.previousStore = s.previousStore := by
  have size := insn.size_pos
  rw [X86UnicornCond.speculateInstruction_eq] at h
  split at h
  · cases h
    exact Or.inl rfl
  · obtain ⟨⟨target,willJump,isLoop⟩,-,rfl⟩ := Option.map_eq_some_iff.mp h
    split
    · exact Or.inl rfl
    · right
      refine ⟨?_,?_,by cases isLoop <;> rfl⟩
      · cases isLoop <;> refine Pushes.one rfl ?_ <;> dsimp only <;> split <;> omega
      · cases isLoop <;> dsimp only [X86UnicornCond.mispredicted] <;> split <;> omega

lemma bpas_leadsOn {s s' : State} {address : ℕ}
    (h : X86UnicornBpas.speculateInstruction s address = some s') :
    Pushes (fun cp => cp.nextInstruction = address ∧ s.previousStore.address ≠ 0) s s' ∧
      s'.cpu = s.cpu := by
  rw [X86UnicornBpas.speculateInstruction_eq] at h
  split at h
  · cases h
    exact ⟨Pushes.same rfl,rfl⟩
  · split at h
    · cases h
      exact ⟨Pushes.same rfl,rfl⟩
    · obtain ⟨bs,-,rfl⟩ := Option.map_eq_some_iff.mp h
      exact ⟨Pushes.one rfl ⟨rfl,‹_›⟩,rfl⟩

/-- The end of the instruction hook. Only a bypassed store leads back to the instruction. -/
lemma speculateInstruction_leadsOn {s s' : State} {address : ℕ} {insn : Insn}
    (h : speculateInstruction su s address insn = some s') :
    Pushes (LeadsOn address (su.clause.bypasses=true ∧ s.previousStore.address ≠ 0)) s s' ∧
      (s'.cpu = s.cpu ∨ address<s'.cpu.rip) ∧
      (su.clause=.null → s'.instructionAddress = address ∧
        s'.latestRollbackAddress = s.latestRollbackAddress) := by
  unfold speculateInstruction at h
  cases hcl : su.clause <;> rw [hcl] at h
  case seq =>
    cases h
    exact ⟨Pushes.same rfl,Or.inl rfl,by simp⟩
  case null =>
    cases h
    exact ⟨Pushes.same rfl,Or.inl rfl,by simp⟩
  case cond =>
    rcases cond_leadsOn h with rfl | ⟨pushes,rip,-⟩
    · exact ⟨Pushes.same rfl,Or.inl rfl,by simp⟩
    · exact ⟨pushes.mono fun cp => Or.inl,Or.inr rip,by simp⟩
  case bpas =>
    obtain ⟨pushes,cpu⟩ := bpas_leadsOn h
    exact ⟨pushes.mono fun cp hcp => Or.inr ⟨hcp.1,rfl,hcp.2⟩,Or.inl cpu,by simp⟩
  case condBpas =>
    obtain ⟨s₁,h₁,h₂⟩ := Option.bind_eq_some_iff.mp h
    obtain ⟨pushes,cpu⟩ := bpas_leadsOn h₂
    rcases cond_leadsOn h₁ with rfl | ⟨pushes₁,rip,store⟩
    · exact ⟨pushes.mono fun cp hcp => Or.inr ⟨hcp.1,rfl,hcp.2⟩,Or.inl cpu,by simp⟩
    · rw [store] at pushes
      refine ⟨?_,Or.inr (by rwa [cpu]),by simp⟩
      exact (pushes₁.mono fun cp => Or.inl).trans
        (pushes.mono fun cp hcp => Or.inr ⟨hcp.1,rfl,hcp.2⟩)

/-- Injected loads lead back to the instruction, unless it is where the last rollback led. -/
lemma runAccesses_leadsOn {insn : Insn} {c : Cpu} {as : List Access}
    {seen seen' : List (List Byte)} {s s' : State}
    (h : runAccesses su insn c as seen s = some (seen',s')) :
    Pushes (fun cp => cp.nextInstruction = s.instructionAddress ∧ su.clause=.null ∧
      s.instructionAddress ≠ s.latestRollbackAddress) s s' := by
  induction as generalizing seen s with
  | nil =>
    cases h
    exact Pushes.same rfl
  | cons a as ih =>
    unfold runAccesses at h
    cases hw : a.isWrite with
    | true =>
      rw [hw,if_pos rfl] at h
      obtain ⟨s₁,h₁,h⟩ := Option.bind_eq_some_iff.mp h
      obtain ⟨_,_,_,rfl,-⟩ := traceMemAccess_store hw h₁
      obtain ⟨logs,hl⟩ := logged_eq su s a
      rw [hl] at h
      have later := ih h
      exact later
    | false =>
      rw [hw,if_neg (by simp)] at h
      obtain ⟨s₁,h₁,h⟩ := Option.bind_eq_some_iff.mp h
      obtain ⟨s₂,ht,hs₁⟩ := traceMemAccess_load hw h₁
      obtain ⟨_,_,rfl⟩ := ht
      have later := ih h
      rcases hs₁ with rfl | ⟨hcl,⟨-,-,elsewhere⟩,rfl⟩
      · exact later
      · refine Pushes.trans (Pushes.one rfl ?_) later
        exact ⟨rfl,hcl,elsewhere⟩

/-- Every checkpoint that a step opens leads on, and so does the path itself. -/
lemma emuStep_leadsOn (hf : su.testCase.Forward) {s : State} {o : Outcome}
    (h : emuStep su s = some o) :
    (o = .returned s ∨ o = .fault s) ∨ su.testCase.fetch s.cpu.rip ≠ none ∧
      Pushes (LeadsOn s.cpu.rip (Again su s)) s o.state ∧
      ∀ s', o = .running s' → s.cpu.rip<s'.cpu.rip := by
  rcases emuStep_grown h with stands | ⟨insn,i,_,hc,-⟩
  · exact Or.inl stands
  right
  refine ⟨by simp [hc.fetch],?_⟩
  unfold emuStep at h
  rw [if_neg hc.inside,hc.fetch] at h
  obtain ⟨s₂,hook,h⟩ := Option.bind_eq_some_iff.mp h
  rw [instructionHook_eq,hc.mapped,Option.bind_some] at hook
  obtain ⟨s₁,h₁,hook⟩ := Option.bind_eq_some_iff.mp hook
  obtain ⟨w,b,hcount⟩ := counted_eq su s i
  rw [hcount] at h₁
  obtain ⟨tr,tt,rfl⟩ := seqTraceInstruction_traced h₁
  obtain ⟨pushes,moves,null⟩ := speculateInstruction_leadsOn hook
  have hooked : Pushes (LeadsOn s.cpu.rip (Again su s)) s s₂ :=
    Pushes.mono pushes fun cp hcp => hcp.imp id fun back => ⟨back.1,Or.inl back.2⟩
  unfold execute at h
  split at h
  · cases h
    exact ⟨hooked,by simp⟩
  split at h
  · rename_i moved
    cases h
    refine ⟨hooked,?_⟩
    rintro _ ⟨⟩
    rcases moves with cpu | on
    · rw [cpu] at moved
      exact absurd rfl moved
    · exact on
  · rename_i stays
    obtain ⟨⟨seen,s₃⟩,accesses,h⟩ := Option.bind_eq_some_iff.mp h
    have injected : Pushes (LeadsOn s.cpu.rip (Again su s)) s₂ s₃ := by
      refine (runAccesses_leadsOn accesses).mono ?_
      rintro cp ⟨next,hcl,elsewhere⟩
      obtain ⟨here,latest⟩ := null hcl
      rw [here,latest] at elsewhere
      exact Or.inr ⟨next.trans here,Or.inr ⟨hcl,elsewhere⟩⟩
    dsimp only at h
    split at h <;> cases h
    · exact ⟨hooked.trans injected,by simp⟩
    · refine ⟨hooked.trans injected,?_⟩
      rintro _ ⟨⟩
      exact hf.forward hc.fetch s₂.cpu seen (not_not.mp stays)

end Steps

section Hydra
variable (su : Setup) (bound : ℕ)

/-- The size of the path that starts at an address. -/
def pathHead (address : ℕ) (again : Bool) : ℕ := 3*(bound-address)+if again then 3 else 1

/-- The size of a checkpoint, between that of the path it leads to and that of the path that
opens it at the same instruction. -/
def checkpointHead (cp : Checkpoint) : ℕ := 3*(bound-cp.nextInstruction)+2

/-- The heads of checkpoints. -/
def checkpointHeads (cps : List Checkpoint) : Multiset ℕ := ↑(cps.map (checkpointHead bound))

lemma checkpointHeads_append (new cps : List Checkpoint) :
    checkpointHeads bound (new ++ cps) = checkpointHeads bound new+checkpointHeads bound cps := by
  simp [checkpointHeads]

/-- The heads of a configuration. The head of size zero falls when the input is finished. -/
def heads (c : Config) : Multiset ℕ :=
  match c.phase with
  | .emulating _ => pathHead bound c.state.cpu.rip (decide (Again su c.state)) ::ₘ
      0 ::ₘ checkpointHeads bound c.state.checkpoints
  | .draining | .exited => 0 ::ₘ checkpointHeads bound c.state.checkpoints
  | .finished => checkpointHeads bound c.state.checkpoints

variable {su bound}

/-- One head is cut off and smaller ones grow. -/
lemma cutExpand_cons {a : ℕ} {t : Multiset ℕ} (h : ∀ x ∈ t, x<a) (rest : Multiset ℕ) :
    CutExpand (· < ·) (t+rest) (a ::ₘ rest) := by
  rw [← Multiset.singleton_add]
  exact (cutExpand_add_right rest).mpr (cutExpand_singleton h)

lemma checkpointHead_lt {s : State} {cp : Checkpoint} (hs : s.cpu.rip<bound)
    (h : LeadsOn s.cpu.rip (Again su s) cp) :
    checkpointHead bound cp<pathHead bound s.cpu.rip (decide (Again su s)) := by
  unfold checkpointHead pathHead
  rcases h with on | ⟨back,again⟩
  · split <;> omega
  · rw [back,if_pos (by simpa using again)]
    omega

lemma pathHead_lt {address address' : ℕ} (h : address<address') (hb : address<bound)
    (again again' : Bool) : pathHead bound address' again'<pathHead bound address again := by
  unfold pathHead
  split <;> split <;> omega

/-- A step of the emulator cuts off the current path. -/
lemma emuStep_heads (hf : su.testCase.Forward)
    (hb : ∀ address, bound ≤ address → su.testCase.fetch address = none) {s : State}
    {o : Outcome} (h : emuStep su s = some o) (first : Bool) :
    CutExpand (· < ·) (heads su bound (o.next first)) (heads su bound ⟨.emulating first,s⟩) := by
  have cut : ∀ t : Multiset ℕ,
      (∀ x ∈ t, x<pathHead bound s.cpu.rip (decide (Again su s))) →
      CutExpand (· < ·) (t+(0 ::ₘ checkpointHeads bound s.checkpoints))
        (heads su bound ⟨.emulating first,s⟩) :=
    fun t ht => cutExpand_cons ht _
  rcases emuStep_leadsOn hf h with (rfl | rfl) | ⟨fetched,⟨new,hn,leads⟩,runs⟩
  · have falls := cut 0 (by simp)
    rw [Multiset.zero_add] at falls
    exact falls
  · have falls := cut 0 (by simp)
    rw [Multiset.zero_add] at falls
    unfold Outcome.next
    dsimp only
    split <;> exact falls
  · have inside : s.cpu.rip<bound := by
      by_contra outside
      exact fetched (hb _ (Nat.not_lt.mp outside))
    have smaller : ∀ x ∈ checkpointHeads bound new,
        x<pathHead bound s.cpu.rip (decide (Again su s)) := by
      intro x hx
      obtain ⟨cp,hcp,rfl⟩ := List.mem_map.mp (Multiset.mem_coe.mp hx)
      exact checkpointHead_lt inside (leads cp hcp)
    have grown : 0 ::ₘ checkpointHeads bound o.state.checkpoints =
        checkpointHeads bound new+(0 ::ₘ checkpointHeads bound s.checkpoints) := by
      rw [hn,checkpointHeads_append,Multiset.add_cons]
    have ends := cut _ smaller
    rw [← grown] at ends
    cases o with
    | running s' =>
      have on := cut (pathHead bound s'.cpu.rip (decide (Again su s')) ::ₘ
        checkpointHeads bound new) (by
          intro x hx
          rcases Multiset.mem_cons.mp hx with rfl | hx
          · exact pathHead_lt (runs s' rfl) inside _ _
          · exact smaller x hx)
      rw [Multiset.cons_add,← grown] at on
      exact on
    | returned s' => exact ends
    | fault s' =>
      unfold Outcome.next
      dsimp only
      split <;> exact ends

/-- Every step of the run cuts off a head. -/
theorem tick_heads (hf : su.testCase.Forward)
    (hb : ∀ address, bound ≤ address → su.testCase.fetch address = none) {c c' : Config}
    (hp : c.phase ≠ .finished ∧ c.phase ≠ .exited) (h : tick su c = some c') :
    CutExpand (· < ·) (heads su bound c') (heads su bound c) := by
  obtain ⟨phase,s⟩ := c
  cases phase with
  | emulating first =>
    obtain ⟨o,ho,rfl⟩ := Option.map_eq_some_iff.mp h
    exact emuStep_heads hf hb ho first
  | draining =>
    unfold tick at h
    dsimp only at h
    split at h
    · obtain ⟨s',hs,rfl⟩ := Option.map_eq_some_iff.mp h
      obtain ⟨s₁,h₁,rfl⟩ := Option.map_eq_some_iff.mp hs
      obtain ⟨cp,cps,log,logs,tt,hc,-,rfl,-⟩ := restore_cases h₁
      -- the path from the checkpoint on cannot come back to it
      have resumed : heads su bound ⟨.emulating false,
          { { s.restored cp cps log logs with taintTracker := tt } with
            cpu := { (s.restored cp cps log logs).cpu with rip := cp.nextInstruction } }⟩ =
          pathHead bound cp.nextInstruction false ::ₘ 0 ::ₘ checkpointHeads bound cps := by
        simp [heads,Again,State.restored]
      have before : heads su bound ⟨.draining,s⟩ =
          checkpointHead bound cp ::ₘ 0 ::ₘ checkpointHeads bound cps := by
        dsimp only [heads]
        rw [hc,← List.singleton_append,checkpointHeads_append,Multiset.cons_swap]
        rfl
      have cut := cutExpand_cons (a := checkpointHead bound cp)
        (t := {pathHead bound cp.nextInstruction false})
        (by simp [checkpointHead,pathHead]) (0 ::ₘ checkpointHeads bound cps)
      rw [Multiset.singleton_add,← before,← resumed] at cut
      exact cut
    · cases h
      have cut := cutExpand_cons (a := 0) (t := 0) (by simp)
        (checkpointHeads bound s.checkpoints)
      rw [Multiset.zero_add] at cut
      exact cut
  | finished => exact absurd rfl hp.1
  | exited => exact absurd rfl hp.2

/-- The run of an input is over: it has returned or exited, or an exception has escaped. -/
def Ends (su : Setup) (c : Config) : Prop :=
  ∃ n, ∀ c', ticks su n c = some c' → c'.phase=.finished ∨ c'.phase=.exited

theorem ends_of_forward (hf : su.testCase.Forward) (c : Config) : Ends su c := by
  obtain ⟨bound,hb⟩ := hf.finite
  have wf : WellFounded (InvImage (CutExpand (· < ·)) (heads su bound)) :=
    InvImage.wf _ (WellFounded.cutExpand wellFounded_lt)
  induction c using wf.induction with
  | _ c ih =>
    by_cases hp : c.phase=.finished ∨ c.phase=.exited
    · refine ⟨0,?_⟩
      rintro c' ⟨⟩
      exact hp
    · push Not at hp
      cases ht : tick su c with
      | none =>
        refine ⟨1,fun c' h => ?_⟩
        rw [ticks,ht] at h
        cases h
      | some c₁ =>
        obtain ⟨n,hn⟩ := ih c₁ (tick_heads hf hb hp ht)
        refine ⟨n+1,fun c' h => hn c' ?_⟩
        rw [ticks,ht] at h
        exact h

end Hydra

/-- On a test case whose jumps go forward, the run of an input ends, under every clause, for
every nesting and window, and from every state of the model. -/
theorem executeInput_ends {su : Setup} (hf : su.testCase.Forward) (input : Input su.conf)
    (s : State) : ∀ c, begin su input s = some c → Ends su c :=
  fun c _ => ends_of_forward hf c

section Witnesses
open Asm

lemma lookup_none {code : List Line} {offset : ℕ}
    (h : (code.map (·.insn.size)).sum ≤ offset) : lookup code offset = none := by
  induction code generalizing offset with
  | nil => rfl
  | cons l code ih =>
    have size := l.insn.size_pos
    rw [List.map_cons,List.sum_cons] at h
    unfold lookup
    rw [if_neg (by omega),if_neg (by omega)]
    exact ih (by omega)

/-- Code without backward jumps. -/
lemma assemble_forward {codeStart : ℕ} {code : List Line}
    (h : ∀ l ∈ code, ∀ c seen, c.rip<(l.insn.finish c seen).rip) :
    (assemble codeStart code).Forward where
  finite := by
    refine ⟨codeStart+(code.map (·.insn.size)).sum,fun address ha => ?_⟩
    dsimp only [assemble]
    rw [if_pos (by omega),lookup_none (by omega)]
    rfl
  forward := by
    intro address insn hf c seen hc
    obtain ⟨l,hl,rfl⟩ := fetch_mem hf
    rw [← hc]
    exact h l hl c seen

/-- A store that is bypassed at a branch. -/
def storeBranch : List Line := [store .R14 0 .A,jz 4,load .B .R14 none 0,nop]

theorem executeInput_ends_storeBranch :
    ∃ c, begin (setup .condBpas .ct storeBranch) (input []) (tracedModel 2) = some c ∧
      Ends (setup .condBpas .ct storeBranch) c := by
  have hf : (setup .condBpas .ct storeBranch).testCase.Forward := by
    apply assemble_forward
    intro l hl c seen
    simp only [storeBranch,List.mem_cons,List.not_mem_nil,or_false] at hl
    rcases hl with rfl | rfl | rfl | rfl
    · simp [store,Asm.Cpu.next]
    · simp only [jz,Asm.Cpu.next]
      split <;> omega
    · simp [load,Asm.Cpu.next,Cpu.setReg]
    · simp [nop,Asm.Cpu.next]
  have hsome : (begin (setup .condBpas .ct storeBranch) (input []) (tracedModel 2)).isSome := by
    decide +kernel
  obtain ⟨c,hc⟩ := Option.isSome_iff_exists.mp hsome
  exact ⟨c,hc,executeInput_ends hf _ _ c hc⟩

end Witnesses

end ProteanAmulet
