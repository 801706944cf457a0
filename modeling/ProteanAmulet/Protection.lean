import ProteanAmulet.Lockstep

/-! The PROT-SEQ contract and the trace of `ProtTracer`. The contract is stated over the
instructions that the test case executes, the trace is that of the sequential model. -/
namespace ProteanAmulet

/-- An instruction that was executed, with the registers before and after it and the bytes that
its loads have seen. -/
structure Executed where
  insn : Insn
  before : Cpu
  accesses : List (Access × List Byte)
  after : Cpu

namespace Executed

/-- The accesses of one instruction on plain memory. -/
def perform (insn : Insn) (c : Cpu) :
    List Access → List (List Byte) → Mem → List (Access × List Byte) × List (List Byte) × Mem
  | [], seen, m => ([],seen,m)
  | a :: rest, seen, m =>
    if a.isWrite then
      let r := perform insn c rest seen
        (Memory.write m a.address (leBytes (insn.storeValue c seen) a.size))
      ((a,[]) :: r.1,r.2)
    else
      let bs := Memory.read m a.address a.size
      let r := perform insn c rest (seen ++ [bs]) m
      ((a,bs) :: r.1,r.2)

/-- The instruction at the program counter and the memory after it; `none` if it faults. -/
def next (su : Setup) (c : Cpu) (m : Mem) : Option (Executed × Mem) :=
  (su.testCase.fetch c.rip).bind fun insn =>
    let r := perform insn c (insn.accesses c) [] m
    if insn.faults c r.2.1 then none else some (⟨insn,c,r.1,insn.finish c r.2.1⟩,r.2.2)

/-- The instructions that are executed up to the end of the code; `none` if one of them faults
or there are too many. -/
def log (su : Setup) : ℕ → Cpu → Mem → Option (List Executed)
  | 0, _, _ => none
  | n+1, c, m => if c.rip = su.codeEnd then some []
    else (next su c m).bind fun x => (log su n x.1.after x.2).map (x.1 :: ·)

variable (e : Executed)

/-- The registers that form its addresses. -/
def addressValues : List Obs := e.insn.cs.addressRegs.map fun r => .reg (e.before.read r)

/-- The addresses it accesses, and the data it loads if it is not protected. -/
def accessValues : List Obs :=
  e.accesses.flatMap fun x => .addr x.1.address ::
    if !x.1.isWrite && !e.insn.isProtected then [.mem (fromBytes x.2)] else []

/-- PROT-SEQ: the outputs of an instruction that is not protected. -/
def outputValues : List Obs :=
  if e.insn.isProtected then [] else e.insn.cs.regsWrite.map fun r => .reg (e.after.read r)

/-- What is shown when the instruction is executed. The outputs of the instruction before it
come first. -/
def shows (outputs : List Obs) : List Obs :=
  .pc e.before.rip :: (outputs ++ (e.addressValues ++ e.accessValues))

end Executed

/-- PROT-SEQ up to the last executed instruction, from the outputs that are still to be shown. -/
def protSeq : List Obs → List Executed → List Obs
  | _, [] => []
  | outputs, e :: es => e.shows outputs ++ protSeq e.outputValues es

/-- PROT-SEQ after the last instruction. -/
def protSeqEnd (es : List Executed) : List Obs := es.getLast?.elim [] Executed.outputValues

/-- What `ProtTracer` puts on the trace, from the registers it has kept. -/
def protTrace : List RegName → List Executed → List Obs
  | _, [] => []
  | regs, e :: es => e.shows (regs.map fun r => .reg (e.before.read r)) ++
      protTrace (if e.insn.isProtected then e.insn.cs.regsWrite else []) es

/-- Whenever an instruction has been executed, the trace is what PROT-SEQ shows up to there, and
at the end it has the outputs of the last instruction, too. -/
def ProtSeqExact (su : Setup) (c₀ : Config) (s' : State) (es : List Executed) : Prop :=
  (∀ k ≤ es.length, ∀ c, ticks su k c₀ = some c →
    c.state.tracer.trace = c₀.state.tracer.trace ++ protSeq [] (es.take k)) ∧
  s'.tracer.trace = c₀.state.tracer.trace ++ (protSeq [] es ++ protSeqEnd es)

/-- The tracer has kept no register from an earlier input, no instruction but the last one
writes a register, and neither does the last one if it is not protected. -/
structure NoOutputs (regs : List RegName) (es : List Executed) : Prop where
  kept : es ≠ [] → regs=[]
  written : ∀ e ∈ es.dropLast, e.insn.cs.regsWrite=[]
  last : ∀ e ∈ es.getLast?, e.insn.isProtected=false → e.insn.cs.regsWrite=[]

section Traces
variable {es : List Executed} {regs : List RegName} {outputs : List Obs}

/-- Program counters mark where an instruction starts. -/
def Obs.IsPc : Obs → Prop
  | .pc _ => True
  | _ => False

/-- Two lists are split at their first mark. -/
lemma append_marked {α : Type*} {mark : α → Prop} {xs ys rest rest' : List α}
    (hx : ∀ o ∈ xs, ¬ mark o) (hy : ∀ o ∈ ys, ¬ mark o) (hrest : ∀ o ∈ rest.head?, mark o)
    (hrest' : ∀ o ∈ rest'.head?, mark o) :
    xs ++ rest = ys ++ rest' ↔ xs=ys ∧ rest=rest' := by
  induction xs generalizing ys with
  | nil =>
    cases ys with
    | nil => simp
    | cons y ys =>
      have hne : rest ≠ y :: ys ++ rest' := by
        rintro rfl
        exact hy y List.mem_cons_self (hrest y rfl)
      simp only [List.nil_append,reduceCtorEq,false_and,iff_false]
      exact hne
  | cons x xs ih =>
    cases ys with
    | nil =>
      have hne : rest' ≠ x :: xs ++ rest := by
        rintro rfl
        exact hx x List.mem_cons_self (hrest' x rfl)
      simp only [List.nil_append,reduceCtorEq,false_and,iff_false]
      exact fun h => hne h.symm
    | cons y ys =>
      have h : xs ++ rest = ys ++ rest' ↔ xs=ys ∧ rest=rest' := ih
        (fun o ho => hx o (List.mem_cons_of_mem _ ho))
        (fun o ho => hy o (List.mem_cons_of_mem _ ho))
      simp only [List.cons_append,List.cons.injEq,h,and_assoc]

lemma outputValues_notPc (e : Executed) : ∀ o ∈ e.outputValues, ¬ o.IsPc := by
  intro o ho
  unfold Executed.outputValues at ho
  split at ho
  · cases ho
  · obtain ⟨r,-,rfl⟩ := List.mem_map.mp ho
    exact id

lemma values_notPc (e : Executed) : ∀ o ∈ e.addressValues ++ e.accessValues, ¬ o.IsPc := by
  intro o ho
  rcases List.mem_append.mp ho with ho | ho
  · obtain ⟨r,-,rfl⟩ := List.mem_map.mp ho
    exact id
  · obtain ⟨x,-,ho⟩ := List.mem_flatMap.mp ho
    rcases List.mem_cons.mp ho with rfl | ho
    · exact id
    · split at ho
      · obtain rfl := List.mem_singleton.mp ho
        exact id
      · cases ho

lemma protTrace_head : ∀ o ∈ (protTrace regs es).head?, o.IsPc := by
  intro o ho
  cases es with
  | nil => cases ho
  | cons e es =>
    cases ho
    trivial

lemma protSeq_head : ∀ o ∈ (protSeq outputs es).head?, o.IsPc := by
  intro o ho
  cases es with
  | nil => cases ho
  | cons e es =>
    cases ho
    trivial

lemma shows_eq_iff {e : Executed} {xs ys rest rest' : List Obs} (hx : ∀ o ∈ xs, ¬ o.IsPc)
    (hy : ∀ o ∈ ys, ¬ o.IsPc) (hrest : ∀ o ∈ rest.head?, o.IsPc)
    (hrest' : ∀ o ∈ rest'.head?, o.IsPc) :
    e.shows xs ++ rest = e.shows ys ++ rest' ↔ xs=ys ∧ rest=rest' := by
  have hmid : ∀ {zs : List Obs}, (∀ o ∈ zs, ¬ o.IsPc) →
      ∀ o ∈ zs ++ (e.addressValues ++ e.accessValues), ¬ o.IsPc := by
    intro zs hz o ho
    rcases List.mem_append.mp ho with ho | ho
    · exact hz o ho
    · exact values_notPc e o ho
  simp only [Executed.shows,List.cons_append,List.cons.injEq,true_and]
  rw [append_marked (hmid hx) (hmid hy) hrest hrest',List.append_left_inj]

/-- The registers that are kept are shown exactly when those that were to be shown are not. -/
lemma kept_eq_iff (e e' : Executed) :
    (if e.insn.isProtected then e.insn.cs.regsWrite else []).map
      (fun r => Obs.reg (e'.before.read r)) = e.outputValues ↔ e.insn.cs.regsWrite=[] := by
  unfold Executed.outputValues
  cases e.insn.isProtected with
  | true => simp
  | false =>
    simp only [Bool.false_eq_true,if_false,List.map_nil]
    rw [eq_comm,List.map_eq_nil_iff]

/-- The trace of the tracer is the contract's if and only if there is nothing to show. -/
theorem protTrace_eq_iff (hout : ∀ o ∈ outputs, ¬ o.IsPc) :
    protTrace regs es = protSeq outputs es ↔
      (∀ e ∈ es.head?, regs.map (fun r => Obs.reg (e.before.read r)) = outputs) ∧
        ∀ e ∈ es.dropLast, e.insn.cs.regsWrite=[] := by
  induction es generalizing regs outputs with
  | nil => simp [protTrace,protSeq]
  | cons e es ih =>
    have hregs : ∀ o ∈ regs.map (fun r => Obs.reg (e.before.read r)), ¬ o.IsPc := by
      intro o ho
      obtain ⟨r,-,rfl⟩ := List.mem_map.mp ho
      exact id
    rw [protTrace,protSeq,shows_eq_iff hregs hout protTrace_head protSeq_head,
      ih (outputValues_notPc e)]
    cases es with
    | nil => simp
    | cons e' es =>
      simp only [List.head?_cons,Option.mem_some_iff,forall_eq',kept_eq_iff,List.dropLast_cons_cons,
        List.mem_cons,forall_eq_or_imp]

lemma protSeqEnd_eq_nil : protSeqEnd es = [] ↔
    ∀ e ∈ es.getLast?, e.insn.isProtected=false → e.insn.cs.regsWrite=[] := by
  unfold protSeqEnd
  cases es.getLast? with
  | none => simp
  | some e =>
    simp only [Option.elim_some,Option.mem_some_iff,forall_eq',Executed.outputValues]
    cases e.insn.isProtected <;> simp

end Traces

section Tracer
variable {su : Setup} {s s' : State} {insn : Insn}

/-- What an exposure puts on the trace of `ProtTracer`. -/
def State.obs (s : State) : Expose → Obs
  | .pc address => .pc address
  | .addr address => .addr address
  | .reg r => .reg (s.cpu.read r)
  | .mem address size => .mem (fromBytes (Memory.read s.mem address size))

lemma emit_prot (trace : List Obs) (es : List Expose) :
    es.foldl (s.emit .prot) trace = trace ++ es.map s.obs := by
  induction es generalizing trace with
  | nil => simp
  | cons e es ih =>
    rw [List.foldl_cons,ih]
    cases e <;> simp [State.emit,State.obs,Tracer.pushAddress]

/-- The tracer after an instruction was observed. -/
lemma seqTraceInstruction_prot (htr : su.tracer=.prot) {i : Instruction} {address : ℕ}
    (h : seqTraceInstruction su s i address insn = some s') :
    Traced s s' ∧ s'.tracer.trace = s.tracer.trace ++ .pc address ::
        (s.tracer.unprotRegs ++ insn.cs.addressRegs).map (fun r => Obs.reg (s.cpu.read r)) ∧
      s'.tracer.unprotRegs = if insn.isProtected then insn.cs.regsWrite else [] := by
  refine ⟨seqTraceInstruction_traced h,?_⟩
  obtain ⟨s₁,h₁,h⟩ := Option.bind_eq_some_iff.mp h
  obtain ⟨tt,rfl,-⟩ := track_cases h₁
  obtain ⟨tr,ha,h⟩ := Option.bind_eq_some_iff.mp h
  rw [htr] at ha h
  cases ha
  obtain ⟨s₂,h₂,h⟩ := Option.bind_eq_some_iff.mp h
  have ht := exposeAll_tracer h₂
  rw [emit_prot] at ht
  have hcpu : s₂.cpu = s.cpu := by
    obtain ⟨_,_,rfl⟩ := exposeAll_traced h₂
    rfl
  dsimp only at h
  split at h <;> cases h <;>
    simp [Tracer.recordInstruction,Tracer.noteInstruction,ht,Tracer.instructionExposes,State.obs,
      Function.comp_def]

/-- The tracer after an access was observed. -/
lemma seqTraceMemAccess_prot (htr : su.tracer=.prot) {a : Access} {value : ℤ}
    (h : seqTraceMemAccess su s insn a value = some s') :
    Traced s s' ∧ s'.tracer.trace = s.tracer.trace ++ .addr a.address ::
        (if !a.isWrite && !insn.isProtected then
          [.mem (fromBytes (Memory.read s.mem a.address a.size))] else []) ∧
      s'.tracer.unprotRegs = s.tracer.unprotRegs := by
  refine ⟨seqTraceMemAccess_traced h,?_⟩
  obtain ⟨s₁,h₁,h⟩ := Option.bind_eq_some_iff.mp h
  obtain ⟨tt,rfl,-⟩ := track_cases h₁
  obtain ⟨s₂,h₂,h⟩ := Option.bind_eq_some_iff.mp h
  have ht := exposeAll_tracer h₂
  rw [htr,emit_prot] at ht
  have hes : (Tracer.accessExposes .prot s.inSpeculation insn a).map
      (State.obs { s with taintTracker := tt }) = .addr a.address ::
        (if !a.isWrite && !insn.isProtected then
          [.mem (fromBytes (Memory.read s.mem a.address a.size))] else []) := by
    unfold Tracer.accessExposes
    dsimp only
    rw [List.map_cons]
    split <;> rfl
  rw [show ({ s with taintTracker := tt } : State).inSpeculation = s.inSpeculation from rfl,
    hes] at ht
  split at h
  · split at h
    · cases h
      rw [ht]
      exact ⟨rfl,rfl⟩
    · obtain ⟨tr,htr',h⟩ := Option.bind_eq_some_iff.mp h
      obtain ⟨r,-,htr'⟩ := Option.bind_eq_some_iff.mp htr'
      cases h
      cases htr'
      rw [ht]
      exact ⟨rfl,rfl⟩
  · cases h

/-- The accesses of an instruction under the sequential clause. -/
theorem runAccesses_prot (hcl : su.clause=.seq) (htr : su.tracer=.prot) {c : Cpu}
    {as : List Access} {seen seen' : List (List Byte)}
    (h : runAccesses su insn c as seen s = some (seen',s')) :
    (∃ tr tt, s' = { s with
        mem := (Executed.perform insn c as seen s.mem).2.2, tracer := tr, taintTracker := tt }) ∧
      seen' = (Executed.perform insn c as seen s.mem).2.1 ∧
      s'.tracer.trace = s.tracer.trace ++ (Executed.perform insn c as seen s.mem).1.flatMap
        (fun x => .addr x.1.address :: if !x.1.isWrite && !insn.isProtected then
          [.mem (fromBytes x.2)] else []) ∧
      s'.tracer.unprotRegs = s.tracer.unprotRegs := by
  induction as generalizing s seen with
  | nil =>
    cases h
    exact ⟨⟨_,_,rfl⟩,rfl,by simp [Executed.perform],rfl⟩
  | cons a as ih =>
    unfold runAccesses at h
    unfold Executed.perform
    cases hw : a.isWrite with
    | true =>
      rw [hw,if_pos rfl] at h
      obtain ⟨s₁,h₁,h⟩ := Option.bind_eq_some_iff.mp h
      unfold traceMemAccess at h₁
      rw [hcl] at h₁
      obtain ⟨⟨tr,tt,rfl⟩,ht,hu⟩ := seqTraceMemAccess_prot htr h₁
      obtain ⟨⟨tr',tt',rfl⟩,hseen,ht',hu'⟩ := ih h
      dsimp only at hseen ht ht' hu hu' ⊢
      refine ⟨⟨tr',tt',by rw [if_pos rfl]⟩,by rw [if_pos rfl]; exact hseen,?_,hu'.trans hu⟩
      rw [if_pos rfl,ht',ht]
      simp [hw]
    | false =>
      rw [hw,if_neg (by simp)] at h
      obtain ⟨s₁,h₁,h⟩ := Option.bind_eq_some_iff.mp h
      unfold traceMemAccess at h₁
      rw [hcl] at h₁
      obtain ⟨⟨tr,tt,rfl⟩,ht,hu⟩ := seqTraceMemAccess_prot htr h₁
      obtain ⟨⟨tr',tt',rfl⟩,hseen,ht',hu'⟩ := ih h
      dsimp only at hseen ht ht' hu hu' ⊢
      refine ⟨⟨tr',tt',by rw [if_neg (by simp)]⟩,by rw [if_neg (by simp)]; exact hseen,?_,
        hu'.trans hu⟩
      rw [if_neg (by simp),ht',ht]
      simp [hw]

end Tracer

section Runs
variable {su : Setup} {s s' : State}

/-- Nothing that would change the course of a sequential run. -/
structure Steady (s : State) : Prop where
  inSpeculation : s.inSpeculation=false
  running : s.stopRequested=false

/-- A step under the sequential clause with `ProtTracer`. -/
theorem emuStep_prot (hcl : su.clause=.seq) (htr : su.tracer=.prot) (hst : Steady s)
    (hend : s.cpu.rip ≠ su.codeEnd) {o : Outcome} (ho : emuStep su s = some o) :
    (∃ s', o = .fault s' ∧ Steady s') ∨
    ∃ e m s', Executed.next su s.cpu s.mem = some (e,m) ∧ o = .running s' ∧ Steady s' ∧
      e.before = s.cpu ∧ s'.cpu = e.after ∧ s'.mem = m ∧
      s'.tracer.trace = s.tracer.trace ++
        e.shows (s.tracer.unprotRegs.map fun r => .reg (e.before.read r)) ∧
      s'.tracer.unprotRegs = if e.insn.isProtected then e.insn.cs.regsWrite else [] := by
  unfold emuStep at ho
  rw [if_neg hend] at ho
  cases hf : su.testCase.fetch s.cpu.rip with
  | none =>
    rw [hf] at ho
    cases ho
    exact Or.inl ⟨s,rfl,hst⟩
  | some insn =>
    rw [hf] at ho
    obtain ⟨s₁,h₁,ho⟩ := Option.bind_eq_some_iff.mp ho
    unfold instructionHook at h₁
    rw [hcl] at h₁
    obtain ⟨i,-,h₁⟩ := Option.bind_eq_some_iff.mp h₁
    obtain ⟨⟨tr,tt,rfl⟩,ht,hu⟩ := seqTraceInstruction_prot htr h₁
    unfold execute at ho
    rw [if_neg (by simp [hst.running]),if_neg (by simp)] at ho
    obtain ⟨⟨seen,s₂⟩,h₂,ho⟩ := Option.bind_eq_some_iff.mp ho
    obtain ⟨⟨tr',tt',rfl⟩,hseen,ht',hu'⟩ := runAccesses_prot hcl htr h₂
    dsimp only at ho ht ht' hu hu' hseen
    by_cases hfa : insn.faults s.cpu seen = true
    · rw [if_pos hfa] at ho
      cases ho
      exact Or.inl ⟨_,rfl,⟨hst.inSpeculation,hst.running⟩⟩
    · rw [if_neg hfa] at ho
      cases ho
      rw [hseen] at hfa
      have hnext : Executed.next su s.cpu s.mem = some
          (⟨insn,s.cpu,(Executed.perform insn s.cpu (insn.accesses s.cpu) [] s.mem).1,
            insn.finish s.cpu (Executed.perform insn s.cpu (insn.accesses s.cpu) [] s.mem).2.1⟩,
            (Executed.perform insn s.cpu (insn.accesses s.cpu) [] s.mem).2.2) := by
        unfold Executed.next
        rw [hf,Option.bind_some]
        exact if_neg hfa
      refine Or.inr ⟨_,_,_,hnext,rfl,⟨hst.inSpeculation,hst.running⟩,?_⟩
      refine ⟨rfl,by rw [hseen],rfl,?_,hu'.trans hu⟩
      dsimp only
      rw [ht',ht]
      simp [Executed.shows,Executed.addressValues,Executed.accessValues]

/-- The state after a number of instructions, and the end of the run. -/
theorem run_prot (hcl : su.clause=.seq) (htr : su.tracer=.prot) (hst : Steady s) {fuel : ℕ}
    (h : run su fuel ⟨.emulating true,s⟩ = some s') :
    Steady s' ∧ ∃ es, Executed.log su fuel s.cpu s.mem = some es ∧
      s'.tracer.trace = s.tracer.trace ++ protTrace s.tracer.unprotRegs es ∧
      ∀ k ≤ es.length, ∃ c, ticks su k ⟨.emulating true,s⟩ = some c ∧
        c.state.tracer.trace = s.tracer.trace ++ protTrace s.tracer.unprotRegs (es.take k) := by
  induction fuel generalizing s with
  | zero => cases h
  | succ fuel ih =>
    obtain ⟨c,hc,h⟩ := Option.bind_eq_some_iff.mp h
    have htick := hc
    obtain ⟨o,ho,rfl⟩ := Option.map_eq_some_iff.mp hc
    by_cases hend : s.cpu.rip = su.codeEnd
    · -- The emulation returns, and the run is over.
      have hret : emuStep su s = some (.returned s) := if_pos hend
      obtain rfl := Option.some.inj (hret.symm.trans ho)
      have hs : s'=s := by
        cases fuel with
        | zero => cases h
        | succ fuel =>
          unfold run tick at h
          simp only [Outcome.next,hst.inSpeculation,Bool.false_eq_true,if_false,
            Option.bind_some] at h
          cases fuel with
          | zero => cases h
          | succ fuel => exact (Option.some.inj h).symm
      subst hs
      refine ⟨hst,[],if_pos hend,by simp [protTrace],fun k hk => ?_⟩
      obtain rfl : k=0 := Nat.le_zero.mp hk
      exact ⟨_,rfl,by simp [protTrace]⟩
    · rcases emuStep_prot hcl htr hst hend ho with
        ⟨s₁,rfl,hst₁⟩ | ⟨e,m,s₁,hnext,rfl,hst₁,hbefore,hcpu,hmem,ht,hu⟩
      · unfold Outcome.next at h
        dsimp only at h
        rw [hst₁.inSpeculation] at h
        cases fuel with
        | zero => cases h
        | succ fuel => cases h
      · obtain ⟨hst',es,hes,htrace,hk⟩ := ih hst₁ h
        rw [ht,hu] at htrace
        refine ⟨hst',e :: es,?_,?_,fun k hle => ?_⟩
        · rw [Executed.log,if_neg hend,hnext,Option.bind_some,← hcpu,← hmem,hes]
          rfl
        · rw [htrace,protTrace,List.append_assoc]
        · cases k with
          | zero => exact ⟨_,rfl,by simp [protTrace]⟩
          | succ k =>
            obtain ⟨c,hc,htk⟩ := hk k (Nat.le_of_succ_le_succ hle)
            refine ⟨c,?_,?_⟩
            · rw [ticks,htick,Option.bind_some]
              exact hc
            · rw [htk,ht,hu,List.take_succ_cons,protTrace,List.append_assoc]

lemma mem_dropLast_take {α : Type*} {l : List α} {k : ℕ} {a : α} (h : a ∈ (l.take k).dropLast) :
    a ∈ l.dropLast := by
  rw [List.dropLast_eq_take] at h ⊢
  rw [List.take_take] at h
  exact (List.take_sublist_take_left (by simp; omega)).subset h

/-- The trace of a run is the contract's if and only if nothing is kept from before and no
instruction has an output to show. -/
theorem protSeqExact_iff {c₀ : Config} {es : List Executed}
    (hend : s'.tracer.trace = c₀.state.tracer.trace ++ protTrace c₀.state.tracer.unprotRegs es)
    (hk : ∀ k ≤ es.length, ∃ c, ticks su k c₀ = some c ∧ c.state.tracer.trace =
      c₀.state.tracer.trace ++ protTrace c₀.state.tracer.unprotRegs (es.take k)) :
    ProtSeqExact su c₀ s' es ↔ NoOutputs c₀.state.tracer.unprotRegs es := by
  have hnil : ∀ o ∈ ([] : List Obs), ¬ o.IsPc := by simp
  constructor
  · rintro ⟨hall,hfin⟩
    obtain ⟨c,hc,hck⟩ := hk es.length le_rfl
    rw [List.take_length] at hck
    have hlast := hall es.length le_rfl c hc
    rw [hck,List.take_length] at hlast
    have heq := List.append_cancel_left hlast
    rw [hend,heq] at hfin
    have hout := List.append_cancel_left hfin
    rw [List.self_eq_append_right] at hout
    obtain ⟨hhead,hwrite⟩ := (protTrace_eq_iff hnil).mp heq
    refine ⟨fun hne => ?_,hwrite,protSeqEnd_eq_nil.mp hout⟩
    obtain ⟨e,es',rfl⟩ := List.exists_cons_of_ne_nil hne
    exact List.map_eq_nil_iff.mp (hhead e rfl)
  · rintro ⟨hkept,hwrite,hlast⟩
    have heq : ∀ k, protTrace c₀.state.tracer.unprotRegs (es.take k) = protSeq [] (es.take k) := by
      intro k
      refine (protTrace_eq_iff hnil).mpr ⟨fun e he => ?_,fun e he => hwrite e (mem_dropLast_take he)⟩
      rw [hkept (by rintro rfl; simp at he),List.map_nil]
    refine ⟨fun k hle c hc => ?_,?_⟩
    · obtain ⟨c',hc',htk⟩ := hk k hle
      obtain rfl := Option.some.inj (hc.symm.trans hc')
      rw [htk,heq]
    · have h := heq es.length
      rw [List.take_length] at h
      rw [hend,h,protSeqEnd_eq_nil.mpr hlast,List.append_nil]

/-- One input: the instructions it executes, and when its trace is the contract's. -/
theorem executeInput_prot (hcl : su.clause=.seq) (htr : su.tracer=.prot) {fuel : ℕ}
    {input : Input su.conf} (hstop : s.stopRequested=false)
    (h : executeInput su fuel s input = some s') :
    s'.stopRequested=false ∧ ∃ c₀ es, begin su input s = some c₀ ∧
      Executed.log su fuel c₀.state.cpu c₀.state.mem = some es ∧
      (ProtSeqExact su c₀ s' es ↔ NoOutputs s.tracer.unprotRegs es) := by
  obtain ⟨c₀,hc₀,hr⟩ := Option.bind_eq_some_iff.mp h
  have hbegin := hc₀
  rw [begin_eq] at hc₀
  obtain ⟨c,-,rfl⟩ := Option.map_eq_some_iff.mp hc₀
  have hst : Steady (started su input s c) := ⟨rfl,hstop⟩
  obtain ⟨hst',es,hes,hend,hk⟩ := run_prot hcl htr hst hr
  exact ⟨hst'.running,_,es,hbegin,hes,protSeqExact_iff hend hk⟩

/-- The inputs of a batch, one after the other. -/
theorem executeInputs_prot (hcl : su.clause=.seq) (htr : su.tracer=.prot) {fuel : ℕ}
    {inputs : List (Input su.conf)} {s₀ last : State} {ss : List State}
    (hstop : s₀.stopRequested=false)
    (h : executeInputs su fuel s₀ inputs = some (ss,last)) {p : ℕ} {input : Input su.conf}
    (hs : (s₀ :: ss)[p]? = some s) (hi : inputs[p]? = some input) (hs' : ss[p]? = some s') :
    ∃ c₀ es, begin su input s = some c₀ ∧
      Executed.log su fuel c₀.state.cpu c₀.state.mem = some es ∧
      (ProtSeqExact su c₀ s' es ↔ NoOutputs s.tracer.unprotRegs es) := by
  induction inputs generalizing s₀ ss p with
  | nil => cases hi
  | cons input' inputs ih =>
    obtain ⟨s₁,h₁,h⟩ := Option.bind_eq_some_iff.mp h
    obtain ⟨⟨ss',last'⟩,h₂,h⟩ := Option.bind_eq_some_iff.mp h
    cases h
    obtain ⟨hstop₁,hex⟩ := executeInput_prot hcl htr hstop h₁
    cases p with
    | zero =>
      cases hs
      cases hi
      cases hs'
      exact hex
    | succ p => exact ih hstop₁ h₂ hs hi hs'

/-- The trace of the input at any position of a batch is that of PROT-SEQ if and only if the
tracer has kept no register of the input before it and no executed instruction has a register
to show: none but the last one writes a register, nor does the last one if it is not
protected. -/
theorem executeInputs_prot_iff (hcl : su.clause=.seq) (htr : su.tracer=.prot) {fuel n : ℕ}
    {inputs : List (Input su.conf)} {ss : List State} {last : State}
    (h : executeInputs su fuel (tracedModel n) inputs = some (ss,last)) {p : ℕ}
    {input : Input su.conf} (hs : (tracedModel n :: ss)[p]? = some s)
    (hi : inputs[p]? = some input) (hs' : ss[p]? = some s') :
    ∃ c₀ es, begin su input s = some c₀ ∧
      Executed.log su fuel c₀.state.cpu c₀.state.mem = some es ∧
      (ProtSeqExact su c₀ s' es ↔ NoOutputs s.tracer.unprotRegs es) :=
  executeInputs_prot hcl htr rfl h hs hi hs'

/-- The executed instructions are those of the test case. -/
lemma Executed.log_fetch {n : ℕ} {c : Cpu} {m : Mem} {es : List Executed}
    (h : log su n c m = some es) : ∀ e ∈ es, ∃ address, su.testCase.fetch address = some e.insn := by
  induction n generalizing c m es with
  | zero => cases h
  | succ n ih =>
    unfold log at h
    split at h
    · cases h
      simp
    · obtain ⟨⟨e,m'⟩,hx,h⟩ := Option.bind_eq_some_iff.mp h
      obtain ⟨es',hes',rfl⟩ := Option.map_eq_some_iff.mp h
      obtain ⟨insn,hf,hx⟩ := Option.bind_eq_some_iff.mp hx
      intro e' he'
      rcases List.mem_cons.mp he' with rfl | he'
      · dsimp only at hx
        split at hx
        · cases hx
        · cases hx
          exact ⟨_,hf⟩
      · exact ih hes' e' he'

end Runs

section Witnesses
open Asm

/-- No instruction of the test case writes a register. -/
def storeNopProt : Setup := setup .seq .prot [store .R14 0 .A,nop]

/-- The second of two inputs. -/
theorem executeInputs_prot_iff_store :
    ∃ s₁ s₂ c₀ es,
      executeInputs storeNopProt 10 (tracedModel 0) [input [],input [(1024,5)]] =
        some ([s₁,s₂],s₂) ∧
      begin storeNopProt (input [(1024,5)]) s₁ = some c₀ ∧
      Executed.log storeNopProt 10 c₀.state.cpu c₀.state.mem = some es ∧
      ProtSeqExact storeNopProt c₀ s₂ es := by
  have hsome : (executeInput storeNopProt 10 (tracedModel 0) (input [])).bind (fun s₁ =>
      (executeInput storeNopProt 10 s₁ (input [(1024,5)])).map fun s₂ => s₁.tracer.unprotRegs) =
        some [] := by decide +kernel
  obtain ⟨s₁,h₁,h⟩ := Option.bind_eq_some_iff.mp hsome
  obtain ⟨s₂,h₂,hregs⟩ := Option.map_eq_some_iff.mp h
  have hexec : executeInputs storeNopProt 10 (tracedModel 0) [input [],input [(1024,5)]] =
      some ([s₁,s₂],s₂) := by
    simp only [executeInputs,h₁,h₂,Option.bind_eq_bind,Option.bind_some,Option.pure_def]
  obtain ⟨c₀,es,hc₀,hes,hiff⟩ := executeInputs_prot_iff rfl rfl hexec (p := 1) rfl rfl rfl
  have hwrite : ∀ e ∈ es, e.insn.cs.regsWrite=[] := by
    intro e he
    obtain ⟨address,hf⟩ := Executed.log_fetch hes e he
    obtain ⟨l,hl,hle⟩ := fetch_mem hf
    rw [← hle]
    simp only [List.mem_cons,List.not_mem_nil,or_false] at hl
    rcases hl with rfl | rfl <;> rfl
  refine ⟨s₁,s₂,c₀,es,hexec,hc₀,hes,hiff.mpr ⟨fun _ => hregs,fun e he => ?_,fun e he _ => ?_⟩⟩
  · exact hwrite e (List.mem_of_mem_dropLast he)
  · exact hwrite e (List.mem_of_getLast? he)

/-- A copy that is not protected. -/
def movNopProt : Setup := setup .seq .prot [mov false .A .B,nop]

/-- The output of the copy is not on the trace. -/
theorem executeInputs_prot_not_exact :
    ∃ (su : Setup) (input : Input su.conf) (s' : State) (c₀ : Config) (es : List Executed),
      su.clause=.seq ∧ su.tracer=.prot ∧
      executeInputs su 10 (tracedModel 0) [input] = some ([s'],s') ∧
      begin su input (tracedModel 0) = some c₀ ∧
      Executed.log su 10 c₀.state.cpu c₀.state.mem = some es ∧ ¬ ProtSeqExact su c₀ s' es := by
  have hsome : (executeInput movNopProt 10 (tracedModel 0) (input [(1025,5)])).isSome := by
    decide +kernel
  obtain ⟨s',h'⟩ := Option.isSome_iff_exists.mp hsome
  have hlog : (begin movNopProt (input [(1025,5)]) (tracedModel 0)).bind (fun c =>
      (Executed.log movNopProt 10 c.state.cpu c.state.mem).map fun es =>
        es.dropLast.map (·.insn.cs.regsWrite)) = some [[.gpr .w64 .A]] := by decide +kernel
  obtain ⟨-,c₀,es,hc₀,hes,hiff⟩ := executeInput_prot rfl rfl rfl h'
  have hexec : executeInputs movNopProt 10 (tracedModel 0) [input [(1025,5)]] = some ([s'],s') := by
    simp only [executeInputs,h',Option.bind_eq_bind,Option.bind_some,Option.pure_def]
  refine ⟨movNopProt,input [(1025,5)],s',c₀,es,rfl,rfl,hexec,hc₀,hes,?_⟩
  rw [hiff]
  rintro ⟨-,hwrite,-⟩
  rw [hc₀,Option.bind_some,hes,Option.map_some] at hlog
  have hdrop := Option.some.inj hlog
  have hmem : [RegName.gpr .w64 .A] ∈ es.dropLast.map (·.insn.cs.regsWrite) := by
    rw [hdrop]
    exact List.mem_singleton_self _
  obtain ⟨e,he,hregs⟩ := List.mem_map.mp hmem
  rw [hwrite e he] at hregs
  cases hregs

end Witnesses

end ProteanAmulet
