import ProteanAmulet.Model.Execute

/-! What the hooks leave unchanged and what a checkpoint adds. Observing an instruction or an
access touches the tracer and the taint tracker only. -/
namespace ProteanAmulet

/-- The second state differs from the first in the tracer and the taint tracker only. -/
def Traced (s s' : State) : Prop := ∃ tr tt, s' = { s with tracer := tr, taintTracker := tt }

namespace Traced

theorem refl (s : State) : Traced s s := ⟨_,_,rfl⟩

theorem trans {s₁ s₂ s₃ : State} (h : Traced s₁ s₂) (h' : Traced s₂ s₃) : Traced s₁ s₃ := by
  obtain ⟨_,_,rfl⟩ := h
  obtain ⟨_,_,rfl⟩ := h'
  exact ⟨_,_,rfl⟩

end Traced

theorem track_traced {s s' : State} {f : TaintTracker → Option TaintTracker}
    (h : s.track f = some s') : Traced s s' := by
  unfold State.track at h
  split at h
  · cases h
    exact Traced.refl s
  · obtain ⟨t',-,rfl⟩ := Option.map_eq_some_iff.mp h
    exact ⟨_,_,rfl⟩

theorem expose_traced {k : Tracer} {s s' : State} {e : Expose}
    (h : s.expose k e = some s') : Traced s s' := by
  cases e with
  | pc address => exact Traced.trans ⟨_,_,rfl⟩ (track_traced h)
  | addr address => exact Traced.trans ⟨_,_,rfl⟩ (track_traced h)
  | reg r => exact Traced.trans ⟨_,_,rfl⟩ (track_traced h)
  | mem address size => exact Traced.trans ⟨_,_,rfl⟩ (track_traced h)

theorem exposeAll_traced {k : Tracer} {es : List Expose} {s s' : State}
    (h : s.exposeAll k es = some s') : Traced s s' := by
  induction es generalizing s with
  | nil =>
    cases h
    exact Traced.refl _
  | cons e es ih =>
    obtain ⟨s₁,h₁,h₂⟩ := Option.bind_eq_some_iff.mp h
    exact (expose_traced h₁).trans (ih h₂)

variable {su : Setup}

theorem observeInstruction_traced {s s' : State} {address : ℕ} {insn : Insn}
    (h : observeInstruction su s address insn = some s') : Traced s s' := by
  obtain ⟨tr,-,h⟩ := Option.bind_eq_some_iff.mp h
  obtain ⟨s₁,h₁,h⟩ := Option.bind_eq_some_iff.mp h
  have h₀ : Traced s s₁ := Traced.trans ⟨_,_,rfl⟩ (exposeAll_traced h₁)
  dsimp only at h
  split at h <;> cases h <;> exact h₀.trans ⟨_,_,rfl⟩

theorem observeMemAccess_traced {s s' : State} {insn : Insn} {a : Access} {value : ℤ}
    (h : observeMemAccess su s insn a value = some s') : Traced s s' := by
  obtain ⟨s₁,h₁,h⟩ := Option.bind_eq_some_iff.mp h
  have h₀ : Traced s s₁ := exposeAll_traced h₁
  split at h
  · split at h
    · cases h
      exact h₀
    · obtain ⟨tr,-,h⟩ := Option.bind_eq_some_iff.mp h
      cases h
      exact h₀.trans ⟨_,_,rfl⟩
  · cases h

theorem seqTraceInstruction_traced {s s' : State} {i : Instruction} {address : ℕ} {insn : Insn}
    (h : seqTraceInstruction su s i address insn = some s') : Traced s s' := by
  obtain ⟨s₁,h₁,h₂⟩ := Option.bind_eq_some_iff.mp h
  exact (track_traced h₁).trans (observeInstruction_traced h₂)

theorem seqTraceMemAccess_traced {s s' : State} {insn : Insn} {a : Access} {value : ℤ}
    (h : seqTraceMemAccess su s insn a value = some s') : Traced s s' := by
  obtain ⟨s₁,h₁,h₂⟩ := Option.bind_eq_some_iff.mp h
  exact (track_traced h₁).trans (observeMemAccess_traced h₂)

@[simp] theorem track_some (s : State) (f : TaintTracker → TaintTracker) :
    s.track (fun t => some (f t)) = some { s with taintTracker := s.taintTracker.map f } := by
  obtain ⟨_,_,_,_,_,_,_,_,_,_,_,tt,_,_,_⟩ := s
  cases tt <;> rfl

/-- A call either has no tracker to go to, or the tracker answers. -/
theorem track_cases {s s' : State} {f : TaintTracker → Option TaintTracker}
    (h : s.track f = some s') :
    ∃ tt, s' = { s with taintTracker := tt } ∧
      (s.taintTracker = none ∧ tt = none ∨
        ∃ t t', s.taintTracker = some t ∧ f t = some t' ∧ tt = some t') := by
  unfold State.track at h
  split at h
  · cases h
    exact ⟨s.taintTracker,rfl,Or.inl ⟨‹_›,‹_›⟩⟩
  · obtain ⟨t',ht',rfl⟩ := Option.map_eq_some_iff.mp h
    exact ⟨some t',rfl,Or.inr ⟨_,t',‹_›,ht',rfl⟩⟩

/-- The state with a new checkpoint. -/
def State.opened (s : State) (next : ℕ) : State :=
  { s with
    checkpoints := ⟨s.cpu,next,s.cpu.eflags,s.speculationWindow,s.snapshot⟩ :: s.checkpoints
    storeLogs := [] :: s.storeLogs
    inSpeculation := true
    taintTracker := s.taintTracker.map TaintTracker.checkpoint }

@[simp] theorem checkpoint_eq (s : State) (next : ℕ) :
    checkpoint s next = some (s.opened next) := by
  simp [checkpoint,State.opened]

/-- The state after an unpredicted branch was sent the wrong way. -/
def X86UnicornCond.mispredicted (s : State) (next : ℕ) (d : ℕ × Bool × Bool) : State :=
  let s := if d.2.2 then { s with cpu := s.cpu.setReg .C (s.cpu.reg .C-1) } else s
  let s := s.opened (if d.2.1 then next+d.1 else next)
  { s with cpu := { s.cpu with rip := if d.2.1 then next else next+d.1 } }

theorem X86UnicornCond.speculateInstruction_eq (s : State) (address : ℕ) (insn : Insn) :
    X86UnicornCond.speculateInstruction s address insn =
      if s.nesting ≤ s.checkpoints.length then some s
      else (decode insn.bytes s.cpu.eflags (s.cpu.reg .C)).map fun d =>
        if d.1=0 then s else mispredicted s (address+insn.size) d := by
  unfold X86UnicornCond.speculateInstruction
  split
  · rfl
  · cases decode insn.bytes s.cpu.eflags (s.cpu.reg .C) with
    | none => rfl
    | some d =>
      simp only [Option.map_some,checkpoint_eq]
      by_cases hd : d.1=0
      · simp [hd]
      · simp [hd,mispredicted]

/-- The state after the pending store was bypassed. -/
def X86UnicornBpas.bypassed (s : State) (address : ℕ) (newValue : List Byte) : State :=
  { s.opened address with
    mem := Memory.write s.mem s.previousStore.address s.previousStore.oldValue
    storeLogs := [(s.previousStore.address,newValue)] :: s.storeLogs
    previousStore := {} }

theorem X86UnicornBpas.speculateInstruction_eq (s : State) (address : ℕ) :
    X86UnicornBpas.speculateInstruction s address =
      if s.nesting ≤ s.checkpoints.length then some s
      else if s.previousStore.address=0 then some { s with previousStore := {} }
      else (toBytes s.previousStore.value s.previousStore.size).map (bypassed s address) := by
  unfold X86UnicornBpas.speculateInstruction
  split
  · rfl
  · by_cases hp : s.previousStore.address=0
    · simp [hp]
    · cases hb : toBytes s.previousStore.value s.previousStore.size with
      | none => simp [hp,hb]
      | some bs =>
        simp only [hp,hb,ne_eq,not_false_iff,if_true,if_false,checkpoint_eq]
        rfl

/-- The load is shown zeros. -/
def X86UnicornNull.Injects (s : State) (a : Access) : Prop :=
  s.checkpoints.length<s.nesting ∧ a.isWrite=false ∧
    s.instructionAddress ≠ s.latestRollbackAddress

instance (s : State) (a : Access) : Decidable (X86UnicornNull.Injects s a) :=
  inferInstanceAs (Decidable (_ ∧ _ ∧ _))

/-- The state after the load location was zeroed. -/
def X86UnicornNull.zeroed (s : State) (a : Access) : State :=
  { s.opened s.instructionAddress with
    mem := Memory.write s.mem a.address (List.replicate a.size 0)
    storeLogs := [(a.address,Memory.read s.mem a.address 8)] :: s.storeLogs }

theorem X86UnicornNull.speculateMemAccess_eq (s : State) (a : Access) :
    X86UnicornNull.speculateMemAccess s a = some (if Injects s a then zeroed s a else s) := by
  unfold X86UnicornNull.speculateMemAccess Injects
  by_cases h₁ : s.nesting ≤ s.checkpoints.length
  · simp [h₁,Nat.not_lt.mpr h₁]
  · by_cases h₂ : a.isWrite = true
    · simp [h₁,h₂]
    · by_cases h₃ : s.instructionAddress = s.latestRollbackAddress
      · simp [h₁,h₂,h₃]
      · have h₁' : s.checkpoints.length<s.nesting := Nat.not_le.mp h₁
        have h₂' : a.isWrite=false := by simpa using h₂
        simp only [h₁,h₁',h₂',h₃,checkpoint_eq,ne_eq,not_false_iff,and_true,if_true,if_false]
        rfl

/-- The state after the restoring part of a rollback, up to the taint tracker. -/
def State.restored (s : State) (cp : Checkpoint) (cps : List Checkpoint)
    (log : List (ℕ × List Byte)) (logs : List (List (ℕ × List Byte))) : State :=
  { s with
    checkpoints := cps
    storeLogs := logs
    inSpeculation := !cps.isEmpty
    latestRollbackAddress := cp.nextInstruction
    cpu := { cp.context with eflags := cp.flags }
    speculationWindow := cp.specWindow
    mem := Memory.undo log s.mem
    previousStore := {} }

theorem restore_cases {s s' : State} (h : restore s = some s') :
    ∃ cp cps log logs tt, s.checkpoints = cp :: cps ∧ s.storeLogs = log :: logs ∧
      s' = { s.restored cp cps log logs with taintTracker := tt } ∧
      (s.taintTracker = none ∧ tt = none ∨
        ∃ t t', s.taintTracker = some t ∧ t.rollback = some t' ∧ tt = some t') := by
  unfold restore at h
  split at h
  · rename_i cp cps log logs hc hl
    obtain ⟨tt,rfl,ht⟩ := track_cases h
    exact ⟨cp,cps,log,logs,tt,hc,hl,rfl,ht⟩
  · cases h

lemma restore_none {s : State} {cp : Checkpoint} {cps : List Checkpoint}
    {log : List (ℕ × List Byte)} {logs : List (List (ℕ × List Byte))}
    (hc : s.checkpoints = cp :: cps) (hl : s.storeLogs = log :: logs)
    (ht : s.taintTracker = none) : restore s = some (s.restored cp cps log logs) := by
  unfold restore State.track State.restored
  rw [hc,hl]
  dsimp only
  rw [ht]

section Hooks
variable (su : Setup)

/-- The part of the instruction hook before the tracing. -/
def counted (s : State) (i : Instruction) : State :=
  match su.clause with
  | .seq => s
  | _ => countInstruction su s i

/-- The part of the memory hook before the tracing. -/
def logged (s : State) (a : Access) : State :=
  match su.clause with
  | .seq => s
  | _ => logStore s a

/-- All clauses trace in the middle and speculate at the end. -/
theorem instructionHook_eq (s : State) (address : ℕ) (insn : Insn) :
    instructionHook su s address insn =
      (su.testCase.addressMap ((address : ℤ)-su.codeStart)).bind fun i =>
        (seqTraceInstruction su (counted su s i) i address insn).bind fun s' =>
          speculateInstruction su s' address insn := by
  unfold instructionHook counted speculateInstruction
  cases su.clause <;> simp

theorem traceMemAccess_eq (s : State) (insn : Insn) (a : Access) (value : ℤ) :
    traceMemAccess su s insn a value =
      (seqTraceMemAccess su (logged su s a) insn a value).bind fun s' =>
        speculateMemAccess su s' insn a value := by
  unfold traceMemAccess logged speculateMemAccess
  cases su.clause <;> simp

/-- The clauses that bypass stores. -/
def Clause.bypasses : Clause → Bool
  | .bpas | .condBpas => true
  | .seq | .cond | .null => false

/-- A store is remembered by a bypassing clause, unless a CALL made it. -/
theorem speculateMemAccess_store (s : State) (insn : Insn) {a : Access} (value : ℤ)
    (hw : a.isWrite=true) :
    speculateMemAccess su s insn a value =
      some (if su.clause.bypasses && !X86UnicornBpas.isCall insn then { s with previousStore :=
        ⟨a.address,a.size,Memory.read s.mem a.address a.size,value⟩ } else s) := by
  unfold speculateMemAccess X86UnicornBpas.speculateMemAccess
  cases su.clause
  case null =>
    dsimp only
    rw [X86UnicornNull.speculateMemAccess_eq,if_neg (fun h => absurd h.2.1 (by simp [hw]))]
    rfl
  case seq | cond => rfl
  case bpas | condBpas => simp [hw,Clause.bypasses]

/-- A load is left alone or injected with zeros. -/
theorem speculateMemAccess_load (s : State) (insn : Insn) {a : Access} (value : ℤ)
    (hw : a.isWrite=false) :
    speculateMemAccess su s insn a value =
      some (if su.clause=.null ∧ X86UnicornNull.Injects s a then X86UnicornNull.zeroed s a
        else s) := by
  unfold speculateMemAccess X86UnicornBpas.speculateMemAccess
  cases su.clause
  case null => simpa using X86UnicornNull.speculateMemAccess_eq s a
  case seq | cond => simp
  case bpas | condBpas => simp [hw]

theorem logged_eq (s : State) (a : Access) :
    ∃ logs, logged su s a = { s with storeLogs := logs } := by
  unfold logged logStore
  split
  · exact ⟨_,rfl⟩
  · split
    · exact ⟨_,rfl⟩
    · exact ⟨_,rfl⟩

theorem logged_load (s : State) {a : Access} (hw : a.isWrite=false) : logged su s a = s := by
  unfold logged logStore
  cases su.clause <;> simp [hw]

theorem counted_eq (s : State) (i : Instruction) :
    ∃ w b, counted su s i = { s with speculationWindow := w, stopRequested := b } := by
  unfold counted countInstruction
  split
  · exact ⟨_,_,rfl⟩
  · split
    · exact ⟨_,_,rfl⟩
    · exact ⟨_,_,rfl⟩

/-- The registers that `_load_input` sets to fixed values. -/
def Cpu.pinned (c : Cpu) : Cpu :=
  ((c.setReg .SP (BitVec.ofNat 64 su.stackBase)).setReg .BP (BitVec.ofNat 64 su.stackBase)).setReg
    .R14 (BitVec.ofNat 64 su.sandboxBase)

/-- The pinned registers agree whatever they were before. -/
lemma Cpu.pinned_reg {c c' : Cpu} {r : Gpr}
    (h : r ≠ .SP → r ≠ .BP → r ≠ .R14 → c.reg r = c'.reg r) :
    (c.pinned su).reg r = (c'.pinned su).reg r := by
  unfold Cpu.pinned Cpu.setReg
  dsimp only
  by_cases h₁ : r=.R14
  · simp [h₁]
  · by_cases h₂ : r=.BP
    · simp [h₂]
    · by_cases h₃ : r=.SP
      · simp [h₃]
      · simp only [ne_eq,h₁,h₂,h₃,not_false_eq_true,Function.update_of_ne]
        exact h h₃ h₂ h₁

/-- The state in which the emulation of an input starts, from the loaded registers. -/
def started (input : Input su.conf) (s : State) (c : Cpu) : State :=
  { s with
    cpu := { c.pinned su with rip := su.codeStart }
    mem := loadMemory su input s.mem
    checkpoints := []
    inSpeculation := false
    speculationWindow := 0
    latestRollbackAddress := 0
    tracer := su.tracer.resetTrace s.tracer (c.pinned su)
    taintTracker :=
      if s.taintingEnabled then some (TaintTracker.init su.initialTaints su.sandboxBase)
      else none }

theorem begin_eq (input : Input su.conf) (s : State) :
    begin su input s = (loadRegisters inputRegisters input.getRegisters s.cpu).map fun c =>
      ⟨.emulating true,started su input s c⟩ := by
  unfold begin loadInput
  cases h : loadRegisters inputRegisters input.getRegisters (resetModel su s).cpu with
  | none =>
    have h' : loadRegisters inputRegisters input.getRegisters s.cpu = none := h
    rw [h']
    rfl
  | some c =>
    have h' : loadRegisters inputRegisters input.getRegisters s.cpu = some c := h
    rw [h']
    rfl

end Hooks

/-- EFLAGS is loaded with nothing but flags. -/
lemma loadFlags_rest (v v' : BitVec 64) {k : ℕ} (hk : ∀ f : Flag, f.bit ≠ k) :
    ((v &&& 2263) ||| 2).getLsbD k = ((v' &&& 2263) ||| 2).getLsbD k := by
  have hbits : ∀ k : Fin 64, (2263#64).getLsbD k.val = true →
      k.val=1 ∨ ∃ f : Flag, f.bit = k.val := by
    intro k hk
    have h : k.val=0 ∨ k.val=1 ∨ k.val=2 ∨ k.val=4 ∨ k.val=6 ∨ k.val=7 ∨ k.val=11 := by
      revert k
      decide
    rcases h with h | h | h | h | h | h | h <;> rw [h]
    · exact Or.inr ⟨.CF,rfl⟩
    · exact Or.inl rfl
    · exact Or.inr ⟨.PF,rfl⟩
    · exact Or.inr ⟨.AF,rfl⟩
    · exact Or.inr ⟨.ZF,rfl⟩
    · exact Or.inr ⟨.SF,rfl⟩
    · exact Or.inr ⟨.OF,rfl⟩
  simp only [BitVec.getLsbD_or,BitVec.getLsbD_and]
  by_cases hlt : k<64
  · cases hm : (2263#64).getLsbD k with
    | false => simp
    | true =>
      rcases hbits ⟨k,hlt⟩ hm with h | ⟨f,hf⟩
      · obtain rfl : k=1 := h
        simp
      · exact absurd hf (hk f)
  · rw [BitVec.getLsbD_of_ge v k (by omega),BitVec.getLsbD_of_ge v' k (by omega)]

/-- The loop over the registers in two runs: a register ends up with the same value if it gets
the same one, or none and had the same before. -/
lemma loadRegisters_pair {rs : List (Option Gpr)} {vs vs' : List (BitVec 64)} {c c₁ : Cpu}
    (c' : Cpu) (hlen : vs.length = vs'.length) (h : loadRegisters rs vs c = some c₁) :
    ∃ c₁', loadRegisters rs vs' c' = some c₁' ∧
      (∀ g, (∀ n : ℕ, rs[n]? = some (some g) → vs[n]? = vs'[n]?) →
        some g ∈ rs.take vs.length ∨ c.reg g = c'.reg g → c₁.reg g = c₁'.reg g) ∧
      ((∀ n : ℕ, rs[n]? = some none → vs[n]? = vs'[n]?) →
        none ∈ rs.take vs.length ∨ c.eflags = c'.eflags → c₁.eflags = c₁'.eflags) ∧
      ∀ k, (∀ f : Flag, f.bit ≠ k) → c.eflags.getLsbD k = c'.eflags.getLsbD k →
        c₁.eflags.getLsbD k = c₁'.eflags.getLsbD k := by
  induction rs generalizing vs vs' c c' with
  | nil =>
    cases vs with
    | nil =>
      cases h
      obtain rfl : vs'=[] := List.length_eq_zero_iff.mp hlen.symm
      exact ⟨c',rfl,by simp,by simp,fun _ _ h => h⟩
    | cons v vs => cases h
  | cons r rs ih =>
    cases vs with
    | nil =>
      cases h
      obtain rfl : vs'=[] := List.length_eq_zero_iff.mp hlen.symm
      exact ⟨c',rfl,by simp,by simp,fun _ _ h => h⟩
    | cons v vs =>
      cases vs' with
      | nil => cases hlen
      | cons v' vs' =>
        obtain ⟨c₁',h',hreg,hflags,hrest⟩ := ih (loadRegister c' r v')
          (Nat.succ.inj hlen) h
        refine ⟨c₁',h',fun g hv hg => hreg g (fun n hn => hv (n+1) hn) ?_,
          fun hv hf => hflags (fun n hn => hv (n+1) hn) ?_,fun k hk hkk => hrest k hk ?_⟩
        · cases r with
          | none => simpa [loadRegister] using hg
          | some g' =>
            by_cases hgg : g=g'
            · subst hgg
              have hv₀ : v=v' := by simpa using hv 0 rfl
              exact Or.inr (by simp [loadRegister,Cpu.setReg,hv₀])
            · simpa [loadRegister,Cpu.setReg,hgg] using hg
        · cases r with
          | none =>
            have hv₀ : v=v' := by simpa using hv 0 rfl
            exact Or.inr (by simp [loadRegister,hv₀])
          | some g' => simpa [loadRegister,Cpu.setReg] using hf
        · cases r with
          | none => exact loadFlags_rest v v' hk
          | some g' => exact hkk

lemma getRegisters_length {conf : Conf} (input : Input conf) :
    input.getRegisters.length = conf.dataSize-1-conf.registerStart := by
  simp [Input.getRegisters]

end ProteanAmulet
