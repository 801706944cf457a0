import ProteanAmulet.Rollback

/-! Two runs side by side. The second one is in the same control state as the first, and the
data of the two agree on a view. The first run may have a taint tracker, the second has none. -/
namespace ProteanAmulet

/-- A part of the registers, flags and memory bytes. The bits of EFLAGS that are no flag come
all together. -/
structure View where
  reg : Gpr → Prop
  flag : Flag → Prop
  rest : Prop
  mem : ℕ → Prop

namespace View

instance : LE View where
  le v w := (∀ r, v.reg r → w.reg r) ∧ (∀ f, v.flag f → w.flag f) ∧ (v.rest → w.rest) ∧
    ∀ x, v.mem x → w.mem x

lemma le_refl (v : View) : v ≤ v := ⟨fun _ h => h,fun _ h => h,id,fun _ h => h⟩

/-- The processors agree on the view. -/
structure Cpus (v : View) (c c' : Cpu) : Prop where
  rip : c.rip = c'.rip
  reg : ∀ r, v.reg r → c.reg r = c'.reg r
  flag : ∀ f, v.flag f → c.eflags.getLsbD f.bit = c'.eflags.getLsbD f.bit
  rest : v.rest → ∀ k, (∀ f : Flag, f.bit ≠ k) → c.eflags.getLsbD k = c'.eflags.getLsbD k

def Mems (v : View) (m m' : Mem) : Prop := ∀ x, v.mem x → m x = m' x

lemma Cpus.mono {v w : View} {c c' : Cpu} (h : w.Cpus c c') (hvw : v ≤ w) : v.Cpus c c' :=
  ⟨h.rip,fun r hr => h.reg r (hvw.1 r hr),fun f hf => h.flag f (hvw.2.1 f hf),
    fun hr => h.rest (hvw.2.2.1 hr)⟩

lemma Mems.mono {v w : View} {m m' : Mem} (h : w.Mems m m') (hvw : v ≤ w) : v.Mems m m' :=
  fun x hx => h x (hvw.2.2.2 x hx)

lemma Cpus.setRip {v : View} {c c' : Cpu} (h : v.Cpus c c') (n : ℕ) :
    v.Cpus { c with rip := n } { c' with rip := n } :=
  ⟨rfl,h.reg,h.flag,h.rest⟩

lemma Cpus.eflags_eq {v : View} {c c' : Cpu} (h : v.Cpus c c') (hf : ∀ f, v.flag f)
    (hr : v.rest) : c.eflags = c'.eflags := by
  apply BitVec.eq_of_getLsbD_eq
  intro k _
  by_cases hk : ∃ f : Flag, f.bit = k
  · obtain ⟨f,rfl⟩ := hk
    exact h.flag f (hf f)
  · exact h.rest hr k fun f hfk => hk ⟨f,hfk⟩

/-- Writes of the same width at the same place keep the agreement where the bytes agree. -/
lemma Mems.write {v : View} {m m' : Mem} (h : v.Mems m m') {a : ℕ} {bs bs' : List Byte}
    (hbs : ∀ x, v.mem x → a ≤ x → bs[x-a]? = bs'[x-a]?) :
    v.Mems (Memory.write m a bs) (Memory.write m' a bs') := by
  intro x hx
  unfold Memory.write
  split
  · rw [hbs x hx ‹_›,h x hx]
  · exact h x hx

lemma Mems.read {v : View} {m m' : Mem} (h : v.Mems m m') {a n : ℕ}
    (hx : ∀ x, a ≤ x → x<a+n → v.mem x) : Memory.read m a n = Memory.read m' a n :=
  Memory.read_congr fun x h₁ h₂ => h x (hx x h₁ h₂)

/-- Corresponding checkpoints, each with the view of its own time. -/
def Stack : List View → List Checkpoint → List Checkpoint → Prop
  | [], [], [] => True
  | v :: vs, cp :: cps, cp' :: cps' =>
    (cp.nextInstruction = cp'.nextInstruction ∧ cp.specWindow = cp'.specWindow ∧
      v.Cpus cp.atCall.cpu cp'.atCall.cpu ∧ v.Mems cp.atCall.mem cp'.atCall.mem) ∧
    Stack vs cps cps'
  | _, _, _ => False

lemma Stack.length_eq {vs : List View} {cps cps' : List Checkpoint} (h : Stack vs cps cps') :
    cps.length = cps'.length := by
  induction vs generalizing cps cps' with
  | nil => cases cps <;> cases cps' <;> first | rfl | exact h.elim
  | cons v vs ih =>
    cases cps <;> cases cps' <;> first | exact h.elim | exact congrArg (·+1) (ih h.2)

lemma Stack.of_cons {vs : List View} {cp : Checkpoint} {cps cps₂ : List Checkpoint}
    (h : Stack vs (cp :: cps) cps₂) : ∃ v ws cp' cps', vs = v :: ws ∧ cps₂ = cp' :: cps' ∧
      (cp.nextInstruction = cp'.nextInstruction ∧ cp.specWindow = cp'.specWindow ∧
        v.Cpus cp.atCall.cpu cp'.atCall.cpu ∧ v.Mems cp.atCall.mem cp'.atCall.mem) ∧
      Stack ws cps cps' := by
  match vs, cps₂, h with
  | v :: ws, cp' :: cps', h => exact ⟨v,ws,cp',cps',rfl,rfl,h.1,h.2⟩

end View

/-- The pending stores differ at most in what the view does not show. -/
structure SameStore (v : View) (p q : PreviousStore) : Prop where
  address : p.address = q.address
  oldValue : p.address ≠ 0 → ∀ x, v.mem x → p.address ≤ x →
    p.oldValue[x-p.address]? = q.oldValue[x-p.address]?
  fits : p.address ≠ 0 → (toBytes p.value p.size).isSome → (toBytes q.value q.size).isSome

lemma SameStore.none (v : View) {p q : PreviousStore} (hp : p.address=0) (hq : q.address=0) :
    SameStore v p q :=
  ⟨hp.trans hq.symm,(absurd hp ·),(absurd hp ·)⟩

/-- The two states agree up to the view, apart from what the tracers hold. The pending store
matters only while a checkpoint can be opened. -/
structure Twin (v : View) (vs : List View) (s u : State) : Prop where
  cpus : v.Cpus s.cpu u.cpu
  mems : v.Mems s.mem u.mem
  nesting : s.nesting = u.nesting
  inSpeculation : s.inSpeculation = u.inSpeculation
  speculationWindow : s.speculationWindow = u.speculationWindow
  latestRollbackAddress : s.latestRollbackAddress = u.latestRollbackAddress
  stopRequested : s.stopRequested = u.stopRequested
  stack : View.Stack vs s.checkpoints u.checkpoints
  pendingStore : s.checkpoints.length<s.nesting → SameStore v s.previousStore u.previousStore

/-- The tracers agree on the trace and on the analysis. What `ProtTracer` keeps for later is
left out, so this tracer is not covered. -/
structure TracerState.Same (tr tr' : TracerState) : Prop where
  trace : tr.trace = tr'.trace
  analysis : tr.analysis = tr'.analysis

namespace Twin
variable {v w : View} {vs : List View} {s u : State}

theorem mono (h : Twin w vs s u) (hvw : v ≤ w) : Twin v vs s u :=
  { h with
    cpus := h.cpus.mono hvw
    mems := h.mems.mono hvw
    pendingStore := fun hlt => { h.pendingStore hlt with
      oldValue := fun hp x hx => (h.pendingStore hlt).oldValue hp x (hvw.2.2.2 x hx) } }

theorem traced {s' u' : State} (h : Twin v vs s u) (hs : Traced s s') (hu : Traced u u') :
    Twin v vs s' u' := by
  obtain ⟨_,_,rfl⟩ := hs
  obtain ⟨_,_,rfl⟩ := hu
  exact { h with }

theorem length_eq (h : Twin v vs s u) : s.checkpoints.length = u.checkpoints.length :=
  h.stack.length_eq

theorem setCpu (h : Twin w vs s u) {c c' : Cpu} (hvw : v ≤ w) (hc : v.Cpus c c') :
    Twin v vs { s with cpu := c } { u with cpu := c' } :=
  { h.mono hvw with cpus := hc }

theorem opened (h : Twin v vs s u) (next : ℕ) : Twin v (v :: vs) (s.opened next) (u.opened next) :=
  { h with
    inSpeculation := rfl
    stack := ⟨⟨rfl,h.speculationWindow,h.cpus,h.mems⟩,h.stack⟩
    pendingStore := fun hlt => h.pendingStore (Nat.lt_of_succ_lt hlt) }

/-- The bypassed store is taken back on both sides. -/
theorem bypassed (h : Twin v vs s u) (hlt : s.checkpoints.length<s.nesting)
    (hp : s.previousStore.address ≠ 0) (address : ℕ) (bs bs' : List Byte) :
    Twin v (v :: vs) (X86UnicornBpas.bypassed s address bs)
      (X86UnicornBpas.bypassed u address bs') := by
  refine { h.opened address with
    mems := ?_
    pendingStore := fun _ => SameStore.none v rfl rfl }
  change v.Mems (Memory.write s.mem s.previousStore.address s.previousStore.oldValue)
    (Memory.write u.mem u.previousStore.address u.previousStore.oldValue)
  rw [← (h.pendingStore hlt).address]
  exact h.mems.write ((h.pendingStore hlt).oldValue hp)

theorem zeroed (h : Twin v vs s u) (hia : s.instructionAddress = u.instructionAddress)
    (a : Access) :
    Twin v (v :: vs) (X86UnicornNull.zeroed s a) (X86UnicornNull.zeroed u a) := by
  have ho := h.opened s.instructionAddress
  refine { ho with
    stack := ?_
    mems := h.mems.write fun _ _ _ => rfl }
  exact ⟨⟨hia,h.speculationWindow,h.cpus,h.mems⟩,h.stack⟩

theorem injects_iff (h : Twin v vs s u) (hia : s.instructionAddress = u.instructionAddress)
    (a : Access) :
    X86UnicornNull.Injects s a ↔ X86UnicornNull.Injects u a := by
  unfold X86UnicornNull.Injects
  rw [h.length_eq,h.nesting,hia,h.latestRollbackAddress]

theorem counted (h : Twin v vs s u) (su : Setup) (i : Instruction) :
    Twin v vs (counted su s i) (ProteanAmulet.counted su u i) := by
  unfold ProteanAmulet.counted countInstruction
  split
  · exact h
  · by_cases hs : s.inSpeculation = true
    · rw [if_pos hs,if_pos (h.inSpeculation.symm.trans hs)]
      exact { h with
        speculationWindow := congrArg (·+1) h.speculationWindow
        stopRequested := by simp only [h.speculationWindow,h.stopRequested] }
    · rw [if_neg hs,if_neg (by rwa [← h.inSpeculation])]
      exact h

end Twin

section Observations
variable {k : Tracer} {s s' u : State}

/-- What an exposure does to the trace. -/
def State.emit (k : Tracer) (s : State) (trace : List Obs) : Expose → List Obs
  | .pc address => trace ++ [.pc address]
  | .addr address => k.pushAddress s.inSpeculation address trace
  | .reg r => trace ++ [.reg (s.cpu.read r)]
  | .mem address size => trace ++ [.mem (fromBytes (Memory.read s.mem address size))]

/-- The exposed value is the same in both states. -/
def Shown (s u : State) : Expose → Prop
  | .reg r => s.cpu.read r = u.cpu.read r
  | .mem address size => Memory.read s.mem address size = Memory.read u.mem address size
  | .pc _ | .addr _ => True

lemma emit_eq (hspec : s.inSpeculation = u.inSpeculation) {e : Expose} (he : Shown s u e)
    (trace : List Obs) : s.emit k trace e = u.emit k trace e := by
  cases e with
  | pc address => rfl
  | addr address => simp only [State.emit,hspec]
  | reg r => simp only [State.emit,show s.cpu.read r = u.cpu.read r from he]
  | mem address size =>
    simp only [State.emit,
      show Memory.read s.mem address size = Memory.read u.mem address size from he]

lemma track_tracer {f : TaintTracker → Option TaintTracker} (h : s.track f = some s') :
    s'.tracer = s.tracer := by
  obtain ⟨_,rfl,-⟩ := track_cases h
  rfl

lemma track_none {f : TaintTracker → Option TaintTracker} (h : s.taintTracker = none) :
    s.track f = some s := by
  unfold State.track
  rw [h]

lemma expose_tracer {e : Expose} (h : s.expose k e = some s') :
    s'.tracer = { s.tracer with trace := s.emit k s.tracer.trace e } := by
  cases e <;> exact track_tracer h

lemma exposeAll_tracer {es : List Expose} (h : s.exposeAll k es = some s') :
    s'.tracer = { s.tracer with trace := es.foldl (s.emit k) s.tracer.trace } := by
  induction es generalizing s with
  | nil =>
    cases h
    rfl
  | cons e es ih =>
    obtain ⟨s₁,h₁,h₂⟩ := Option.bind_eq_some_iff.mp h
    have ht := expose_tracer h₁
    have hem : s₁.emit k = s.emit k := by
      obtain ⟨_,_,rfl⟩ := expose_traced h₁
      funext trace e
      cases e <;> rfl
    rw [ih h₂,ht,hem]
    rfl

/-- Only the trace changes. -/
def State.setTrace (s : State) (trace : List Obs) : State :=
  { s with tracer := { s.tracer with trace := trace } }

lemma emit_setTrace (s : State) (trace : List Obs) : (s.setTrace trace).emit k = s.emit k := by
  funext trace' e
  cases e <;> rfl

lemma expose_none (hu : u.taintTracker = none) (e : Expose) :
    u.expose k e = some (u.setTrace (u.emit k u.tracer.trace e)) := by
  cases e <;> exact track_none hu

lemma exposeAll_none (hu : u.taintTracker = none) (es : List Expose) :
    u.exposeAll k es = some (u.setTrace (es.foldl (u.emit k) u.tracer.trace)) := by
  induction es generalizing u with
  | nil => rfl
  | cons e es ih =>
    have h := ih (u := u.setTrace (u.emit k u.tracer.trace e)) hu
    rw [emit_setTrace] at h
    unfold State.exposeAll at h ⊢
    rw [List.foldlM_cons,expose_none hu e]
    exact h

lemma foldl_emit_eq (hspec : s.inSpeculation = u.inSpeculation) {es : List Expose}
    (hes : ∀ e ∈ es, Shown s u e) (trace : List Obs) :
    es.foldl (s.emit k) trace = es.foldl (u.emit k) trace := by
  induction es generalizing trace with
  | nil => rfl
  | cons e es ih =>
    rw [List.foldl_cons,List.foldl_cons,emit_eq hspec (hes e List.mem_cons_self)]
    exact ih (fun e' he' => hes e' (List.mem_cons_of_mem _ he')) _

/-- The access of an instruction that was recorded can be recorded. -/
def Recordable (u : State) : Prop :=
  u.inSpeculation=false → u.executionTracingEnabled=true →
    u.tracer.instructionId<u.tracer.executionTrace.length

variable {su : Setup}

lemma analyze_twin {address : ℕ} {tr₁ tr₂ tr : TracerState} (ht : tr₁.Same tr₂)
    (h : su.tracer.analyze su.testCase tr₁ address = some tr) :
    ∃ tr', su.tracer.analyze su.testCase tr₂ address = some tr' ∧ tr.Same tr' := by
  unfold Tracer.analyze at h ⊢
  rw [← ht.analysis]
  split at h
  · obtain ⟨d,hd,h⟩ := Option.bind_eq_some_iff.mp h
    cases h
    exact ⟨{ tr₂ with analysis := some d },by rw [hd]; rfl,⟨ht.trace,rfl⟩⟩
  · cases h
    exact ⟨tr₂,rfl,ht⟩

lemma TracerState.Same.exposes {tr tr' : TracerState} (h : tr.Same tr') (hk : k ≠ .prot)
    (address : ℕ) (insn : Insn) :
    k.instructionExposes tr address insn = k.instructionExposes tr' address insn := by
  cases k <;> first | exact absurd rfl hk | simp only [Tracer.instructionExposes,h.analysis]

lemma TracerState.Same.note {tr tr' : TracerState} (h : tr.Same tr') (k : Tracer)
    (address : ℕ) (insn : Insn) :
    (k.noteInstruction tr address insn).Same (k.noteInstruction tr' address insn) := by
  cases k <;> exact ⟨h.trace,h.analysis⟩

/-- The second run makes the same exposures. -/
theorem exposeAll_twin {es : List Expose} (hu : u.taintTracker = none)
    (hspec : s.inSpeculation = u.inSpeculation) (ht : s.tracer.Same u.tracer)
    (hes : ∀ e ∈ es, Shown s u e) (hs : s.exposeAll k es = some s') :
    ∃ trace, u.exposeAll k es = some (u.setTrace trace) ∧
      s'.tracer.Same (u.setTrace trace).tracer := by
  refine ⟨_,exposeAll_none hu es,?_⟩
  rw [exposeAll_tracer hs]
  exact ⟨by rw [ht.trace]; exact foldl_emit_eq hspec hes _,ht.analysis⟩

/-- The second run observes the same instruction. -/
theorem observeInstruction_twin {address : ℕ} {insn : Insn} (hk : su.tracer ≠ .prot)
    (hu : u.taintTracker = none)
    (hspec : s.inSpeculation = u.inSpeculation) (ht : s.tracer.Same u.tracer)
    (hshown : ∀ tr, su.tracer.analyze su.testCase s.tracer address = some tr →
      ∀ e ∈ su.tracer.instructionExposes tr address insn, Shown s u e)
    (hs : observeInstruction su s address insn = some s') :
    ∃ u', observeInstruction su u address insn = some u' ∧ Traced u u' ∧
      u'.taintTracker = none ∧ s'.tracer.Same u'.tracer ∧ Recordable u' := by
  obtain ⟨tr,htr,hs⟩ := Option.bind_eq_some_iff.mp hs
  obtain ⟨s₁,h₁,hs⟩ := Option.bind_eq_some_iff.mp hs
  obtain ⟨tr',htr',hsame⟩ := analyze_twin ht htr
  have hes : ∀ e ∈ su.tracer.instructionExposes tr address insn,
      Shown { s with tracer := tr } { u with tracer := tr' } e := by
    intro e he
    have := hshown tr htr e he
    cases e <;> exact this
  obtain ⟨trace,hex,hsame'⟩ := exposeAll_twin (s := { s with tracer := tr })
    (u := { u with tracer := tr' }) hu hspec hsame hes h₁
  have hnote := hsame'.note su.tracer address insn
  have hs' : s'.tracer.Same
      (su.tracer.noteInstruction (State.setTrace { u with tracer := tr' } trace).tracer
        address insn) := by
    dsimp only at hs
    split at hs <;> cases hs
    · exact hnote
    · exact ⟨hnote.trace,hnote.analysis⟩
  unfold observeInstruction
  rw [htr']
  simp only [Option.bind_eq_bind,Option.bind_some,← hsame.exposes hk,hex]
  split
  · rename_i hc
    refine ⟨_,rfl,⟨_,_,rfl⟩,hu,hs',fun h₁ h₂ => ?_⟩
    simp_all [State.setTrace]
  · refine ⟨_,rfl,⟨_,_,rfl⟩,hu,⟨hs'.trace,hs'.analysis⟩,fun _ _ => ?_⟩
    simp [Tracer.recordInstruction]

/-- The second run observes the same access. -/
theorem observeMemAccess_twin {insn : Insn} {a : Access} {value value' : ℤ}
    (hk : su.tracer ≠ .prot) (hu : u.taintTracker = none)
    (hspec : s.inSpeculation = u.inSpeculation) (ht : s.tracer.Same u.tracer)
    (hrec : Recordable u)
    (hes : ∀ e ∈ su.tracer.accessExposes s.inSpeculation insn a, Shown s u e)
    (hs : observeMemAccess su s insn a value = some s') :
    ∃ u', observeMemAccess su u insn a value' = some u' ∧ Traced u u' ∧
      u'.taintTracker = none ∧ s'.tracer.Same u'.tracer ∧ Recordable u' := by
  obtain ⟨s₁,h₁,hs⟩ := Option.bind_eq_some_iff.mp hs
  obtain ⟨trace,hex,hsame⟩ := exposeAll_twin hu hspec ht hes h₁
  split at hs
  · have hs' : s'.tracer.Same (u.setTrace trace).tracer := by
      split at hs
      · cases hs
        exact hsame
      · obtain ⟨tr,htr,hs⟩ := Option.bind_eq_some_iff.mp hs
        cases hs
        obtain ⟨i,-,htr⟩ := Option.bind_eq_some_iff.mp htr
        cases htr
        exact ⟨hsame.trace,hsame.analysis⟩
    have hassert' : su.tracer.assertLastPc (u.setTrace trace).tracer
        (u.setTrace trace).cpu.rip a := by
      revert hk
      unfold Tracer.assertLastPc
      cases su.tracer <;> simp
    unfold observeMemAccess
    rw [hspec] at hex
    simp only [Option.bind_eq_bind,hex,Option.bind_some]
    rw [if_pos hassert']
    split
    · exact ⟨_,rfl,⟨_,_,rfl⟩,hu,hs',hrec⟩
    · rename_i hc
      obtain ⟨hc₁,hc₂⟩ : u.inSpeculation=false ∧ u.executionTracingEnabled=true := by
        simpa [State.setTrace] using hc
      have hlt : (u.setTrace trace).tracer.instructionId<
          (u.setTrace trace).tracer.executionTrace.length := hrec hc₁ hc₂
      unfold Tracer.recordAccess
      rw [List.getElem?_eq_getElem hlt]
      refine ⟨_,rfl,⟨_,_,rfl⟩,hu,?_,fun _ _ => ?_⟩
      · exact ⟨hs'.trace,hs'.analysis⟩
      · simpa using hlt
  · cases hs

end Observations

end ProteanAmulet
