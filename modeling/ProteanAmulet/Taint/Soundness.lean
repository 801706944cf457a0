import ProteanAmulet.Taint.Programs

/-! Taint soundness: an input that agrees with the tainted words of another one has the same
contract trace. -/
namespace ProteanAmulet
open Dependency (All)

/-- The inputs agree on the word that the label stands for. -/
def SameWord {conf : Conf} (i j : Input conf) (ℓ : Label) : Prop :=
  ∀ k, TaintTracker.inputOffset conf ℓ = some k → k<conf.dataSize → i.get k = j.get k

section Start
variable {su : Setup} {i j : Input su.conf}

lemma trust_sameWord : Trust su (SameWord i j) := by
  intro ℓ h k hk hlt
  obtain ⟨ℓ',hℓ',hk'⟩ := h k hk
  exact hℓ' k hk' hlt

/-- The register words are within the tracked words, and there are at most seven of them. -/
lemma dataSize_lt {input : Input su.conf} {c c' : Cpu}
    (h : loadRegisters inputRegisters input.getRegisters c = some c') :
    8*su.conf.dataSize<2^64 := by
  have hlen : ∀ {rs : List (Option Gpr)} {vs : List (BitVec 64)} {c c' : Cpu},
      loadRegisters rs vs c = some c' → vs.length ≤ rs.length := by
    intro rs
    induction rs with
    | nil =>
      intro vs c c' h
      cases vs with
      | nil => simp
      | cons v vs => cases h
    | cons r rs ih =>
      intro vs c c' h
      cases vs with
      | nil => simp
      | cons v vs => exact Nat.succ_le_succ (ih h)
  have h₁ := hlen h
  rw [getRegisters_length] at h₁
  have h₂ : inputRegisters.length = 7 := rfl
  have h₃ := su.conf.fits
  unfold Conf.registerStart Conf.dataSize at *
  omega

lemma getRegisters_get (input : Input su.conf) (n : ℕ) : input.getRegisters[n]? =
    if n<su.conf.dataSize-1-su.conf.registerStart then some (input.get (su.conf.registerStart+n))
    else none := by
  unfold Input.getRegisters
  split_ifs with h
  · simp [h]
  · simp [Nat.not_lt.mp h]

/-- A register word agrees if its label does. -/
lemma getRegisters_sameWord {ℓ : Label} {n : ℕ}
    (hℓ : TaintTracker.inputOffset su.conf ℓ = some (su.conf.taintRegisterStart+n))
    (h : SameWord i j ℓ) : i.getRegisters[n]? = j.getRegisters[n]? := by
  rw [getRegisters_get,getRegisters_get]
  split_ifs with hn
  · rw [h (su.conf.registerStart+n) (by rw [hℓ,su.conf.registerStart_eq]) (by omega)]
  · rfl

lemma inputRegisters_label {g : Gpr} {n : ℕ} (h : inputRegisters[n]? = some (some g)) :
    TaintTracker.inputOffset su.conf (.reg g.key) = some (su.conf.taintRegisterStart+n) := by
  match n, h with
  | 0, h => cases h; rfl
  | 1, h => cases h; rfl
  | 2, h => cases h; rfl
  | 3, h => cases h; rfl
  | 4, h => cases h; rfl
  | 5, h => cases h; rfl
  | 6, h => cases h
  | _+7, h => cases h

lemma inputRegisters_flags {n : ℕ} (h : inputRegisters[n]? = some none) : n=6 := by
  match n, h with
  | 6, _ => rfl

/-- The registers that both runs start with. -/
theorem loadRegisters_trusted {c c₁ : Cpu}
    (h : loadRegisters inputRegisters i.getRegisters c = some c₁) :
    ∃ c₁', loadRegisters inputRegisters j.getRegisters c = some c₁' ∧
      (trusted su (SameWord i j) {}).Cpus { c₁.pinned su with rip := su.codeStart }
        { c₁'.pinned su with rip := su.codeStart } := by
  obtain ⟨c₁',h',hreg,hflags,hrest⟩ := loadRegisters_pair c
    ((getRegisters_length i).trans (getRegisters_length j).symm) h
  refine ⟨c₁',h',rfl,fun r hr => ?_,fun f hf => ?_,fun _ k hk => hrest k hk rfl⟩
  · refine Cpu.pinned_reg su fun _ hBP _ => hreg r (fun n hn => ?_) (Or.inr rfl)
    have hr' : All (SameWord i j) {Label.reg r.key} := hr.resolve_left hBP
    exact getRegisters_sameWord (inputRegisters_label hn) (hr' _ (Finset.mem_singleton_self _))
  · have hf' : All (SameWord i j) {Label.flag f} := hf
    have he : c₁.eflags = c₁'.eflags := by
      refine hflags (fun n hn => ?_) (Or.inr rfl)
      rw [inputRegisters_flags hn]
      exact getRegisters_sameWord rfl (hf' _ (Finset.mem_singleton_self _))
    exact congrArg (·.getLsbD f.bit) he

lemma loadMemory_inData (input : Input su.conf) (m : Mem) {x : ℕ} (hx : InData su x) :
    loadMemory su input m x = input.byte (x-su.sandboxBase) := by
  have hle : su.conf.dataSize ≤ su.conf.alignedSize := Nat.le_add_right _ _
  unfold InData at hx
  unfold loadMemory
  rw [Memory.fill,if_pos ⟨hx.1,by omega⟩]

lemma loadMemory_trusted (m m' : Mem) :
    (trusted su (SameWord i j) {}).Mems (loadMemory su i m) (loadMemory su j m') := by
  rintro x ⟨hx,hℓ⟩
  have hℓ' : SameWord i j (.mem (blockOf su x)) := hℓ _ (Finset.mem_singleton_self _)
  rw [loadMemory_inData i m hx,loadMemory_inData j m' hx]
  unfold Input.byte
  unfold InData at hx
  rw [hℓ' ((x-su.sandboxBase)/8) (by
    simp only [TaintTracker.inputOffset,blockOf,Option.some.injEq]
    omega) (by omega)]

/-- What the tracers show at the start agrees if the initial taints do. -/
lemma initialTrace_trusted (hk : su.tracer ≠ .prot)
    (hinit : All (SameWord i j) su.initialTaints.toFinset)
    {c c' : Cpu} (hc : (trusted su (SameWord i j) {}).Cpus c c')
    (hSP : c.reg .SP = c'.reg .SP) :
    su.tracer.initialTrace c = su.tracer.initialTrace c' := by
  have hBP : c.reg .BP = c'.reg .BP := hc.reg .BP (Or.inl rfl)
  have hctr : (∀ ℓ ∈ [Gpr.A,.B,.C,.D,.SI,.DI].map (fun r => Label.reg (.gpr r)),
      SameWord i j ℓ) → (∀ f, SameWord i j (.flag f)) →
      [Gpr.A,.B,.C,.D,.SI,.DI].map (fun r => Obs.init (c.reg r).toNat) ++
          [Obs.init c.eflags.toNat] =
        [Gpr.A,.B,.C,.D,.SI,.DI].map (fun r => Obs.init (c'.reg r).toNat) ++
          [Obs.init c'.eflags.toNat] := by
    intro hregs hflags
    have hr : ∀ r ∈ [Gpr.A,.B,.C,.D,.SI,.DI], c.reg r = c'.reg r := by
      intro r hr
      refine hc.reg r (Or.inr fun ℓ hℓ => ?_)
      obtain rfl := Finset.mem_singleton.mp hℓ
      refine hregs _ (List.mem_map.mpr ⟨r,hr,?_⟩)
      revert hr
      cases r <;> simp [Gpr.key]
    have he : c.eflags = c'.eflags := hc.eflags_eq (fun f ℓ hℓ => by
      obtain rfl := Finset.mem_singleton.mp hℓ
      exact hflags f) trivial
    rw [he]
    congr 1
    exact List.map_congr_left fun r h => by rw [hr r h]
  -- One flag stands for all of them.
  have hone : ∀ f, SameWord i j (.flag .CF) → SameWord i j (.flag f) := fun f h => h
  cases htr : su.tracer with
  | ctr =>
    simp only [Setup.initialTaints,htr] at hinit
    exact hctr (fun ℓ hℓ => hinit ℓ (by simp at hℓ ⊢; tauto))
      fun f => hone f (hinit _ (by simp))
  | arch =>
    simp only [Setup.initialTaints,htr] at hinit
    exact hctr (fun ℓ hℓ => hinit ℓ (by simp at hℓ ⊢; tauto))
      fun f => hone f (hinit _ (by simp))
  | ctx => simp only [Tracer.initialTrace,hBP,hSP]
  | cts => simp only [Tracer.initialTrace,hBP,hSP]
  | prot => exact absurd htr hk
  | l1d | pc | memory | ct | ctNonSpecStore => rfl

/-- Both runs at their start. -/
theorem started_lock (hk : su.tracer ≠ .prot) {n : ℕ} {c : Cpu}
    (hc : loadRegisters inputRegisters i.getRegisters State.fresh.cpu = some c)
    (hinit : All (SameWord i j) su.initialTaints.toFinset) :
    ∃ c', loadRegisters inputRegisters j.getRegisters State.fresh.cpu = some c' ∧
      Lock su (SameWord i j) (started su i (trackedModel n) c)
        (started su j (tracedModel n) c') := by
  obtain ⟨c',hc',hcpus⟩ := loadRegisters_trusted (j := j) hc
  refine ⟨c',hc',TaintTracker.init su.initialTaints su.sandboxBase,rfl,rfl,⟨?_,⟨?_,rfl⟩,rfl⟩⟩
  · exact
      { cpus := hcpus
        mems := loadMemory_trusted _ _
        nesting := rfl
        inSpeculation := rfl
        speculationWindow := rfl
        latestRollbackAddress := rfl
        stopRequested := rfl
        stack := True.intro
        pendingStore := fun _ => SameStore.none _ rfl rfl }
  · have hSP : (c.pinned su).reg .SP = (c'.pinned su).reg .SP :=
      Cpu.pinned_reg su fun h => absurd rfl h
    have h := initialTrace_trusted hk hinit hcpus hSP
    exact h

end Start

section Sound
variable {su : Setup} {fuel n : ℕ} {i j : Input su.conf} {taint : InputTaint su.conf}

/-- The run that computes the taints, and a run on an input that agrees with them. -/
theorem executeInput_locked (hk : su.tracer ≠ .prot) (hcov : Covered su) {s₁ : State}
    {t : TaintTracker}
    (hstep : 8*su.conf.dataSize<2^64 → ∀ c, begin su i (trackedModel n) = some c →
      ∀ c', Visits su c c' → Tracks su (SameWord i j) c'.state)
    (hfaults : (∀ ℓ, SameWord i j ℓ) ∨ ∀ c d, begin su i (trackedModel n) = some c →
      begin su j (tracedModel n) = some d → SameFaults su c d)
    (hs : executeInput su fuel (trackedModel n) i = some s₁) (ht : s₁.taintTracker = some t)
    (hij : ∀ k, (t.getTaint su.conf).tainted k = true → i.get k = j.get k) :
    ∃ u₁, executeInput su fuel (tracedModel n) j = some u₁ ∧
      s₁.tracer.trace = u₁.tracer.trace := by
  obtain ⟨c₀,hc₀,hs⟩ := Option.bind_eq_some_iff.mp hs
  have hbegin := hc₀
  rw [begin_eq] at hc₀
  obtain ⟨c,hc,rfl⟩ := Option.map_eq_some_iff.mp hc₀
  have hmark : All (SameWord i j) s₁.reach := by
    intro ℓ hℓ k hk hlt
    simp only [State.reach,ht] at hℓ
    exact hij ⟨k,hlt⟩ (decide_eq_true ⟨ℓ,hℓ,hk⟩)
  have hinit : All (SameWord i j) su.initialTaints.toFinset := hmark.mono (reach_run hs)
  obtain ⟨c',hc',hlock⟩ := started_lock hk (n := n) hc hinit
  have hleft : Recorded su (started su i (trackedModel n) c) :=
    started_recorded rfl (fun _ => rfl) fun _ => rfl
  have hright : Recorded su (started su j (tracedModel n) c') :=
    started_recorded rfl (fun _ => rfl) fun _ => rfl
  have hbegin' : begin su j (tracedModel n) =
      some ⟨.emulating true,started su j (tracedModel n) c'⟩ := by
    rw [begin_eq,show (tracedModel n).cpu = State.fresh.cpu from rfl,hc']
    rfl
  obtain ⟨u₁,hu₁,htrace⟩ := run_locked (c := ⟨.emulating true,started su i (trackedModel n) c⟩)
    (d := ⟨.emulating true,started su j (tracedModel n) c'⟩) (hstep (dataSize_lt hc) _ hbegin)
    (hfaults.imp_right fun h => h _ _ hbegin hbegin') hmark rfl hlock ⟨hleft,hcov⟩ ⟨hright,hcov⟩ hs
  refine ⟨u₁,?_,htrace⟩
  unfold executeInput
  rw [hbegin']
  exact hu₁

/-- Taint soundness, from the steps of the run that computes the taints. -/
theorem getTaints_sound (hk : su.tracer ≠ .prot) (hcov : Covered su)
    (hstep : 8*su.conf.dataSize<2^64 → ∀ Tr, Trust su Tr →
      ∀ c, begin su i (trackedModel n) = some c →
      ∀ c', Visits su c c' → Tracks su Tr c'.state)
    (hfaults : ∀ c d, begin su i (trackedModel n) = some c →
      begin su j (tracedModel n) = some d → SameFaults su c d) {s' : State}
    (h : getTaints su fuel State.fresh [i] n = some ([taint],s'))
    (hij : ∀ k, taint.tainted k = true → i.get k = j.get k) :
    ∃ trace s₁ s₂, traceTestCase su fuel State.fresh [i] n = some ([trace],s₁) ∧
      traceTestCase su fuel State.fresh [j] n = some ([trace],s₂) := by
  obtain ⟨s₁,t,hs₁,ht,rfl⟩ := getTaints_single h
  obtain ⟨u,hu,htrace⟩ := executeInput_locked hk hcov
    (fun hsize => hstep hsize _ trust_sameWord) (Or.inl fun _ _ _ _ => rfl) hs₁ ht (fun _ _ => rfl)
  obtain ⟨u',hu',htrace'⟩ := executeInput_locked hk hcov
    (fun hsize => hstep hsize _ trust_sameWord) (Or.inr hfaults) hs₁ ht hij
  have h₁ := traceTestCase_single hu
  have h₂ := traceTestCase_single hu'
  rw [← htrace] at h₁
  rw [← htrace'] at h₂
  exact ⟨s₁.tracer.trace,_,_,h₁,h₂⟩

lemma quiet_of_clause (hb : su.clause.bypasses=false) (hn : su.clause ≠ .null) (s : State) :
    Quiet su s := by
  intro insn s' _ _
  exact ⟨by simp [hb],fun h => absurd h hn⟩

lemma covered_seq (hcl : su.clause=.seq) : Covered su :=
  fun _ _ _ _ _ _ hne => absurd hcl hne

end Sound

section Witnesses
open Asm

/-- A branch over a division. -/
def divideCode : List Line := [test .A,jz 4,div .SI,nop,nop]

lemma divideCode_plain : ∀ l ∈ divideCode, l.Plain := by
  intro l hl
  simp only [divideCode,List.mem_cons,List.not_mem_nil,or_false] at hl
  rcases hl with rfl | rfl | rfl | rfl | rfl
  · exact .test _
  · exact .jz _
  · exact .div _
  · exact .nop
  · exact .nop

/-- The divisor is not tainted, and yet it decides whether the mispredicted path ends at the
division: the two runs have to fault at the same steps. -/
theorem getTaints_unsound_divide :
    ∃ (su : Setup) (i j : Input su.conf) (taint : InputTaint su.conf), su.clause=.cond ∧
      su.tracer=.ct ∧ DeclaredProgram su ∧ Covered su ∧
      (∀ c, begin su i (trackedModel 1) = some c →
        ∀ c', Visits su c c' → AccessesInData su c'.state) ∧
      (∃ s', getTaints su 20 State.fresh [i] 1 = some ([taint],s')) ∧
      (∀ k, taint.tainted k = true → i.get k = j.get k) ∧
      ∃ trace trace' s₁ s₂, traceTestCase su 20 State.fresh [i] 1 = some ([trace],s₁) ∧
        traceTestCase su 20 State.fresh [j] 1 = some ([trace'],s₂) ∧ trace ≠ trace' := by
  obtain ⟨taint,s',h,hSI⟩ := getTaints_word (setup .cond .ct divideCode) 20 1 (input [])
    ⟨1028,by decide⟩ false (by decide +kernel)
  refine ⟨setup .cond .ct divideCode,input [],input ([] ++ [(1028,1)]),taint,rfl,rfl,
    declaredProgram_of_plain divideCode_plain,covered_of_plain divideCode_plain,
    begin_inData 20 (by decide +kernel),⟨s',h⟩,agree_of_untainted hSI,
    traces_differ 3 (.pc 0x400009) (.pc 0x400008) (by decide +kernel) (by decide +kernel)
      (by decide)⟩

end Witnesses

end ProteanAmulet
