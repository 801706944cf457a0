import ProteanAmulet.Generator.Machine
import ProteanAmulet.Generator.TestCases
import ProteanAmulet.Library.Pointwise

/-! The shape of a block after the passes: each generated instruction stands in a piece with the
instrumentation made for it, and everything that later passes add stands between the pieces or
right before a bit scan. -/
namespace ProteanAmulet.Generator
open Drawing

/-- An instruction of the test case before the passes. -/
def Generated (conf : GeneratorConf) (instructions : List InstructionSpec) (inst : Instruction) :
    Prop := ∃ spec ∈ instructions, spec.controlFlow = false ∧ FromSpec conf spec inst

/-- An instruction that overwrites flags. -/
def IsPatch (conf : GeneratorConf) (instructions : List InstructionSpec) (inst : Instruction) :
    Prop := ∃ spec ∈ X86PatchUndefinedFlagsPass.patchCandidates instructions, FromSpec conf spec inst

section Generation
variable {conf : GeneratorConf} {instructions : List InstructionSpec}

/-- The function holds generated instructions, and only between entry and exit. -/
structure GeneratedFunction (conf : GeneratorConf) (instructions : List InstructionSpec)
    (func : Function) : Prop where
  entry : func.entry.instructions = []
  exit : func.exit.instructions = []
  nodes : ∀ bb ∈ func.nodes, ∀ inst ∈ bb.instructions, Generated conf instructions inst

lemma generateFunction_generated :
    Ensures (generateFunction conf instructions) (GeneratedFunction conf instructions) := by
  refine (Outcome.randint trivial _ _).bind fun drawn _ => ?_
  dsimp only
  split_ifs
  · exact Outcome.throw trivial
  refine (Outcome.mapM_all (Q := fun bb => bb.instructions = []) fun i _ =>
    Outcome.any.bind fun _ _ => Outcome.pure rfl).bind fun nodes hn => ?_
  exact Outcome.pure ⟨rfl,rfl,fun bb hbb inst hi => by simp [hn bb hbb] at hi⟩

lemma addTerminators_instructions (bb : BasicBlock) :
    Ensures (addTerminators instructions bb) fun bb' => bb'.instructions = bb.instructions :=
  Outcome.any.bind fun _ _ => Outcome.pure rfl

lemma addTerminatorsInFunction_generated {func : Function}
    (h : GeneratedFunction conf instructions func) :
    Ensures (addTerminatorsInFunction instructions func)
      (GeneratedFunction conf instructions) := by
  refine (addTerminators_instructions func.entry).bind fun entry he => ?_
  refine (Outcome.mapM_all (Q := fun bb => ∀ inst ∈ bb.instructions,
    Generated conf instructions inst) fun bb hbb => (addTerminators_instructions bb).weaken
      fun bb' hb => by rw [hb]; exact h.nodes bb hbb).bind fun nodes hn => ?_
  refine (addTerminators_instructions func.exit).bind fun exit hx => ?_
  exact Outcome.pure ⟨he.trans h.entry,hx.trans h.exit,hn⟩

lemma pickRandomInstructionSpec_mem (recent : Bool) :
    Ensures (pickRandomInstructionSpec conf instructions recent)
      fun r => r.1 ∈ instructions ∧ r.1.controlFlow = false := by
  refine Outcome.any.bind fun _ _ => Outcome.any.bind fun _ _ => Outcome.any.bind fun _ _ => ?_
  refine (Outcome.choice trivial _).bind fun spec hs => Outcome.pure ?_
  have := List.mem_filter.mp hs
  simp_all

lemma mem_modify {α : Type*} {l : List α} {f : α → α} {i : ℕ} {a : α} (h : a ∈ l.modify i f) :
    a ∈ l ∨ ∃ b ∈ l, a = f b := by
  obtain ⟨j,hj⟩ := List.mem_iff_getElem?.mp h
  rw [List.getElem?_modify] at hj
  split_ifs at hj
  · obtain ⟨b,hb,rfl⟩ := Option.map_eq_some_iff.mp hj
    exact Or.inr ⟨b,List.mem_of_getElem? hb,rfl⟩
  · exact Or.inl (List.mem_of_getElem? (by simpa using hj))

lemma addInstruction_generated (recent : Bool) {nodes : List BasicBlock}
    (h : ∀ bb ∈ nodes, ∀ inst ∈ bb.instructions, Generated conf instructions inst) :
    Ensures (addInstruction conf instructions recent nodes) fun r =>
      ∀ bb ∈ r.1, ∀ inst ∈ bb.instructions, Generated conf instructions inst := by
  refine Outcome.any.bind fun i _ => ?_
  refine (pickRandomInstructionSpec_mem recent).bind fun (spec,_) hs => ?_
  refine (generateInstruction_from spec).bind fun inst hi => Outcome.pure fun bb hbb j hj => ?_
  rcases mem_modify hbb with hbb | ⟨b,hb,rfl⟩
  · exact h bb hbb j hj
  · rcases List.mem_append.mp hj with hj | hj
    · exact h b hb j hj
    · rw [List.mem_singleton.mp hj]
      exact ⟨spec,hs.1,hs.2,hi⟩

lemma addInstructions_generated : ∀ (n : ℕ) (recent : Bool) {nodes : List BasicBlock},
    (∀ bb ∈ nodes, ∀ inst ∈ bb.instructions, Generated conf instructions inst) →
    Ensures (addInstructions conf instructions n recent nodes) fun nodes' =>
      ∀ bb ∈ nodes', ∀ inst ∈ bb.instructions, Generated conf instructions inst
  | 0, _, _, h => Outcome.pure h
  | n+1, recent, _, h =>
    (addInstruction_generated recent h).bind fun r h' => addInstructions_generated n r.2 h'

lemma generateTestCase_generated : Ensures (generateTestCase conf instructions)
    fun tc => ∀ func ∈ tc.functions, GeneratedFunction conf instructions func := by
  refine generateFunction_generated.bind fun func h => ?_
  refine (addTerminatorsInFunction_generated h).bind fun func h => ?_
  refine ((addInstructions_generated _ _ h.nodes).bind fun nodes hn =>
    Outcome.pure (⟨h.entry,h.exit,hn⟩ :
      GeneratedFunction conf instructions { func with nodes })).bind fun func h => ?_
  exact Outcome.pure (by simpa using h)

end Generation

namespace X86SandboxPass
variable {conf : GeneratorConf}

/-- `OR divisor, 1`. -/
def orOne (divisor : Operand) : Instruction := .instrumentation "OR" [divisor,.imm "1" 8]

/-- `MOV AX, 1`. -/
def movAx : Instruction := .instrumentation "MOV" [.reg "AX" 16 false true,.imm "1" 16]

/-- `AND D, divisor`. -/
def andD (d : String) (divisor : Operand) : Instruction :=
  .instrumentation "AND" [.reg d divisor.width false true,divisor]

/-- `SHR D, 1`. -/
def shrD (d : String) (divisor : Operand) : Instruction :=
  .instrumentation "SHR" [.reg d divisor.width false true,.imm "1" 8]

/-- `AND offset, 7`. -/
def andOffset (offset : Operand) : Instruction :=
  .instrumentation "AND" [offset,.imm mask3bits 8]

/-- `AND RCX, 0xff` and `ADD RCX, 1`. -/
def andCount : Instruction := .instrumentation "AND" [.reg "RCX" 64 true true,.imm "0xff" 8]
def addCount : Instruction := .instrumentation "ADD" [.reg "RCX" 64 true true,.imm "1" 1]

/-- What the first loop makes of an instruction. -/
inductive MemShape (conf : GeneratorConf) (inst : Instruction) : Slot → Prop
  | plain (h : inst.hasMemOperand = false) : MemShape conf inst ⟨[],some inst,[]⟩
  | explicit {operand : Operand} (implicit : inst.getImplicitMemOperands = [])
      (mem : inst.getMemOperands = [operand]) :
      MemShape conf inst ⟨[applyMask conf operand],
        some { inst with operands := inst.operands.map (·.addBase) },[]⟩
  | implicit {operand : Operand} (implicit : inst.getImplicitMemOperands = [operand]) :
      MemShape conf inst ⟨[applyMask conf operand,addBase operand],some inst,[]⟩

/-- The second loop. -/
inductive DivShape : Slot → Slot → Prop
  | plain {b : List Instruction} {inst : Instruction} (h : isDivision inst = false) :
      DivShape ⟨b,some inst,[]⟩ ⟨b,some inst,[]⟩
  | deleted {b : List Instruction} {inst : Instruction} {divisor : Operand} {rest : List Operand}
      (h : isDivision inst) (ops : inst.operands = divisor :: rest) :
      DivShape ⟨b,some inst,[]⟩ ⟨b ++ [orOne divisor],none,[]⟩
  | byte {b : List Instruction} {inst : Instruction} {divisor : Operand} {rest : List Operand}
      (h : isDivision inst) (ops : inst.operands = divisor :: rest) (width : divisor.width=8)
      (rax : contains "RAX" divisor.value = false) :
      DivShape ⟨b,some inst,[]⟩ ⟨b ++ [orOne divisor] ++ [movAx],some inst,[]⟩
  | wide {b : List Instruction} {inst : Instruction} {divisor : Operand} {rest : List Operand}
      {d : String} (h : isDivision inst) (ops : inst.operands = divisor :: rest)
      (width : divisor.width ≠ 64)
      (rdx : divisor.value ∉ ["RDX","EDX","DX","DH","DL"] ∧ contains "RDX" divisor.value = false)
      (hd : dRegister divisor.width = some d) :
      DivShape ⟨b,some inst,[]⟩
        ⟨b ++ [orOne divisor] ++ [andD d divisor] ++ [shrD d divisor],some inst,[]⟩

/-- The third loop. -/
inductive BitShape : Slot → Slot → Prop
  | gone {b : List Instruction} : BitShape ⟨b,none,[]⟩ ⟨b,none,[]⟩
  | plain {b : List Instruction} {inst : Instruction} (h : isBitTest inst = false) :
      BitShape ⟨b,some inst,[]⟩ ⟨b,some inst,[]⟩
  | register {b : List Instruction} {inst : Instruction} {v : String} {w : ℕ} {s d : Bool}
      {rest : List Operand} (h : isBitTest inst) (ops : inst.operands = .reg v w s d :: rest) :
      BitShape ⟨b,some inst,[]⟩ ⟨b,some inst,[]⟩
  | deleted {b : List Instruction} {inst : Instruction} (h : isBitTest inst) :
      BitShape ⟨b,some inst,[]⟩ ⟨b,none,[]⟩
  | immediate {b : List Instruction} {inst : Instruction} {address : Operand} {v v' : String}
      {w : ℕ} {rest : List Operand} (h : isBitTest inst)
      (ops : inst.operands = address :: .imm v w :: rest) :
      BitShape ⟨b,some inst,[]⟩
        ⟨b,some { inst with operands := address :: .imm v' w :: rest },[]⟩
  | masked {b : List Instruction} {inst : Instruction} {address offset : Operand}
      {rest : List Operand} (h : isBitTest inst) (ops : inst.operands = address :: offset :: rest) :
      BitShape ⟨b,some inst,[]⟩ ⟨b ++ [andOffset offset],some inst,[]⟩

/-- The fourth loop. -/
inductive RepShape : Slot → Slot → Prop
  | gone {b : List Instruction} : RepShape ⟨b,none,[]⟩ ⟨b,none,[]⟩
  | plain {b : List Instruction} {inst : Instruction} (h : isRepeated inst = false) :
      RepShape ⟨b,some inst,[]⟩ ⟨b,some inst,[]⟩
  | masked {b : List Instruction} {inst : Instruction} (h : isRepeated inst) :
      RepShape ⟨b,some inst,[]⟩ ⟨b ++ [andCount] ++ [addCount],some inst,[]⟩

/-- The last loop. -/
inductive CfShape : Slot → Slot → Prop
  | plain {slot : Slot} : CfShape slot slot
  | set {b : List Instruction} {inst : Instruction} :
      CfShape ⟨b,some inst,[]⟩ ⟨b,some inst,[.instrumentation "STC" []]⟩

/-- What the pass makes of an instruction. -/
def Sandboxed (conf : GeneratorConf) (inst : Instruction) (slot : Slot) : Prop :=
  ∃ s₁ s₂ s₃ s₄, MemShape conf inst s₁ ∧ DivShape s₁ s₂ ∧ BitShape s₂ s₃ ∧ RepShape s₃ s₄ ∧
    CfShape s₄ slot

lemma visit_mem (inst : Instruction) :
    Ensures (Slot.visit ⟨[],some inst,[]⟩ (·.hasMemOperand) (sandboxMemoryAccess conf))
      (MemShape conf inst) := by
  unfold Slot.visit
  dsimp only
  split_ifs with h
  · unfold sandboxMemoryAccess
    split
    · exact Outcome.throw trivial
    · next hi hm => exact Outcome.pure (.explicit hi hm)
    · next hi => exact Outcome.pure (.implicit hi)
    · exact Outcome.throw trivial
  · exact Outcome.pure (.plain (by simpa using h))

lemma MemShape.slot {inst : Instruction} {slot : Slot} (h : MemShape conf inst slot) :
    ∃ b inst', slot = ⟨b,some inst',[]⟩ := by
  cases h <;> exact ⟨_,_,rfl⟩

lemma visit_div {b : List Instruction} {inst : Instruction} :
    Ensures (Slot.visit ⟨b,some inst,[]⟩ isDivision sandboxDivision)
      (DivShape ⟨b,some inst,[]⟩) := by
  unfold Slot.visit
  dsimp only
  split_ifs with h
  · unfold sandboxDivision
    split
    · exact Outcome.throw trivial
    · next divisor rest ops =>
      dsimp only
      split_ifs with h8 hrax h64 hrdx
      · exact Outcome.pure (.deleted h ops)
      · exact Outcome.pure (.byte h ops h8 (by simpa using hrax))
      · exact Outcome.pure (.deleted h ops)
      · exact Outcome.pure (.deleted h ops)
      · split
        · exact Outcome.throw trivial
        · next d hd =>
          exact Outcome.pure (.wide h ops h64 (by simpa [not_or] using hrdx) hd)
  · exact Outcome.pure (.plain (by simpa using h))

lemma DivShape.slot {s s' : Slot} (h : DivShape s s') : ∃ b inst, s' = ⟨b,inst,[]⟩ := by
  cases h <;> exact ⟨_,_,rfl⟩

lemma visit_bit {b : List Instruction} {inst : Option Instruction} :
    Ensures (Slot.visit ⟨b,inst,[]⟩ isBitTest sandboxBitTest) (BitShape ⟨b,inst,[]⟩) := by
  unfold Slot.visit
  cases inst with
  | none => exact Outcome.pure .gone
  | some inst =>
    dsimp only
    split_ifs with h
    · unfold sandboxBitTest
      split
      · next ops => exact Outcome.pure (.register h ops)
      · next ops =>
        exact (Outcome.randint trivial _ _).bind fun _ _ => Outcome.pure (.immediate h ops)
      · next ops =>
        split_ifs
        · exact Outcome.pure (.masked h ops)
        · exact Outcome.pure (.deleted h)
      · exact Outcome.throw trivial
    · exact Outcome.pure (.plain (by simpa using h))

lemma BitShape.slot {s s' : Slot} (h : BitShape s s') : ∃ b inst, s' = ⟨b,inst,[]⟩ := by
  cases h <;> exact ⟨_,_,rfl⟩

lemma visit_rep {b : List Instruction} {inst : Option Instruction} :
    Ensures (Slot.visit ⟨b,inst,[]⟩ isRepeated sandboxRepeatedInstruction)
      (RepShape ⟨b,inst,[]⟩) := by
  unfold Slot.visit
  cases inst with
  | none => exact Outcome.pure .gone
  | some inst =>
    dsimp only
    split_ifs with h
    · exact Outcome.pure (.masked h)
    · exact Outcome.pure (.plain (by simpa using h))

lemma RepShape.slot {s s' : Slot} (h : RepShape s s') : ∃ b inst, s' = ⟨b,inst,[]⟩ := by
  cases h <;> exact ⟨_,_,rfl⟩

lemma visit_cf {b : List Instruction} {inst : Option Instruction} :
    Ensures (Slot.visit ⟨b,inst,[]⟩ isCorruptedCf sandboxCorruptedCf) (CfShape ⟨b,inst,[]⟩) := by
  unfold Slot.visit
  cases inst with
  | none => exact Outcome.pure .plain
  | some inst =>
    dsimp only
    split_ifs with h
    · exact Outcome.pure .set
    · exact Outcome.pure .plain

/-- The loops, element by element. -/
lemma mapM_shape {α : Type} {R : α → Slot → Prop} {S : α → Slot → Prop} {l : List α}
    {slots : List Slot} (h : List.Forall₂ R l slots) {f : Slot → Gen Slot}
    (hf : ∀ a slot, R a slot → Ensures (f slot) (S a)) :
    Ensures (slots.mapM f) (List.Forall₂ S l) := by
  induction h with
  | nil => exact Outcome.pure .nil
  | cons hd _ ih =>
    rw [List.mapM_cons]
    exact (hf _ _ hd).bind fun _ hs => ih.bind fun _ hss => Outcome.pure (.cons hs hss)

theorem sandbox_shape (insts : List Instruction) :
    Ensures (sandbox conf (insts.map fun inst => { inst := some inst }))
      (List.Forall₂ (Sandboxed conf) insts) := by
  have start : List.Forall₂ (fun inst slot => slot = (⟨[],some inst,[]⟩ : Slot)) insts
      (insts.map fun inst => { inst := some inst }) := by
    rw [List.forall₂_map_right_iff,List.forall₂_same]
    exact fun _ _ => rfl
  refine (mapM_shape (S := MemShape conf) start ?_).bind fun s₁ h₁ => ?_
  · rintro inst _ rfl
    exact visit_mem inst
  refine (mapM_shape (S := fun inst s => ∃ s₁, MemShape conf inst s₁ ∧ DivShape s₁ s) h₁
    ?_).bind fun s₂ h₂ => ?_
  · intro inst s₁ h
    obtain ⟨b,inst',rfl⟩ := h.slot
    exact visit_div.weaken fun s hs => ⟨_,h,hs⟩
  refine (mapM_shape (S := fun inst s => ∃ s₁ s₂, MemShape conf inst s₁ ∧ DivShape s₁ s₂ ∧
    BitShape s₂ s) h₂ ?_).bind fun s₃ h₃ => ?_
  · rintro inst s₂ ⟨s₁,h₁,h₂⟩
    obtain ⟨b,inst',rfl⟩ := h₂.slot
    exact visit_bit.weaken fun s hs => ⟨s₁,_,h₁,h₂,hs⟩
  refine (mapM_shape (S := fun inst s => ∃ s₁ s₂ s₃, MemShape conf inst s₁ ∧ DivShape s₁ s₂ ∧
    BitShape s₂ s₃ ∧ RepShape s₃ s) h₃ ?_).bind fun s₄ h₄ => ?_
  · rintro inst s₃ ⟨s₁,s₂,h₁,h₂,h₃⟩
    obtain ⟨b,inst',rfl⟩ := h₃.slot
    exact visit_rep.weaken fun s hs => ⟨s₁,s₂,_,h₁,h₂,h₃,hs⟩
  refine mapM_shape h₄ ?_
  rintro inst s₄ ⟨s₁,s₂,s₃,h₁,h₂,h₃,h₄⟩
  obtain ⟨b,inst',rfl⟩ := h₄.slot
  exact visit_cf.weaken fun s hs => ⟨s₁,s₂,s₃,_,h₁,h₂,h₃,h₄,hs⟩

end X86SandboxPass

namespace X86PatchUndefinedFlagsPass
variable {conf : GeneratorConf} {candidates : List InstructionSpec}

/-- Patches are inserted after instructions that have flags. -/
inductive Expands (Q : Instruction → Prop) : List Instruction → List Instruction → Prop
  | nil : Expands Q [] []
  | cons {inst : Instruction} {patches l l' : List Instruction} (hp : ∀ p ∈ patches, Q p)
      (hf : inst.getFlagsOperand = none → patches = []) (rest : Expands Q l l') :
      Expands Q (inst :: l) (inst :: patches ++ l')

lemma Expands.append {Q : Instruction → Prop} {a a' b b' : List Instruction}
    (ha : Expands Q a a') (hb : Expands Q b b') : Expands Q (a ++ b) (a' ++ b') := by
  induction ha with
  | nil => exact hb
  | cons hp hf _ ih => simpa using Expands.cons hp hf ih

lemma Expands.of_append {Q : Instruction → Prop} {a b out : List Instruction}
    (h : Expands Q (a ++ b) out) :
    ∃ a' b', out = a' ++ b' ∧ Expands Q a a' ∧ Expands Q b b' := by
  induction a generalizing out with
  | nil => exact ⟨[],out,rfl,.nil,h⟩
  | cons i a ih =>
    cases h with
    | cons hp hf rest =>
      obtain ⟨a',b',rfl,ha,hb⟩ := ih rest
      exact ⟨_,b',by simp,.cons hp hf ha,hb⟩

/-- Code without flags is left as it is. -/
lemma Expands.eq_of_none {Q : Instruction → Prop} {a out : List Instruction}
    (h : Expands Q a out) (none : ∀ i ∈ a, i.getFlagsOperand = none) : out = a := by
  induction h with
  | nil => rfl
  | cons hp hf _ ih =>
    rw [hf (none _ (by simp)),ih fun i hi => none i (by simp [hi])]
    rfl

/-- An instruction made of a candidate. -/
def FromCandidate (conf : GeneratorConf) (candidates : List InstructionSpec) (inst : Instruction) :
    Prop := ∃ spec ∈ candidates, FromSpec conf spec inst

lemma searchPatch_from (L : List Flag) {specs : List InstructionSpec} (hs : specs ⊆ candidates) :
    ∀ {U : List Flag}, Ensures (searchPatch conf L specs U)
      fun r => ∀ p ∈ r.1, FromCandidate conf candidates p := by
  induction specs with
  | nil => exact Outcome.pure (by simp)
  | cons spec specs ih =>
    intro U
    have rest {V : List Flag} := ih (fun c hc => hs (by simp [hc])) (U := V)
    refine (generateInstruction_from spec).bind fun patch hp => ?_
    have new : FromCandidate conf candidates patch := ⟨spec,hs (by simp),hp⟩
    split
    · exact Outcome.throw trivial
    · dsimp only
      split_ifs
      · exact Outcome.pure (by simpa using new)
      · exact rest.bind fun r hr => Outcome.pure (List.forall_mem_cons.mpr ⟨new,hr⟩)
      · exact rest

lemma neededPatches_from (U L : List Flag) : Ensures (neededPatches conf candidates U L)
    fun ps => ∀ p ∈ ps, FromCandidate conf candidates p := by
  unfold neededPatches
  split_ifs
  · exact Outcome.pure (by simp)
  refine (searchPatch_from L (List.Subset.refl _)).bind fun r hr => ?_
  dsimp only
  split_ifs
  · refine Outcome.pure fun p hp => ?_
    obtain ⟨q,hq,rfl⟩ := List.mem_map.mp hp
    obtain ⟨spec,hs,h⟩ := hr q hq
    exact ⟨spec,hs,h.name_eq,h.category_eq,h.controlFlow_eq,h.operands,h.implicitOperands⟩
  · exact Outcome.throw trivial

lemma patchInstruction_from (inst : Instruction) (L : List Flag) :
    Ensures (patchInstruction conf candidates inst L) fun r =>
      (∀ p ∈ r.1, FromCandidate conf candidates p) ∧
        (inst.getFlagsOperand = none → r.1 = []) := by
  unfold patchInstruction
  cases inst.getFlagsOperand with
  | none => exact Outcome.pure (by simp)
  | some flags =>
    exact (neededPatches_from _ L).bind fun ps hps => Outcome.pure (by simpa using hps)

lemma walk_expands : ∀ (rev placed : List Instruction) (L : List Flag),
    Ensures (walk conf candidates rev placed L) fun out => ∃ entry body,
      out = entry ++ body ++ placed ∧ (∀ p ∈ entry, FromCandidate conf candidates p) ∧
        Expands (FromCandidate conf candidates) rev.reverse body
  | [], placed, L => (neededPatches_from L L).bind fun ps hps => Outcome.pure
      ⟨ps.reverse,[],by simp,by simpa using hps,.nil⟩
  | inst :: rest, placed, L => by
    refine (patchInstruction_from inst L).bind fun r hr => ?_
    refine (walk_expands rest (inst :: r.1 ++ placed) r.2).weaken ?_
    rintro out ⟨entry,body,rfl,he,hb⟩
    refine ⟨entry,body ++ inst :: r.1,by simp,he,?_⟩
    have one : Expands (FromCandidate conf candidates) [inst] (inst :: r.1) := by
      simpa using Expands.cons hr.1 hr.2 .nil
    simpa using hb.append one

/-- What the pass makes of a block. -/
def BlockExpands (conf : GeneratorConf) (candidates : List InstructionSpec) (bb bb' : BasicBlock) :
    Prop := ∃ entry body, bb'.instructions = entry ++ body ∧
      (∀ p ∈ entry, FromCandidate conf candidates p) ∧
      Expands (FromCandidate conf candidates) bb.instructions body

theorem runOnBlock_expands (bb : BasicBlock) :
    Ensures (runOnBlock conf candidates bb) (BlockExpands conf candidates bb) := by
  refine Outcome.any.bind fun L _ => ?_
  refine (walk_expands bb.instructions.reverse [] L).bind ?_
  rintro out ⟨entry,body,rfl,he,hb⟩
  exact Outcome.pure ⟨entry,body,by simp,he,by simpa using hb⟩

end X86PatchUndefinedFlagsPass

namespace X86PatchUndefinedResultPass

/-- What the pass makes of an instruction. -/
inductive Scan (inst : Instruction) : List Instruction → Prop
  | plain : Scan inst [inst]
  | masked {target source : Operand} {rest : List Operand} {text : String} {w : ℕ}
      (h : isBitScan inst) (ops : inst.operands = target :: source :: rest) :
      Scan inst [.instrumentation "OR" [source,.imm text w],inst]

lemma Scan.eq_of_not {inst : Instruction} {l : List Instruction} (h : Scan inst l)
    (hn : isBitScan inst = false) : l = [inst] := by
  cases h with
  | plain => rfl
  | masked hb => simp [hn] at hb

lemma runOnBlock_scan (bb : BasicBlock) : Ensures (runOnBlock bb) fun bb' =>
    ∃ pieces, List.Forall₂ Scan bb.instructions pieces ∧ bb'.instructions = pieces.flatten := by
  refine (Outcome.mapM (R := Scan) fun inst _ => ?_).bind fun pieces h =>
    Outcome.pure ⟨pieces,h,rfl⟩
  split_ifs with hb
  · unfold patchBitScan
    split
    · next ops =>
      split_ifs
      · exact Outcome.pure (.masked hb ops)
      · exact Outcome.throw trivial
      · exact Outcome.pure (.masked hb ops)
    · exact Outcome.throw trivial
  · exact Outcome.pure .plain

end X86PatchUndefinedResultPass

/-- What the instruction set tells of the instructions that the passes know by name. -/
structure WellFormedSpec (spec : InstructionSpec) : Prop where
  /-- Flags are implicit operands. -/
  flags : ∀ o ∈ spec.operands, o.flagsOperand = none
  /-- Names are in upper case, and registers have the width of their operand. -/
  registers : ∀ values width src dest, .reg values width src dest ∈ spec.operands →
    ∀ v ∈ values, v.toUpper = v ∧ ∀ n, regName v = some n → n.width = width
  division : spec.name ∈ ["DIV","REX DIV"] → ∃ divisor, spec.operands = [divisor]
  bitTest : spec.name ∈ X86SandboxPass.bitTestNames → ∃ address offset,
    spec.operands = [address,offset] ∧ offset.isMem = false
  bitScan : spec.name ∈ ["BSF","BSR"] → ∃ target source, spec.operands = [target,source] ∧
    target.isMem = false

section Shape
open X86SandboxPass X86PatchUndefinedFlagsPass X86PatchUndefinedResultPass
variable (conf : GeneratorConf) (instructions : List InstructionSpec)

/-- The parts of a block after all passes. -/
inductive Piece : List Instruction → Prop
  | patch {inst : Instruction} {l : List Instruction} (hi : IsPatch conf instructions inst)
      (hl : Scan inst l) : Piece l
  | stc : Piece [.instrumentation "STC" []]
  | kept {inst inst' : Instruction} {slot : Slot} {l : List Instruction}
      (hg : Generated conf instructions inst) (hs : Sandboxed conf inst slot)
      (hi : slot.inst = some inst') (hl : Scan inst' l) : Piece (slot.before ++ l)
  | deleted {inst : Instruction} {slot : Slot} (hg : Generated conf instructions inst)
      (hs : Sandboxed conf inst slot) (hi : slot.inst = none) : Piece slot.before

def Shaped (l : List Instruction) : Prop :=
  ∃ pieces : List (List Instruction), l = pieces.flatten ∧ ∀ p ∈ pieces, Piece conf instructions p

variable {conf instructions}

lemma Shaped.append {l l' : List Instruction} (h : Shaped conf instructions l)
    (h' : Shaped conf instructions l') : Shaped conf instructions (l ++ l') := by
  obtain ⟨ps,rfl,hp⟩ := h
  obtain ⟨ps',rfl,hp'⟩ := h'
  exact ⟨ps ++ ps',by simp,List.forall_mem_append.mpr ⟨hp,hp'⟩⟩

lemma Piece.shaped {l : List Instruction} (h : Piece conf instructions l) :
    Shaped conf instructions l := ⟨[l],by simp,by simpa using h⟩

lemma shaped_nil : Shaped conf instructions [] := ⟨[],rfl,by simp⟩

lemma shaped_patches {ps : List Instruction} {pieces : List (List Instruction)}
    (hp : ∀ p ∈ ps, IsPatch conf instructions p) (h : List.Forall₂ Scan ps pieces) :
    Shaped conf instructions pieces.flatten := by
  induction h with
  | nil => exact shaped_nil
  | cons hd _ ih =>
    rw [List.flatten_cons]
    exact (Piece.patch (hp _ (by simp)) hd).shaped.append (ih fun p h => hp p (by simp [h]))

/-- Instrumentation as the later passes see it: they add nothing to it. -/
def Quiet (inst : Instruction) : Prop :=
  inst.getFlagsOperand = none ∧ isBitScan inst = false

lemma quiet_instrumentation {name : String} {ops : List Operand} (hn : name ∉ ["BSF","BSR"])
    (ho : ∀ o ∈ ops, o.flagsOperand = none) : Quiet (.instrumentation name ops) :=
  ⟨Instruction.instrumentation_flags name ops ho,by simpa [isBitScan,Instruction.instrumentation] using hn⟩

/-- A slot whose instrumentation is quiet and whose instruction has no explicit flags. -/
structure QuietSlot (slot : Slot) : Prop where
  before : ∀ i ∈ slot.before, Quiet i
  inst : ∀ i, slot.inst = some i → ∀ o ∈ i.operands, o.flagsOperand = none

lemma addBase_flags (o : Operand) : o.addBase.flagsOperand = o.flagsOperand := by cases o <;> rfl

lemma QuietSlot.insert {b b' : List Instruction} {i i' : Option Instruction}
    (h : QuietSlot ⟨b,i,[]⟩) (hb : ∀ x ∈ b', Quiet x)
    (hi : ∀ x, i' = some x → ∀ o ∈ x.operands, o.flagsOperand = none) :
    QuietSlot ⟨b ++ b',i',[]⟩ :=
  ⟨List.forall_mem_append.mpr ⟨h.before,hb⟩,hi⟩

lemma X86SandboxPass.MemShape.quiet {inst : Instruction} {slot : Slot} (h : MemShape conf inst slot)
    (hi : ∀ o ∈ inst.operands, o.flagsOperand = none) : QuietSlot slot := by
  have mask (o : Operand) : Quiet (applyMask conf o) := quiet_instrumentation (by decide)
    (by simp)
  have base (o : Operand) : Quiet (X86SandboxPass.addBase o) := quiet_instrumentation (by decide)
    (by simp)
  cases h with
  | plain => exact ⟨by simp,by simpa using hi⟩
  | explicit => exact ⟨by simpa using mask _,by simpa [addBase_flags] using hi⟩
  | implicit => exact ⟨by simpa using ⟨mask _,base _⟩,by simpa using hi⟩

lemma X86SandboxPass.DivShape.quiet {s s' : Slot} (h : DivShape s s') (hs : QuietSlot s) : QuietSlot s' := by
  cases h with
  | plain => exact hs
  | @deleted b inst divisor rest h ops =>
    have hd := hs.inst inst rfl divisor (by simp [ops])
    exact hs.insert (List.forall_mem_singleton.mpr
      (quiet_instrumentation (by decide) (by simp [hd]))) (by simp)
  | @byte b inst divisor rest h ops =>
    have hd := hs.inst inst rfl divisor (by simp [ops])
    rw [List.append_assoc]
    refine hs.insert ?_ hs.inst
    simp only [List.singleton_append,List.forall_mem_cons]
    exact ⟨quiet_instrumentation (by decide) (by simp [hd]),
      quiet_instrumentation (by decide) (by simp),by simp⟩
  | @wide b inst divisor rest d h ops =>
    have hd := hs.inst inst rfl divisor (by simp [ops])
    rw [List.append_assoc,List.append_assoc]
    refine hs.insert ?_ hs.inst
    simp only [List.singleton_append,List.forall_mem_cons]
    exact ⟨quiet_instrumentation (by decide) (by simp [hd]),
      quiet_instrumentation (by decide) (by simp [hd]),
      quiet_instrumentation (by decide) (by simp),by simp⟩

lemma X86SandboxPass.BitShape.quiet {s s' : Slot} (h : BitShape s s') (hs : QuietSlot s) : QuietSlot s' := by
  cases h with
  | gone => exact hs
  | plain => exact hs
  | register => exact hs
  | deleted => exact ⟨hs.before,by simp⟩
  | @immediate b inst address v v' w rest h ops =>
    refine ⟨hs.before,?_⟩
    have := hs.inst inst rfl
    simp_all
  | @masked b inst address offset rest h ops =>
    have ho := hs.inst inst rfl offset (by simp [ops])
    exact hs.insert (List.forall_mem_singleton.mpr
      (quiet_instrumentation (by decide) (by simp [ho]))) hs.inst

lemma X86SandboxPass.RepShape.quiet {s s' : Slot} (h : RepShape s s') (hs : QuietSlot s) : QuietSlot s' := by
  cases h with
  | gone => exact hs
  | plain => exact hs
  | masked =>
    rw [List.append_assoc]
    refine hs.insert ?_ hs.inst
    simp only [List.singleton_append,List.forall_mem_cons]
    exact ⟨quiet_instrumentation (by decide) (by simp),
      quiet_instrumentation (by decide) (by simp),by simp⟩

/-- The instrumentation of a slot is quiet, and behind it stands at most an STC. -/
lemma X86SandboxPass.Sandboxed.quiet {inst : Instruction} {slot : Slot} (h : Sandboxed conf inst slot)
    (hi : ∀ o ∈ inst.operands, o.flagsOperand = none) :
    (∀ i ∈ slot.before, Quiet i) ∧
      (slot.after = [] ∨ slot.after = [.instrumentation "STC" []]) := by
  obtain ⟨s₁,s₂,s₃,s₄,h₁,h₂,h₃,h₄,h₅⟩ := h
  have quiet := h₄.quiet (h₃.quiet (h₂.quiet (h₁.quiet hi)))
  obtain ⟨b,inst',rfl⟩ := h₄.slot
  cases h₅ with
  | plain => exact ⟨quiet.before,Or.inl rfl⟩
  | set => exact ⟨quiet.before,Or.inr rfl⟩

lemma scan_quiet {l : List Instruction} {pieces : List (List Instruction)}
    (h : List.Forall₂ Scan l pieces) (hq : ∀ i ∈ l, Quiet i) : pieces.flatten = l := by
  induction h with
  | nil => rfl
  | cons hd _ ih =>
    rw [List.flatten_cons,hd.eq_of_not (hq _ (by simp)).2,ih fun i hi => hq i (by simp [hi])]
    rfl

/-- What becomes of one slot. -/
lemma shaped_slot (wf : ∀ spec ∈ instructions, WellFormedSpec spec) {inst : Instruction}
    {slot : Slot} (hg : Generated conf instructions inst) (hs : Sandboxed conf inst slot)
    {body : List Instruction} {pieces : List (List Instruction)}
    (he : Expands (IsPatch conf instructions) slot.instructions body)
    (hp : List.Forall₂ Scan body pieces) : Shaped conf instructions pieces.flatten := by
  have noFlags : ∀ o ∈ inst.operands, o.flagsOperand = none := by
    obtain ⟨spec,hspec,-,hfrom⟩ := hg
    intro op hop
    obtain ⟨o,ho,h⟩ := exists_operandSpec hfrom.operands hop
    rw [h.flagsOperand,(wf spec hspec).flags o ho]
  obtain ⟨quiet,after⟩ := hs.quiet noFlags
  have quietAfter : ∀ i ∈ slot.after, Quiet i := by
    rcases after with h | h <;> rw [h]
    · simp
    · exact List.forall_mem_singleton.mpr (quiet_instrumentation (by decide) (by simp))
  obtain ⟨b,b₃,rfl,he,he₃⟩ := he.of_append
  obtain ⟨b₁,b₂,rfl,he₁,he₂⟩ := he.of_append
  obtain rfl := he₁.eq_of_none fun i hi => (quiet i hi).1
  obtain rfl := he₃.eq_of_none fun i hi => (quietAfter i hi).1
  obtain ⟨p,p₃,rfl,hp,hp₃⟩ := Pointwise.append_left hp
  obtain ⟨p₁,p₂,rfl,hp₁,hp₂⟩ := Pointwise.append_left hp
  rw [List.flatten_append,List.flatten_append,scan_quiet hp₁ quiet,scan_quiet hp₃ quietAfter]
  have tail : Shaped conf instructions slot.after := by
    rcases after with h | h <;> rw [h]
    · exact shaped_nil
    · exact Piece.stc.shaped
  refine Shaped.append ?_ tail
  cases hi : slot.inst with
  | none =>
    rw [hi] at he₂
    cases he₂
    cases hp₂
    simpa using (Piece.deleted hg hs hi).shaped
  | some i =>
    rw [hi] at he₂
    cases he₂ with
    | cons hq hf rest =>
      cases rest
      rw [List.append_nil] at hp₂
      cases hp₂ with
      | cons hd hps =>
        rw [List.flatten_cons,← List.append_assoc]
        exact (Piece.kept hg hs hi hd).shaped.append (shaped_patches hq hps)

/-- A block between the first and the second pass. -/
def SandboxedBlock (conf : GeneratorConf) (instructions : List InstructionSpec) (bb : BasicBlock) :
    Prop := ∃ insts slots, List.Forall₂ (Sandboxed conf) insts slots ∧
      (∀ inst ∈ insts, Generated conf instructions inst) ∧
      bb.instructions = slots.flatMap (·.instructions)

/-- A block between the second and the third pass. -/
def ExpandedBlock (conf : GeneratorConf) (instructions : List InstructionSpec) (bb' : BasicBlock) :
    Prop := ∃ bb, SandboxedBlock conf instructions bb ∧
      BlockExpands conf (patchCandidates instructions) bb bb'

lemma sandboxedBlock_nil {bb : BasicBlock} (h : bb.instructions = []) :
    SandboxedBlock conf instructions bb := ⟨[],[],.nil,by simp,by simp [h]⟩

lemma ExpandedBlock.shaped (wf : ∀ spec ∈ instructions, WellFormedSpec spec) {bb : BasicBlock}
    (h : ExpandedBlock conf instructions bb) {pieces : List (List Instruction)}
    (hp : List.Forall₂ Scan bb.instructions pieces) : Shaped conf instructions pieces.flatten := by
  obtain ⟨_,⟨insts,slots,hs,hg,hb⟩,entry,body,hbody,hentry,he⟩ := h
  rw [hbody] at hp
  obtain ⟨p₁,p₂,rfl,hp₁,hp₂⟩ := Pointwise.append_left hp
  rw [List.flatten_append]
  refine (shaped_patches hentry hp₁).append ?_
  rw [hb] at he
  clear hb hbody hp hp₁
  induction hs generalizing body p₂ with
  | nil =>
    cases he
    cases hp₂
    exact shaped_nil
  | cons hd _ ih =>
    rw [List.flatMap_cons] at he
    obtain ⟨b₁,b₂,rfl,he₁,he₂⟩ := he.of_append
    obtain ⟨q₁,q₂,rfl,hq₁,hq₂⟩ := Pointwise.append_left hp₂
    rw [List.flatten_append]
    exact (shaped_slot wf (hg _ (by simp)) hd he₁ hq₁).append
      (ih (fun i hi => hg i (by simp [hi])) b₂ he₂ q₂ hq₂)

lemma sandboxPass_blocks {tc : TestCase}
    (h : ∀ func ∈ tc.functions, GeneratedFunction conf instructions func) :
    Ensures (X86SandboxPass.runOnTestCase conf tc)
      fun tc' => ∀ bb ∈ tc'.blocks, SandboxedBlock conf instructions bb := by
  have block {bb : BasicBlock} (hg : ∀ inst ∈ bb.instructions, Generated conf instructions inst) :
      Ensures (X86SandboxPass.runOnBlock conf bb) (SandboxedBlock conf instructions) :=
    (sandbox_shape bb.instructions).bind fun slots hs =>
      Outcome.pure ⟨bb.instructions,slots,hs,hg,rfl⟩
  refine (Outcome.mapM_all (Q := fun func => ∀ bb ∈ func.allBb,
    SandboxedBlock conf instructions bb) fun func hf => ?_).bind fun functions hf =>
      Outcome.pure fun bb hbb => ?_
  · have hg := h func hf
    refine (Outcome.mapM_all fun bb hbb => block (hg.nodes bb hbb)).bind fun nodes hn => ?_
    refine (block (by simp [hg.exit])).bind fun exit hx => Outcome.pure ?_
    simpa [Function.allBb,or_imp,forall_and] using ⟨sandboxedBlock_nil hg.entry,hn,hx⟩
  · obtain ⟨func,hfunc,hbb⟩ := List.mem_flatMap.mp hbb
    exact hf func hfunc bb hbb

lemma flagsPass_blocks {tc : TestCase} (h : ∀ bb ∈ tc.blocks, SandboxedBlock conf instructions bb) :
    Ensures (X86PatchUndefinedFlagsPass.runOnTestCase conf (patchCandidates instructions) tc)
      fun tc' => ∀ bb ∈ tc'.blocks, ExpandedBlock conf instructions bb := by
  have block {func : Function} (hf : func ∈ tc.functions) {bb : BasicBlock}
      (hbb : bb ∈ func.allBb) :
      Ensures (X86PatchUndefinedFlagsPass.runOnBlock conf (patchCandidates instructions) bb)
        (ExpandedBlock conf instructions) :=
    (runOnBlock_expands bb).weaken fun bb' he =>
      ⟨bb,h bb (List.mem_flatMap.mpr ⟨func,hf,hbb⟩),he⟩
  refine (Outcome.mapM_all (Q := fun func => ∀ bb ∈ func.allBb,
    ExpandedBlock conf instructions bb) fun func hf => ?_).bind fun functions hf =>
      Outcome.pure fun bb hbb => ?_
  · refine (block hf (by simp [Function.allBb])).bind fun entry he => ?_
    refine (Outcome.mapM_all fun bb hbb => block hf (by simp [Function.allBb,hbb])).bind
      fun nodes hn => ?_
    refine (block hf (by simp [Function.allBb])).bind fun exit hx => Outcome.pure ?_
    simpa [Function.allBb,or_imp,forall_and] using ⟨he,hn,hx⟩
  · obtain ⟨func,hfunc,hbb⟩ := List.mem_flatMap.mp hbb
    exact hf func hfunc bb hbb

lemma resultPass_blocks (wf : ∀ spec ∈ instructions, WellFormedSpec spec) {tc : TestCase}
    (h : ∀ bb ∈ tc.blocks, ExpandedBlock conf instructions bb) :
    Ensures (X86PatchUndefinedResultPass.runOnTestCase tc)
      fun tc' => ∀ bb ∈ tc'.blocks, Shaped conf instructions bb.instructions := by
  have block {func : Function} (hf : func ∈ tc.functions) {bb : BasicBlock}
      (hbb : bb ∈ func.allBb) : ExpandedBlock conf instructions bb :=
    h bb (List.mem_flatMap.mpr ⟨func,hf,hbb⟩)
  have scanned {bb : BasicBlock} (hbb : ExpandedBlock conf instructions bb) :
      Ensures (X86PatchUndefinedResultPass.runOnBlock bb)
        fun bb' => Shaped conf instructions bb'.instructions := by
    refine (runOnBlock_scan bb).weaken ?_
    rintro bb' ⟨pieces,hp,h⟩
    rw [h]
    exact hbb.shaped wf hp
  have unscanned {bb : BasicBlock} (hbb : ExpandedBlock conf instructions bb) :
      Shaped conf instructions bb.instructions := by
    have single : List.Forall₂ Scan bb.instructions (bb.instructions.map fun i => [i]) :=
      List.forall₂_map_right_iff.mpr (List.forall₂_same.mpr fun _ _ => .plain)
    simpa [← List.flatMap_def] using hbb.shaped wf single
  refine (Outcome.mapM_all (Q := fun func => ∀ bb ∈ func.allBb,
    Shaped conf instructions bb.instructions) fun func hf => ?_).bind fun functions hf =>
      Outcome.pure fun bb hbb => ?_
  · refine (Outcome.mapM_all fun bb hbb => scanned (block hf (by simp [Function.allBb,hbb]))).bind
      fun nodes hn => ?_
    refine (scanned (block hf (by simp [Function.allBb]))).bind fun exit hx => Outcome.pure ?_
    have entry : ExpandedBlock conf instructions func.entry := block hf (by simp [Function.allBb])
    simpa [Function.allBb,or_imp,forall_and] using ⟨unscanned entry,hn,hx⟩
  · obtain ⟨func,hfunc,hbb⟩ := List.mem_flatMap.mp hbb
    exact hf func hfunc bb hbb

/-- Every block of a created test case has this shape. -/
theorem createTestCase_shaped (wf : ∀ spec ∈ instructions, WellFormedSpec spec) :
    Ensures (createTestCase conf instructions)
      fun tc => ∀ bb ∈ tc.blocks, Shaped conf instructions bb.instructions := by
  refine (Outcome.lift (P := (· = patchCandidates instructions)) (fun candidates h => ?_)
    fun _ _ => trivial).bind ?_
  · unfold X86PatchUndefinedFlagsPass.init at h
    split at h
    · cases h
    · exact (Except.ok.inj h).symm
  rintro _ rfl
  refine generateTestCase_generated.bind fun tc h => ?_
  refine (sandboxPass_blocks h).bind fun tc h => ?_
  exact (flagsPass_blocks h).bind fun tc h => resultPass_blocks wf h

end Shape

end ProteanAmulet.Generator
