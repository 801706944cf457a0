import ProteanAmulet.Generator.TestCases

/-! The blocked registers in the reduced instruction set. The check looks at the first value of an
operand only, stops at an implicit RIP, and takes place before high bytes are renamed. -/
namespace ProteanAmulet.Generator.InstructionSet
variable {conf : GeneratorConf} {categories : List String}

/-- The registers that `generate_reg_operand` can choose. The values are made from a set, so that
any of them may be the first one, which decides. -/
def regsOf (conf : GeneratorConf) (width : ℕ) (values : List String) : List String :=
  values.flatMap fun v =>
    if v = "GPR" then (X86Registers.registers conf width).getD []
    else if v = "SIMD" then (X86Registers.simdRegisters width).getD []
    else values

/-- The registers that an operand can be generated with; the names of operands are in upper case. -/
def choices (conf : GeneratorConf) : OperandSpec → List String
  | .reg values width _ _ => (regsOf conf width values).map String.toUpper
  | .mem [] _ _ _ => ((X86Registers.registers conf 64).getD []).map String.toUpper
  | .mem (v :: vs) _ _ _ => (v :: vs).map String.toUpper
  | _ => []

/-- A blocked register other than RIP. -/
def Blocked (conf : GeneratorConf) (r : String) : Prop := r ∈ conf.gprBlocklist ∧ r ≠ "RIP"

instance (conf : GeneratorConf) : DecidablePred (Blocked conf) := fun _ =>
  inferInstanceAs (Decidable (_ ∧ _))

/-- The instruction cannot be generated with a blocked register. -/
def Clean (conf : GeneratorConf) (spec : InstructionSpec) : Prop :=
  ∀ op ∈ spec.allOperands, ∀ r ∈ choices conf op, ¬Blocked conf r

/-- The instruction is in an included category and not blocked by its name. -/
def Considered (conf : GeneratorConf) (categories : List String) (spec : InstructionSpec) : Prop :=
  (categories = [] ∨ spec.category ∈ categories) ∧ spec.name ∉ conf.instructionBlocklist

/-- No blocked register is left, and no instruction is removed without need. -/
structure Respects (conf : GeneratorConf) (categories : List String)
    (instructions reduced : List InstructionSpec) : Prop where
  clean : ∀ spec ∈ reduced, Clean conf spec
  kept : ∀ spec ∈ instructions, Considered conf categories spec → Clean conf spec →
    ∃ spec' ∈ reduced, reduceSpec conf categories spec = .ok (some spec')

/-- The first value of the operand is blocked. -/
def firstBlocked (conf : GeneratorConf) : OperandSpec → Bool
  | .reg (v :: _) _ _ _ => v ∈ conf.gprBlocklist
  | .mem (v :: _) _ _ _ => v ∈ conf.gprBlocklist
  | _ => false

def isRip : OperandSpec → Bool
  | .reg (v :: _) _ _ _ => v = "RIP"
  | _ => false

/-- What the check removes an instruction for. -/
inductive Rejected (conf : GeneratorConf) (spec : InstructionSpec) : Prop
  | mem {op : OperandSpec} (mem : op ∈ spec.operands) (kind : op.isMem) (first : firstBlocked conf op)
  | reg {values : List String} {width : ℕ} {src dest : Bool}
    (mem : .reg values width src dest ∈ spec.operands) (all : ∀ v ∈ values, v ∈ conf.gprBlocklist)
  | implicit {op : OperandSpec} (first : spec.implicitOperands.find? (firstBlocked conf) = some op)
    (rip : isRip op = false)

/-- The registers behind those values of an explicit operand that are not blocked themselves: high
bytes are renamed, and GPR and SIMD stand for many registers. -/
def unblockedChoices (conf : GeneratorConf) : OperandSpec → List String
  | .reg values width _ _ =>
    (regsOf conf width ((values.filter (· ∉ conf.gprBlocklist)).map lowByte)).map String.toUpper
  | op => choices conf op

/-- There are no blocked registers where the check does not look: behind the other values of an
operand, behind renamed values and in the implicit operands. -/
structure Leakless (conf : GeneratorConf) (spec : InstructionSpec) : Prop where
  explicit : ∀ op ∈ spec.operands, ∀ r ∈ unblockedChoices conf op, ¬Blocked conf r
  implicit : ∀ op ∈ spec.implicitOperands, ∀ r ∈ choices conf op, ¬Blocked conf r

section Check

/-- The first implicit operand whose first value is blocked decides. -/
lemma implicitSupported_eq {ops : List OperandSpec} {b : Bool}
    (h : implicitSupported conf ops = .ok b) :
    b = false ↔ ∃ op, ops.find? (firstBlocked conf) = some op ∧ isRip op = false := by
  induction ops with
  | nil =>
    cases h
    simp
  | cons op ops ih =>
    cases op with
    | label => cases h
    | mem values width src dest =>
      cases values with
      | nil => cases h
      | cons v vs =>
        rw [implicitSupported] at h
        split_ifs at h with blocked
        · cases h
          simp [firstBlocked,blocked,isRip]
        · simp [firstBlocked,blocked,ih h]
    | reg values width src dest =>
      cases values with
      | nil => cases h
      | cons v vs =>
        rw [implicitSupported] at h
        split_ifs at h with blocked single
        · cases h
          simp [firstBlocked,blocked,isRip]
        · simp [firstBlocked,blocked,ih h]
    | imm values width => exact ih h
    | agen width => exact ih h
    | flags values => exact ih h
    | cond => exact ih h

lemma blockedMem_eq (op : OperandSpec) : blockedMem conf op = (op.isMem && firstBlocked conf op) := by
  cases op with
  | mem values width src dest => cases values <;> rfl
  | reg values width src dest => cases values <;> rfl
  | imm values width => rfl
  | label => rfl
  | agen width => rfl
  | flags values => rfl
  | cond => rfl

lemma reduceOperand_eq_none {op : OperandSpec} {o : Option OperandSpec}
    (h : reduceOperand conf op = .ok o) : o = none ↔ ∃ values width src dest,
      op = .reg values width src dest ∧ ∀ v ∈ values, v ∈ conf.gprBlocklist := by
  cases op with
  | reg values width src dest =>
    have empty : (values.filter (· ∉ conf.gprBlocklist)).dedup = [] ↔
        ∀ v ∈ values, v ∈ conf.gprBlocklist := by
      rw [List.dedup_eq_nil,List.filter_eq_nil_iff]
      simp
    unfold reduceOperand at h
    dsimp only at h
    split_ifs at h with all
    · cases h
      simpa using empty.mp all
    · cases h
      rw [empty] at all
      simpa using all
  | mem values width src dest => cases h; simp
  | imm values width => cases h; simp
  | label => cases h; simp
  | agen width => cases h; simp
  | flags values => cases h; simp
  | cond => cases h; simp

lemma reduceOperands_eq_none {ops : List OperandSpec} {o : Option (List OperandSpec)}
    (h : reduceOperands conf ops = .ok o) : o = none ↔ ∃ values width src dest,
      .reg values width src dest ∈ ops ∧ ∀ v ∈ values, v ∈ conf.gprBlocklist := by
  induction ops generalizing o with
  | nil =>
    cases h
    simp
  | cons op ops ih =>
    obtain ⟨first,hf,h⟩ := Except.bind_eq_ok.mp h
    have none := reduceOperand_eq_none hf
    cases first with
    | none =>
      cases h
      obtain ⟨values,width,src,dest,rfl,all⟩ := none.mp rfl
      exact ⟨fun _ => ⟨values,width,src,dest,List.mem_cons_self,all⟩,fun _ => rfl⟩
    | some op' =>
      obtain ⟨rest,hr,h⟩ := Except.bind_eq_ok.mp h
      cases h
      rw [Option.map_eq_none_iff,ih hr]
      constructor
      · rintro ⟨values,width,src,dest,mem,all⟩
        exact ⟨values,width,src,dest,List.mem_cons_of_mem op mem,all⟩
      · rintro ⟨values,width,src,dest,mem,all⟩
        rcases List.mem_cons.mp mem with rfl | mem
        · cases none.mpr ⟨values,width,src,dest,rfl,all⟩
        · exact ⟨values,width,src,dest,mem,all⟩

lemma reduceSpec_eq_none {spec : InstructionSpec} {o : Option InstructionSpec}
    (generation : conf.noGeneration = false) (considered : Considered conf categories spec)
    (h : reduceSpec conf categories spec = .ok o) : o = none ↔ Rejected conf spec := by
  obtain ⟨b,hb,h⟩ := Except.bind_eq_ok.mp h
  have category : ¬(categories ≠ [] ∧ spec.category ∉ categories) := by
    rintro ⟨some,excluded⟩
    exact considered.1.elim some excluded
  rw [isSupported,generation,if_neg Bool.false_ne_true,if_neg category,if_neg considered.2] at hb
  by_cases mem : spec.operands.any (blockedMem conf)
  · rw [if_pos mem] at hb
    cases hb
    cases h
    obtain ⟨op,hop,blocked⟩ := List.any_eq_true.mp mem
    rw [blockedMem_eq,Bool.and_eq_true] at blocked
    exact ⟨fun _ => .mem hop blocked.1 blocked.2,fun _ => rfl⟩
  rw [if_neg mem] at hb
  have implicit := implicitSupported_eq hb
  cases b with
  | false =>
    cases h
    obtain ⟨op,first,rip⟩ := implicit.mp rfl
    exact ⟨fun _ => .implicit first rip,fun _ => rfl⟩
  | true =>
    obtain ⟨ops,hops,h⟩ := Except.bind_eq_ok.mp h
    cases h
    rw [Option.map_eq_none_iff,reduceOperands_eq_none hops]
    constructor
    · rintro ⟨values,width,src,dest,hop,all⟩
      exact .reg hop all
    · intro rejected
      cases rejected with
      | mem hop kind first =>
        refine absurd (List.any_eq_true.mpr ⟨_,hop,?_⟩) mem
        rw [blockedMem_eq,kind,first]
        rfl
      | reg hop all => exact ⟨_,_,_,_,hop,all⟩
      | implicit first rip => cases implicit.mpr ⟨_,first,rip⟩

end Check

section Choices

lemma regsOf_subset {width : ℕ} {values values' : List String} (h : values ⊆ values') :
    regsOf conf width values ⊆ regsOf conf width values' := by
  intro r hr
  obtain ⟨v,hv,hr⟩ := List.mem_flatMap.mp hr
  refine List.mem_flatMap.mpr ⟨v,h hv,?_⟩
  split_ifs at hr ⊢
  · exact hr
  · exact hr
  · exact h hr

/-- What is left of an explicit operand. -/
lemma mem_choices_reduceOperand {op op' : OperandSpec} (h : reduceOperand conf op = .ok (some op'))
    (r : String) : r ∈ choices conf op' ↔ r ∈ unblockedChoices conf op := by
  cases op with
  | reg values width src dest =>
    unfold reduceOperand at h
    dsimp only at h
    split_ifs at h
    · cases h
    · cases h
      have there : (values.filter (· ∉ conf.gprBlocklist)).dedup ⊆
          values.filter (· ∉ conf.gprBlocklist) := List.dedup_subset _
      have back : values.filter (· ∉ conf.gprBlocklist) ⊆
          (values.filter (· ∉ conf.gprBlocklist)).dedup := List.subset_dedup _
      constructor
      · intro hr
        exact List.map_subset _ (regsOf_subset (List.map_subset _ there)) hr
      · intro hr
        exact List.map_subset _ (regsOf_subset (List.map_subset _ back)) hr
  | mem values width src dest => cases h; rfl
  | imm values width => cases h; rfl
  | label => cases h; rfl
  | agen width => cases h; rfl
  | flags values => cases h; rfl
  | cond => cases h; rfl

lemma forall_choices_reduceOperands {P : String → Prop} {ops ops' : List OperandSpec}
    (h : reduceOperands conf ops = .ok (some ops')) :
    (∀ op ∈ ops', ∀ r ∈ choices conf op, P r) ↔
      ∀ op ∈ ops, ∀ r ∈ unblockedChoices conf op, P r := by
  induction ops generalizing ops' with
  | nil =>
    cases h
    simp
  | cons op ops ih =>
    obtain ⟨first,hf,h⟩ := Except.bind_eq_ok.mp h
    cases first with
    | none => cases h
    | some op' =>
      obtain ⟨rest,hr,h⟩ := Except.bind_eq_ok.mp h
      obtain ⟨l,rfl,rfl⟩ := Option.map_eq_some_iff.mp (Except.ok.inj h)
      simp only [List.forall_mem_cons,ih hr,mem_choices_reduceOperand hf]

lemma clean_reduceSpec {spec spec' : InstructionSpec}
    (h : reduceSpec conf categories spec = .ok (some spec')) :
    Clean conf spec' ↔ Leakless conf spec := by
  obtain ⟨b,-,h⟩ := Except.bind_eq_ok.mp h
  cases b with
  | false => cases h
  | true =>
    obtain ⟨ops,hops,h⟩ := Except.bind_eq_ok.mp h
    obtain ⟨l,rfl,rfl⟩ := Option.map_eq_some_iff.mp (Except.ok.inj h)
    rw [Clean,InstructionSpec.allOperands,List.forall_mem_append,forall_choices_reduceOperands hops]
    exact ⟨fun h => ⟨h.1,h.2⟩,fun h => ⟨h.explicit,h.implicit⟩⟩

lemma considered_of_reduceSpec {spec spec' : InstructionSpec} (generation : conf.noGeneration = false)
    (h : reduceSpec conf categories spec = .ok (some spec')) : Considered conf categories spec := by
  obtain ⟨b,hb,h⟩ := Except.bind_eq_ok.mp h
  rw [isSupported,generation,if_neg Bool.false_ne_true] at hb
  by_cases category : categories ≠ [] ∧ spec.category ∉ categories
  · rw [if_pos category] at hb
    cases hb
    cases h
  rw [if_neg category] at hb
  by_cases name : spec.name ∈ conf.instructionBlocklist
  · rw [if_pos name] at hb
    cases hb
    cases h
  refine ⟨?_,name⟩
  by_contra excluded
  rw [not_or] at excluded
  exact category excluded

end Choices

section Generated
variable {spec : InstructionSpec} {inst : Instruction}

/-- The registers of a register or memory operand. -/
def registersOf : Operand → List String
  | .reg value _ _ _ => [value]
  | .mem address _ _ _ => address
  | _ => []

lemma regChoices_subset {values l : List String} {width : ℕ}
    (h : regChoices conf values width = .ok l) : l ⊆ regsOf conf width values := by
  cases values with
  | nil => cases h
  | cons v values =>
    intro r hr
    refine List.mem_flatMap.mpr ⟨v,List.mem_cons_self,?_⟩
    rw [regChoices] at h
    split_ifs at h ⊢
    · cases hw : X86Registers.registers conf width with
      | none =>
        rw [hw] at h
        cases h
      | some regs =>
        rw [hw] at h
        cases h
        exact hr
    · cases hw : X86Registers.simdRegisters width with
      | none =>
        rw [hw] at h
        cases h
      | some regs =>
        rw [hw] at h
        cases h
        exact hr
    · cases h
      exact hr

lemma mem_choices_of_operandFrom {all : List OperandSpec} {o : OperandSpec} {op : Operand}
    (ho : o ∈ all) (h : OperandFrom conf all o op) {r : String} (hr : r ∈ registersOf op) :
    ∃ o' ∈ all, r ∈ choices conf o' := by
  cases op with
  | reg value width src dest =>
    obtain rfl := List.mem_singleton.mp hr
    cases o with
    | reg =>
      obtain ⟨values,l,mem,hl,v,hv,rfl⟩ := h
      exact ⟨_,mem,List.mem_map_of_mem (regChoices_subset hl hv)⟩
    | _ => cases h
  | mem address width src dest =>
    cases o with
    | mem values width' src' dest' =>
      obtain ⟨-,-,-,v,rfl,hv⟩ := h
      obtain rfl := List.mem_singleton.mp hr
      refine ⟨_,ho,?_⟩
      rcases hv with hv | ⟨rfl,l,hl,hv⟩
      · cases values with
        | nil => cases hv
        | cons => exact List.mem_map_of_mem hv
      · rw [choices,hl]
        exact List.mem_map_of_mem hv
    | _ => cases h
  | _ => cases hr

/-- The registers of a generated instruction are choices of its specification, so that a clean
specification leads to no blocked register. -/
theorem generateInstruction_clean (clean : Clean conf spec) :
    Drawing.Ensures (generateInstruction conf spec) fun inst =>
      ∀ op ∈ inst.allOperands, ∀ r ∈ registersOf op, ¬Blocked conf r := by
  refine (generateInstruction_from spec).weaken fun inst h => ?_
  intro op hop r hr
  have chosen : ∃ o ∈ spec.allOperands, r ∈ choices conf o := by
    rcases List.mem_append.mp hop with hop | hop
    · obtain ⟨o,ho,from'⟩ := exists_operandSpec h.operands hop
      obtain ⟨o',ho',hr⟩ := mem_choices_of_operandFrom ho from' hr
      exact ⟨o',List.mem_append_left _ ho',hr⟩
    · obtain ⟨o,ho,from'⟩ := exists_operandSpec h.implicitOperands hop
      exact mem_choices_of_operandFrom (List.mem_append_right _ ho) from' hr
  obtain ⟨o,ho,hr⟩ := chosen
  exact clean o ho r hr

end Generated

section Reduced
variable {instructions reduced : List InstructionSpec}

/-- Every instruction is looked at, and what is left of it is in the reduced set. -/
lemma reduceSpec_of_mem (ok : reduce conf categories instructions = .ok reduced)
    {spec : InstructionSpec} (hs : spec ∈ instructions) : ∃ o, reduceSpec conf categories spec = .ok o ∧
      ∀ spec', o = some spec' → spec' ∈ reduced := by
  obtain ⟨all,hall,ok⟩ := Except.bind_eq_ok.mp ok
  cases ok
  obtain ⟨o,ho,hr⟩ := Except.image_of_mapM hall spec hs
  refine ⟨o,hr,?_⟩
  rintro spec' rfl
  exact List.mem_filterMap.mpr ⟨some spec',ho,rfl⟩

/-- Nothing else is in the reduced set. -/
lemma reduceSpec_of_mem_reduced (ok : reduce conf categories instructions = .ok reduced)
    {spec' : InstructionSpec} (hs' : spec' ∈ reduced) :
    ∃ spec ∈ instructions, reduceSpec conf categories spec = .ok (some spec') := by
  obtain ⟨all,hall,ok⟩ := Except.bind_eq_ok.mp ok
  cases ok
  obtain ⟨o,ho,hs'⟩ := List.mem_filterMap.mp hs'
  obtain rfl : o = some spec' := hs'
  exact Except.exists_of_mapM hall _ ho

end Reduced

/-- The reduced instruction set respects the blocklist exactly if the check finds all blocked
registers and finds no other ones. -/
theorem reduce_respects_iff {instructions reduced : List InstructionSpec}
    (generation : conf.noGeneration = false)
    (ok : reduce conf categories instructions = .ok reduced) :
    Respects conf categories instructions reduced ↔
      ∀ spec ∈ instructions, Considered conf categories spec →
        (Rejected conf spec → ¬Clean conf spec) ∧ (¬Rejected conf spec → Leakless conf spec) := by
  constructor
  · intro h spec hs considered
    obtain ⟨o,hr,ho⟩ := reduceSpec_of_mem ok hs
    have none := reduceSpec_eq_none generation considered hr
    constructor
    · intro rejected clean
      obtain ⟨spec',-,kept⟩ := h.kept spec hs considered clean
      rw [hr,none.mpr rejected] at kept
      cases kept
    · intro accepted
      cases o with
      | none => exact absurd (none.mp rfl) accepted
      | some spec' =>
        apply (clean_reduceSpec hr).mp
        exact h.clean spec' (ho spec' rfl)
  · intro h
    constructor
    · intro spec' hs'
      obtain ⟨spec,hs,hr⟩ := reduceSpec_of_mem_reduced ok hs'
      have considered := considered_of_reduceSpec generation hr
      have accepted : ¬Rejected conf spec := by
        intro rejected
        cases (reduceSpec_eq_none generation considered hr).mpr rejected
      exact (clean_reduceSpec hr).mpr ((h spec hs considered).2 accepted)
    · intro spec hs considered clean
      obtain ⟨o,hr,ho⟩ := reduceSpec_of_mem ok hs
      cases o with
      | none =>
        have rejected := (reduceSpec_eq_none generation considered hr).mp rfl
        exact absurd clean ((h spec hs considered).1 rejected)
      | some spec' => exact ⟨spec',ho spec' rfl,hr⟩

/-- An instruction of the unit tests, on high bytes. -/
def adcHigh : InstructionSpec where
  name := "ADC"
  operands := [.reg ["AH","CH","DH","BH"] 8 true true,.imm [] 8]
  implicitOperands := []
  category := "BASE-BINARY"

theorem reduce_respects_high : ({ gprBlocklist := ["R14","AH"] } : GeneratorConf).noGeneration = false ∧
    ∃ reduced, reduce { gprBlocklist := ["R14","AH"] } [] [adcHigh] = .ok reduced ∧
      Respects { gprBlocklist := ["R14","AH"] } [] [adcHigh] reduced := by
  have ok : reduce { gprBlocklist := ["R14","AH"] } [] [adcHigh] =
      .ok [{ adcHigh with operands := [.reg ["CL","DL","BL"] 8 true true,.imm [] 8] }] := by
    decide +kernel
  refine ⟨rfl,_,ok,(reduce_respects_iff rfl ok).mpr ?_⟩
  intro spec hs _
  obtain rfl := List.mem_singleton.mp hs
  refine ⟨?_,fun _ => ⟨by decide +kernel,by decide⟩⟩
  intro rejected
  cases rejected with
  | mem hop kind first =>
    simp only [adcHigh,List.mem_cons,List.not_mem_nil,or_false] at hop
    rcases hop with rfl | rfl <;> cases kind
  | reg hop all =>
    simp only [adcHigh,List.mem_cons,List.not_mem_nil,or_false,OperandSpec.reg.injEq,reduceCtorEq] at hop
    obtain ⟨rfl,-⟩ := hop
    exact absurd (all "CH" (by simp)) (by decide)
  | implicit first rip => cases first

theorem reduce_not_respects : ∃ reduced, reduce { gprBlocklist := ["AL"] } [] [adcHigh] = .ok reduced ∧
    ¬Respects { gprBlocklist := ["AL"] } [] [adcHigh] reduced := by
  have ok : reduce { gprBlocklist := ["AL"] } [] [adcHigh] =
      .ok [{ adcHigh with operands := [.reg ["AL","CL","DL","BL"] 8 true true,.imm [] 8] }] := by
    decide +kernel
  refine ⟨_,ok,fun h => ?_⟩
  have clean := h.clean _ (List.mem_singleton_self _)
  have al := clean (.reg ["AL","CL","DL","BL"] 8 true true) (by simp [InstructionSpec.allOperands]) "AL"
    (by decide +kernel)
  exact al ⟨by decide,by decide⟩

end ProteanAmulet.Generator.InstructionSet
