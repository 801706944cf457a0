import ProteanAmulet.Model.Emulator
import ProteanAmulet.Model.TaintTracker

/-! What the declared operands of an instruction promise about its execution, and what the
taint tracker collects from them. -/
namespace ProteanAmulet

/-- The 64-bit register that a name is a part of. -/
def RegName.full : RegName → Option Gpr
  | .gpr _ r | .high r => some r
  | .flags | .rip | .seg _ => none

lemma gprNormalized_full {n : RegName} {r : Gpr} {ℓ : RegLabel}
    (h : X86Registers.gprNormalized n = some ℓ) (hr : n.full = some r) : ℓ = r.key ∧ r ≠ .BP := by
  cases n with
  | gpr w r' =>
    cases hr
    cases w <;> cases r <;> cases h <;> exact ⟨rfl,nofun⟩
  | high r' =>
    cases hr
    cases r <;> cases h <;> exact ⟨rfl,nofun⟩
  | flags => cases hr
  | rip => cases hr
  | seg s => cases hr

namespace Instruction
variable (i : Instruction)

def ReadsReg (r : Gpr) : Prop := ∃ n dest, .reg n true dest ∈ i.allOperands ∧ n.full = some r
def WritesReg (r : Gpr) : Prop := ∃ n src, .reg n src true ∈ i.allOperands ∧ n.full = some r
def ReadsFlag (f : Flag) : Prop := ∃ o, .flags o ∈ i.allOperands ∧ f ∈ o.getReadFlags
def WritesFlag (f : Flag) : Prop := ∃ o, .flags o ∈ i.allOperands ∧ f ∈ o.getWriteFlags

/-- The names in the address of a memory operand. -/
def AddressName (n : RegName) : Prop :=
  ∃ names src dest, .mem names src dest ∈ i.allOperands ∧ n ∈ names

/-- The registers that form the addresses of the memory operands. -/
def AddressReg (r : Gpr) : Prop := ∃ n, i.AddressName n ∧ n.full = some r

/-- The registers of an address-generation operand. -/
def AgenReg (r : Gpr) : Prop :=
  ∃ names n, .agen names ∈ i.allOperands ∧ n ∈ names ∧ n.full = some r

end Instruction

/-- The processors agree on the source operands, and on the registers in `also`. -/
structure SameSources (i : Instruction) (also : Gpr → Prop) (c c' : Cpu) : Prop where
  rip : c.rip = c'.rip
  reg : ∀ r, i.ReadsReg r ∨ also r → c.reg r = c'.reg r
  flag : ∀ f, i.ReadsFlag f → c.eflags.getLsbD f.bit = c'.eflags.getLsbD f.bit

/-- The declared operands cover the effects of the instruction. A register that is written in
part keeps the rest of its content, and the number and kinds of the accesses are fixed. The
stack pointer forms addresses under its 64-bit name only: its other names are blocked for test
cases. -/
structure Declared (i : Instruction) (also : Gpr → Prop) (insn : Insn) : Prop where
  accesses : ∀ {c c' : Cpu}, c.rip = c'.rip → (∀ r, i.AddressReg r → c.reg r = c'.reg r) →
    insn.accesses c = insn.accesses c'
  kinds : ∀ c c' : Cpu, (insn.accesses c).map Access.isWrite = (insn.accesses c').map Access.isWrite
  storeValue : ∀ {c c'} seen, SameSources i also c c' →
    insn.storeValue c seen = insn.storeValue c' seen
  reg : ∀ {c c'} seen {r}, SameSources i also c c' → i.WritesReg r → c.reg r = c'.reg r →
    (insn.finish c seen).reg r = (insn.finish c' seen).reg r
  frameReg : ∀ {c} seen {r}, ¬ i.WritesReg r → (insn.finish c seen).reg r = c.reg r
  flag : ∀ {c c'} seen {f}, SameSources i also c c' → i.WritesFlag f →
    c.eflags.getLsbD f.bit = c'.eflags.getLsbD f.bit →
    (insn.finish c seen).eflags.getLsbD f.bit = (insn.finish c' seen).eflags.getLsbD f.bit
  frameFlag : ∀ {c} seen {k}, (∀ f, i.WritesFlag f → f.bit ≠ k) →
    (insn.finish c seen).eflags.getLsbD k = c.eflags.getLsbD k
  successor : ∀ {c c'} seen, SameSources i also c c' →
    (insn.finish c seen).rip = (insn.finish c' seen).rip
  fallsThrough : i.controlFlow=false → ∀ c seen, (insn.finish c seen).rip = c.rip+insn.size
  declaresRip : i.controlFlow=true → ∃ src, .reg .rip src true ∈ i.allOperands
  flagsOnce : ∀ o o', .flags o ∈ i.allOperands → .flags o' ∈ i.allOperands → o=o'
  addressKnown : ∀ n, i.AddressName n → ∀ r, n.full = some r →
    X86Registers.gprNormalized n = some r.key ∨ r=.BP

/-- Whether memory is accessed does not depend on the state. -/
lemma Declared.quiet {i : Instruction} {also : Gpr → Prop} {insn : Insn}
    (h : Declared i also insn) {c c' : Cpu} (hc : insn.accesses c = []) :
    insn.accesses c' = [] := by
  have hk := h.kinds c c'
  rw [hc] at hk
  exact List.map_eq_nil_iff.mp hk.symm

/-- The flows that the tracker has collected cover the operands. -/
structure Flows.Covers (fl : Flows) (i : Instruction) : Prop where
  src : ∀ r, i.ReadsReg r → r.key ∈ fl.srcRegs
  dest : ∀ r, i.WritesReg r → r.key ∈ fl.destRegs
  notBP : ¬ i.WritesReg .BP
  rip : ∀ src, .reg .rip src true ∈ i.allOperands → RegLabel.RIP ∈ fl.destRegs
  srcFlag : ∀ f, i.ReadsFlag f → f ∈ fl.srcFlags
  destFlag : ∀ f, i.WritesFlag f → f ∈ fl.destFlags
  address : ∀ n ℓ, i.AddressName n → X86Registers.gprNormalized n = some ℓ →
    ℓ ∈ fl.memAddressRegs
  srcMems : fl.srcMems = []
  destMems : fl.destMems = []

namespace Flows

/-- One operand: nothing is dropped from the registers, and its own are added. -/
lemma collect_cases {fl fl' : Flows} {op : Operand} (h : fl.collect op = some fl') :
    fl.srcRegs ⊆ fl'.srcRegs ∧ fl.destRegs ⊆ fl'.destRegs ∧
    fl.memAddressRegs ⊆ fl'.memAddressRegs ∧ fl'.srcMems = fl.srcMems ∧
    fl'.destMems = fl.destMems ∧
    match op with
    | .reg n src dest => ∃ ℓ, X86Registers.gprNormalized n = some ℓ ∧
        (src = true → ℓ ∈ fl'.srcRegs) ∧ (dest = true → ℓ ∈ fl'.destRegs) ∧
        fl'.srcFlags = fl.srcFlags ∧ fl'.destFlags = fl.destFlags
    | .mem names _ _ => (∀ n ∈ names, ∀ ℓ, X86Registers.gprNormalized n = some ℓ →
        ℓ ∈ fl'.memAddressRegs) ∧ fl'.srcFlags = fl.srcFlags ∧ fl'.destFlags = fl.destFlags
    | .flags o => fl'.srcFlags = o.getReadFlags ++ o.getUndefFlags ∧
        fl'.destFlags = o.getWriteFlags
    | _ => fl'.srcFlags = fl.srcFlags ∧ fl'.destFlags = fl.destFlags := by
  cases op with
  | reg n src dest =>
    obtain ⟨ℓ,hℓ,h⟩ := Option.bind_eq_some_iff.mp h
    cases h
    refine ⟨?_,?_,by simp,rfl,rfl,ℓ,hℓ,?_,?_,rfl,rfl⟩ <;> dsimp only <;>
      first | (split <;> simp) | (rintro rfl; simp)
  | mem names src dest =>
    cases h
    refine ⟨by simp,by simp,by simp,rfl,rfl,fun n hn ℓ hℓ => ?_,rfl,rfl⟩
    exact List.mem_append_right _ (List.mem_filterMap.mpr ⟨n,hn,hℓ⟩)
  | flags o =>
    cases h
    exact ⟨by simp,by simp,by simp,rfl,rfl,rfl,rfl⟩
  | imm =>
    cases h
    exact ⟨by simp,by simp,by simp,rfl,rfl,rfl,rfl⟩
  | label =>
    cases h
    exact ⟨by simp,by simp,by simp,rfl,rfl,rfl,rfl⟩
  | agen names =>
    cases h
    exact ⟨by simp,by simp,by simp,rfl,rfl,rfl,rfl⟩

/-- The loop over the operands. -/
lemma collectAll_cases {ops : List Operand} {fl fl' : Flows}
    (honce : ∀ o o', .flags o ∈ ops → .flags o' ∈ ops → o=o')
    (h : ops.foldlM collect fl = some fl') :
    (fl.srcRegs ⊆ fl'.srcRegs ∧ fl.destRegs ⊆ fl'.destRegs ∧
      fl.memAddressRegs ⊆ fl'.memAddressRegs ∧ fl'.srcMems = fl.srcMems ∧
      fl'.destMems = fl.destMems) ∧
    (∀ n src dest, .reg n src dest ∈ ops → ∃ ℓ, X86Registers.gprNormalized n = some ℓ ∧
      (src = true → ℓ ∈ fl'.srcRegs) ∧ (dest = true → ℓ ∈ fl'.destRegs)) ∧
    (∀ names src dest, .mem names src dest ∈ ops → ∀ n ∈ names, ∀ ℓ,
      X86Registers.gprNormalized n = some ℓ → ℓ ∈ fl'.memAddressRegs) ∧
    ((∀ o, .flags o ∉ ops) → fl'.srcFlags = fl.srcFlags ∧ fl'.destFlags = fl.destFlags) ∧
    ∀ o, .flags o ∈ ops → fl'.srcFlags = o.getReadFlags ++ o.getUndefFlags ∧
      fl'.destFlags = o.getWriteFlags := by
  induction ops generalizing fl with
  | nil =>
    cases h
    simp
  | cons op ops ih =>
    obtain ⟨fl₁,h₁,h⟩ := Option.bind_eq_some_iff.mp h
    obtain ⟨⟨a₁,a₂,a₃,a₄,a₅⟩,hreg,hmem,hno,hflags⟩ := ih (fun o o' ho ho' =>
      honce o o' (List.mem_cons_of_mem _ ho) (List.mem_cons_of_mem _ ho')) h
    obtain ⟨b₁,b₂,b₃,b₄,b₅,hop⟩ := collect_cases h₁
    refine ⟨⟨List.Subset.trans b₁ a₁,List.Subset.trans b₂ a₂,List.Subset.trans b₃ a₃,
      a₄.trans b₄,a₅.trans b₅⟩,?_,?_,?_,?_⟩
    · intro n src dest hn
      rcases List.mem_cons.mp hn with rfl | hn
      · obtain ⟨ℓ,hℓ,hs,hd,-⟩ := hop
        exact ⟨ℓ,hℓ,fun h => a₁ (hs h),fun h => a₂ (hd h)⟩
      · exact hreg n src dest hn
    · intro names src dest hn n hnn ℓ hℓ
      rcases List.mem_cons.mp hn with rfl | hn
      · exact a₃ (hop.1 n hnn ℓ hℓ)
      · exact hmem names src dest hn n hnn ℓ hℓ
    · intro hnone
      have h' := hno fun o ho => hnone o (List.mem_cons_of_mem _ ho)
      cases op with
      | flags o => exact absurd List.mem_cons_self (hnone o)
      | reg n src dest =>
        obtain ⟨-,-,-,-,hs,hd⟩ := hop
        exact ⟨h'.1.trans hs,h'.2.trans hd⟩
      | mem names src dest => exact ⟨h'.1.trans hop.2.1,h'.2.trans hop.2.2⟩
      | imm => exact ⟨h'.1.trans hop.1,h'.2.trans hop.2⟩
      | label => exact ⟨h'.1.trans hop.1,h'.2.trans hop.2⟩
      | agen names => exact ⟨h'.1.trans hop.1,h'.2.trans hop.2⟩
    · intro o ho
      by_cases hin : .flags o ∈ ops
      · exact hflags o hin
      -- The first operand sets the flags and no later one changes them.
      · obtain rfl : op = .flags o := by
          rcases List.mem_cons.mp ho with h | h
          · exact h.symm
          · exact absurd h hin
        have h' := hno fun o' ho' => hin (by
          rwa [honce o o' List.mem_cons_self (List.mem_cons_of_mem _ ho')])
        exact ⟨h'.1.trans hop.1,h'.2.trans hop.2⟩

/-- What `start_instruction` collects covers the operands. -/
theorem ofInstruction_covers {i : Instruction} {fl : Flows}
    (honce : ∀ o o', .flags o ∈ i.allOperands → .flags o' ∈ i.allOperands → o=o')
    (h : ofInstruction i = some fl) : fl.Covers i := by
  obtain ⟨⟨-,-,-,h₄,h₅⟩,hreg,hmem,-,hflags⟩ := collectAll_cases honce h
  refine ⟨?_,?_,?_,?_,?_,?_,?_,h₄,h₅⟩
  · rintro r ⟨n,dest,hn,hr⟩
    obtain ⟨ℓ,hℓ,hs,-⟩ := hreg n _ _ hn
    obtain ⟨rfl,-⟩ := gprNormalized_full hℓ hr
    exact hs rfl
  · rintro r ⟨n,src,hn,hr⟩
    obtain ⟨ℓ,hℓ,-,hd⟩ := hreg n _ _ hn
    obtain ⟨rfl,-⟩ := gprNormalized_full hℓ hr
    exact hd rfl
  · rintro ⟨n,src,hn,hr⟩
    obtain ⟨ℓ,hℓ,-⟩ := hreg n _ _ hn
    exact (gprNormalized_full hℓ hr).2 rfl
  · intro src hn
    obtain ⟨ℓ,hℓ,-,hd⟩ := hreg _ _ _ hn
    cases hℓ
    exact hd rfl
  · rintro f ⟨o,ho,hf⟩
    rw [(hflags o ho).1]
    exact List.mem_append_left _ hf
  · rintro f ⟨o,ho,hf⟩
    rw [(hflags o ho).2]
    exact hf
  · rintro n ℓ ⟨names,src,dest,hop,hn⟩ hℓ
    exact hmem names src dest hop n hn ℓ hℓ

end Flows

end ProteanAmulet
