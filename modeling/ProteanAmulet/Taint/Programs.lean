import ProteanAmulet.Model.Asm
import ProteanAmulet.Taint.Simulation

/-! The instructions of the assembler declare their operands. -/
namespace ProteanAmulet.Asm

section Lines
variable {also : Gpr → Prop}

lemma addressKnown_gpr (r : Gpr) :
    X86Registers.gprNormalized (.gpr .w64 r) = some r.key ∨ r=.BP := by
  cases r <;> first | exact Or.inl rfl | exact Or.inr rfl

/-- An instruction with no flags among its operands touches no flag. -/
lemma noFlags {i : Instruction} (h : ∀ o, .flags o ∉ i.allOperands) :
    (∀ f, ¬ i.ReadsFlag f) ∧ (∀ f, ¬ i.WritesFlag f) ∧
      ∀ o o', .flags o ∈ i.allOperands → .flags o' ∈ i.allOperands → o=o' :=
  ⟨fun _ ⟨o,ho,_⟩ => h o ho,fun _ ⟨o,ho,_⟩ => h o ho,fun o _ ho => absurd ho (h o)⟩

/-- A named register is changed, the others stay. -/
lemma setReg_agree {c c' : Cpu} {dst r : Gpr} {v v' : BitVec 64} (hv : v=v')
    (hr : c.reg r = c'.reg r) : (c.setReg dst v).reg r = (c'.setReg dst v').reg r := by
  unfold Cpu.setReg
  by_cases h : r=dst
  · simp [h,hv]
  · simp [h,hr]

lemma setReg_other {c : Cpu} {dst r : Gpr} {v : BitVec 64} (h : r ≠ dst) :
    (c.setReg dst v).reg r = c.reg r := by
  simp [Cpu.setReg,h]

lemma nop_declared : Declared nop.instruction also nop.insn where
  accesses _ _ := rfl
  kinds _ _ := rfl
  storeValue _ _ := rfl
  reg _ _ _ _ h := h
  frameReg _ _ _ := rfl
  flag _ _ _ _ h := h
  frameFlag _ _ _ := rfl
  successor _ h := by simp [nop,Cpu.next,h.rip]
  fallsThrough _ _ _ := rfl
  declaresRip h := by cases h
  flagsOnce := (noFlags (by simp [nop,Instruction.allOperands])).2.2
  addressKnown := by simp [nop,Instruction.AddressName,Instruction.allOperands]

lemma store_declared (base : Gpr) (disp : BitVec 8) (src : Gpr) :
    Declared (store base disp src).instruction also (store base disp src).insn where
  accesses _ h := by
    have hb := h base ⟨.gpr .w64 base,
      by simp [store,Instruction.AddressName,Instruction.allOperands],rfl⟩
    simp [store,hb]
  kinds _ _ := rfl
  storeValue _ h := by
    have hs := h.reg src (Or.inl ⟨.gpr .w64 src,false,
      by simp [store,Instruction.allOperands],rfl⟩)
    simp [store,hs]
  reg _ _ _ _ h := h
  frameReg _ _ _ := rfl
  flag _ _ _ _ h := h
  frameFlag _ _ _ := rfl
  successor _ h := by simp [store,Cpu.next,h.rip]
  fallsThrough _ _ _ := rfl
  declaresRip h := by cases h
  flagsOnce := (noFlags (by simp [store,Instruction.allOperands])).2.2
  addressKnown := by
    rintro n ⟨names,s,d,hop,hn⟩ r hr
    simp only [store,Instruction.allOperands,List.append_nil,List.mem_cons,Operand.mem.injEq,
      reduceCtorEq,List.not_mem_nil,or_false] at hop
    obtain ⟨rfl,-,-⟩ := hop
    obtain rfl := List.mem_singleton.mp hn
    cases hr
    exact addressKnown_gpr base

lemma load_declared (dst base : Gpr) (index : Option Gpr) (disp : BitVec 8) :
    Declared (load dst base index disp).instruction also (load dst base index disp).insn where
  accesses _ h := by
    have hb := h base ⟨.gpr .w64 base,⟨_,true,false,List.mem_cons_of_mem _ List.mem_cons_self,
      List.mem_cons_self⟩,rfl⟩
    cases index with
    | none => simp [load,hb]
    | some x =>
      have hx := h x ⟨.gpr .w64 x,⟨_,true,false,List.mem_cons_of_mem _ List.mem_cons_self,
        List.mem_cons_of_mem _ List.mem_cons_self⟩,rfl⟩
      simp [load,hb,hx]
  kinds _ _ := rfl
  storeValue _ _ := rfl
  reg _ _ _ _ h := setReg_agree rfl h
  frameReg _ r hr := setReg_other fun h => hr ⟨.gpr .w64 dst,false,List.mem_cons_self,by
    rw [h]
    rfl⟩
  flag _ _ _ _ h := h
  frameFlag _ _ _ := rfl
  successor _ h := by simp [load,Cpu.next,Cpu.setReg,h.rip]
  fallsThrough _ _ _ := rfl
  declaresRip h := by cases h
  flagsOnce := (noFlags (by simp [load,Instruction.allOperands])).2.2
  addressKnown := by
    rintro n ⟨names,s,d,hop,hn⟩ r hr
    simp only [load,Instruction.allOperands,List.append_nil,List.mem_cons,Operand.mem.injEq,
      reduceCtorEq,List.not_mem_nil,or_false,false_or] at hop
    obtain ⟨rfl,-,-⟩ := hop
    rcases List.mem_cons.mp hn with rfl | hn
    · cases hr
      exact addressKnown_gpr base
    · obtain ⟨x,-,rfl⟩ := List.mem_map.mp hn
      obtain rfl : x=r := Option.some.inj hr
      exact addressKnown_gpr x

lemma lea_declared (dst base : Gpr) (hbase : also base) :
    Declared (lea dst base).instruction also (lea dst base).insn where
  accesses _ _ := rfl
  kinds _ _ := rfl
  storeValue _ _ := rfl
  reg _ _ h _ hr := setReg_agree (h.reg base (Or.inr hbase)) hr
  frameReg _ r hr := setReg_other fun h => hr ⟨.gpr .w64 dst,false,List.mem_cons_self,by
    rw [h]
    rfl⟩
  flag _ _ _ _ h := h
  frameFlag _ _ _ := rfl
  successor _ h := by simp [lea,Cpu.next,Cpu.setReg,h.rip]
  fallsThrough _ _ _ := rfl
  declaresRip h := by cases h
  flagsOnce := (noFlags (by simp [lea,Instruction.allOperands])).2.2
  addressKnown := by simp [lea,Instruction.AddressName,Instruction.allOperands]

/-- The flags that `arithFlags` writes. -/
lemma testFlags_other {eflags v : BitVec 64} {k : ℕ}
    (hk : ∀ f ∈ [Flag.CF,.PF,.AF,.ZF,.SF,.OF], f.bit ≠ k) :
    (testFlags eflags v).getLsbD k = eflags.getLsbD k := by
  have hmask : ∀ k : Fin 64, (0x8D5#64).getLsbD k.val = true →
      ∃ f ∈ [Flag.CF,.PF,.AF,.ZF,.SF,.OF], f.bit = k.val := by decide
  have hzero : ∀ k : Fin 64, (0x40#64).getLsbD k.val = true → k.val=6 := by decide
  unfold testFlags
  by_cases hlt : k<64
  · have h₁ : (0x8D5#64).getLsbD k = false := by
      cases h : (0x8D5#64).getLsbD k with
      | false => rfl
      | true =>
        obtain ⟨f,hf,hfk⟩ := hmask ⟨k,hlt⟩ h
        exact absurd hfk (hk f hf)
    have h₂ : (0x40#64).getLsbD k = false := by
      cases h : (0x40#64).getLsbD k with
      | false => rfl
      | true => exact absurd (hzero ⟨k,hlt⟩ h).symm (hk .ZF (by simp))
    rw [BitVec.getLsbD_or,BitVec.getLsbD_and,BitVec.getLsbD_not,h₁]
    split <;> simp only [h₂,hlt,decide_true,Bool.not_false,Bool.and_true,Bool.or_false,
      BitVec.getLsbD_zero]
  · rw [BitVec.getLsbD_of_ge _ k (by omega),BitVec.getLsbD_of_ge _ k (by omega)]

lemma test_declared (r : Gpr) : Declared (test r).instruction also (test r).insn where
  accesses _ _ := rfl
  kinds _ _ := rfl
  storeValue _ _ := rfl
  reg _ _ _ _ h := h
  frameReg _ _ _ := rfl
  flag _ f h hw hf := by
    rename_i c c' seen
    have hr := h.reg r (Or.inl ⟨.gpr .w64 r,false,List.mem_cons_self,rfl⟩)
    change (testFlags c.eflags (c.reg r)).getLsbD f.bit =
      (testFlags c'.eflags (c'.reg r)).getLsbD f.bit
    rw [hr]
    unfold testFlags
    simp only [BitVec.getLsbD_or,BitVec.getLsbD_and,hf]
  frameFlag _ k hk := by
    refine testFlags_other fun f hf => hk f ?_
    refine ⟨⟨arithFlags,rfl⟩,by simp [test,Instruction.allOperands],?_⟩
    revert hf
    cases f <;> decide
  successor _ h := by simp [test,Cpu.next,h.rip]
  fallsThrough _ _ _ := rfl
  declaresRip h := by cases h
  flagsOnce := by
    intro o o' ho ho'
    simp only [test,Instruction.allOperands,List.cons_append,List.nil_append,List.mem_cons,
      reduceCtorEq,Operand.flags.injEq,List.not_mem_nil,or_false,false_or] at ho ho'
    rw [ho,ho']
  addressKnown := by simp [test,Instruction.AddressName,Instruction.allOperands]

lemma div_declared (r : Gpr) : Declared (div r).instruction also (div r).insn where
  accesses _ _ := rfl
  kinds _ _ := rfl
  storeValue _ _ := rfl
  reg _ rr h _ hr := by
    have hA := h.reg .A (Or.inl ⟨.gpr .w64 .A,true,by simp [div,Instruction.allOperands],rfl⟩)
    have hD := h.reg .D (Or.inl ⟨.gpr .w64 .D,true,by simp [div,Instruction.allOperands],rfl⟩)
    have hd := h.reg r (Or.inl ⟨.gpr .w64 r,false,by simp [div,Instruction.allOperands],rfl⟩)
    refine setReg_agree ?_ (setReg_agree ?_ hr) <;> simp only [dividend,hA,hD,hd]
  frameReg _ rr hr := by
    have hA : rr ≠ .A := fun h => hr ⟨.gpr .w64 .A,true,by simp [div,Instruction.allOperands],
      h ▸ rfl⟩
    have hD : rr ≠ .D := fun h => hr ⟨.gpr .w64 .D,true,by simp [div,Instruction.allOperands],
      h ▸ rfl⟩
    exact (setReg_other hD).trans (setReg_other hA)
  flag _ _ _ _ h := h
  frameFlag _ _ _ := rfl
  successor _ h := by simp [div,Cpu.next,Cpu.setReg,h.rip]
  fallsThrough _ _ _ := rfl
  declaresRip h := by cases h
  flagsOnce := by
    intro o o' ho ho'
    simp only [div,Instruction.allOperands,List.cons_append,List.nil_append,List.mem_cons,
      reduceCtorEq,Operand.flags.injEq,List.not_mem_nil,or_false,false_or] at ho ho'
    rw [ho,ho']
  addressKnown := by simp [div,Instruction.AddressName,Instruction.allOperands]

/-- The zero flag alone decides the branch. -/
lemma zeroFlag_and {f f' : BitVec 64} (h : f.getLsbD 6 = f'.getLsbD 6) :
    f &&& 0x40 = f' &&& 0x40 := by
  have hzero : ∀ k : Fin 64, (0x40#64).getLsbD k.val = true → k.val=6 := by decide
  apply BitVec.eq_of_getLsbD_eq
  intro k hk
  simp only [BitVec.getLsbD_and]
  cases hm : (0x40#64).getLsbD k with
  | false => simp
  | true =>
    obtain rfl : k=6 := hzero ⟨k,hk⟩ hm
    rw [h]

lemma jz_readsZF {disp : BitVec 8} : (jz disp).instruction.ReadsFlag .ZF :=
  ⟨⟨zeroFlag,rfl⟩,by simp [jz,Instruction.allOperands],by decide⟩

lemma jz_declared (disp : BitVec 8) : Declared (jz disp).instruction also (jz disp).insn where
  accesses _ _ := rfl
  kinds _ _ := rfl
  storeValue _ _ := rfl
  reg _ _ _ _ h := h
  frameReg _ _ _ := rfl
  flag _ _ _ _ h := h
  frameFlag _ _ _ := rfl
  successor _ h := by
    have hz := zeroFlag_and (h.flag .ZF jz_readsZF)
    simp only [jz,Cpu.next,h.rip,hz]
  fallsThrough h := by cases h
  declaresRip _ := ⟨true,by simp [jz,Instruction.allOperands]⟩
  flagsOnce := by
    intro o o' ho ho'
    simp only [jz,Instruction.allOperands,List.cons_append,List.nil_append,List.mem_cons,
      reduceCtorEq,Operand.flags.injEq,List.not_mem_nil,or_false,false_or] at ho ho'
    rw [ho,ho']
  addressKnown := by simp [jz,Instruction.AddressName,Instruction.allOperands]

end Lines

section Code
variable {clause : Clause} {tracer : Tracer} {code : List Line}

lemma toBytes_reg (v : BitVec 64) : (toBytes v.toInt 8).isSome := by
  have h₁ : v.toInt<2^63 := by simpa using BitVec.toInt_lt (x := v)
  have h₂ : -2^63 ≤ v.toInt := by simpa using BitVec.le_toInt (x := v)
  unfold toBytes
  norm_num
  split_ifs <;> first | rfl | omega

/-- What the emulator fetches and what the address map says belong to the same line. -/
lemma fetch_line {address : ℕ} {insn : Insn} {i : Instruction}
    (hf : (setup clause tracer code).testCase.fetch address = some insn)
    (hi : (setup clause tracer code).testCase.addressMap
      ((address : ℤ)-(setup clause tracer code).codeStart) = some i) :
    ∃ l ∈ code, l.insn=insn ∧ l.instruction=i := by
  simp only [setup,assemble] at hf hi
  split_ifs at hf hi with h₁ h₂
  obtain ⟨l,hl,rfl⟩ := Option.map_eq_some_iff.mp hf
  obtain ⟨l',hl',rfl⟩ := Option.map_eq_some_iff.mp hi
  have he : ((address : ℤ)-(0x400000 : ℕ)).toNat = address-0x400000 := by omega
  rw [he,hl] at hl'
  cases hl'
  exact ⟨l,lookup_mem hl,rfl,rfl⟩

/-- A line whose branch, if the model decodes one, is declared. -/
def Line.Branches (l : Line) : Prop :=
  ∀ {c : Cpu} {d}, X86UnicornCond.decode l.insn.bytes c.eflags (c.reg .C) = some d → d.1 ≠ 0 →
    l.instruction.controlFlow=true ∧ (d.2.2 = true → l.instruction.ReadsReg .C) ∧
    ∀ c', SameSources l.instruction (fun _ => False) c c' →
      X86UnicornCond.decode l.insn.bytes c'.eflags (c'.reg .C) = some d

lemma branches_of_decode {l : Line}
    (h : ∀ f r, X86UnicornCond.decode l.insn.bytes f r = some (0,false,false)) : l.Branches := by
  intro c d hd hz
  rw [h] at hd
  cases hd
  exact absurd rfl hz

lemma jz_branches (disp : BitVec 8) : (jz disp).Branches := by
  have hdec : ∀ f r, X86UnicornCond.decode (jz disp).insn.bytes f r =
      some (fromBytes [disp],decide (f &&& 0x40 ≠ 0),false) := fun _ _ => rfl
  intro c d hd hz
  rw [hdec] at hd
  cases hd
  refine ⟨rfl,by simp,fun c' h => ?_⟩
  rw [hdec,zeroFlag_and (h.flag .ZF jz_readsZF)]

/-- The lines of the assembler, apart from LEA. -/
inductive Line.Plain : Line → Prop
  | nop : Plain nop
  | store (base : Gpr) (disp : BitVec 8) (src : Gpr) : Plain (store base disp src)
  | load (dst base : Gpr) (index : Option Gpr) (disp : BitVec 8) :
      Plain (load dst base index disp)
  | test (r : Gpr) : Plain (test r)
  | div (r : Gpr) : Plain (div r)
  | jz (disp : BitVec 8) : Plain (jz disp)

lemma Line.Plain.declared {l : Line} (h : l.Plain) {also : Gpr → Prop} :
    Declared l.instruction also l.insn := by
  cases h with
  | nop => exact nop_declared
  | store base disp src => exact store_declared base disp src
  | load dst base index disp => exact load_declared dst base index disp
  | test r => exact test_declared r
  | div r => exact div_declared r
  | jz disp => exact jz_declared disp

theorem declaredProgram_of_plain (h : ∀ l ∈ code, l.Plain) :
    DeclaredProgram (setup clause tracer code) where
  declared hf hi := by
    obtain ⟨l,hl,rfl,rfl⟩ := fetch_line hf hi
    exact (h l hl).declared
  branch _ {_ _ _} hf hi := by
    obtain ⟨l,hl,rfl,rfl⟩ := fetch_line hf hi
    cases h l hl with
    | jz disp => exact jz_branches disp
    | nop => exact branches_of_decode fun _ _ => rfl
    | store base disp src => exact branches_of_decode fun _ _ => rfl
    | load dst base index disp => exact branches_of_decode fun _ _ => rfl
    | test r => exact branches_of_decode fun _ _ => rfl
    | div r => exact branches_of_decode fun _ _ => rfl
  fits _ {_ _} hf c seen a ha hw := by
    obtain ⟨l,hl,rfl⟩ := fetch_mem hf
    cases h l hl with
    | store base disp src =>
      obtain rfl := List.mem_singleton.mp ha
      exact toBytes_reg _
    | load dst base index disp =>
      obtain rfl := List.mem_singleton.mp ha
      cases hw
    | nop => cases ha
    | test r => cases ha
    | div r => cases ha
    | jz disp => cases ha

theorem covered_of_plain (h : ∀ l ∈ code, l.Plain) : Covered (setup clause tracer code) := by
  refine covered_of_lines fun l hl c a ha => ?_
  cases h l hl with
  | store base disp src =>
    obtain rfl := List.mem_singleton.mp ha
    exact le_rfl
  | load dst base index disp =>
    obtain rfl := List.mem_singleton.mp ha
    exact le_rfl
  | nop => cases ha
  | test r => cases ha
  | div r => cases ha
  | jz disp => cases ha

end Code

section Checks
variable {su : Setup}

/-- The instruction executed next, with the state after its hook. -/
def executing (su : Setup) (s : State) : Option (Insn × State) := do
  if s.cpu.rip = su.codeEnd then none
  let insn ← su.testCase.fetch s.cpu.rip
  let s' ← instructionHook su s s.cpu.rip insn
  if s'.stopRequested || s'.cpu.rip != s.cpu.rip then none
  return (insn,s')

lemma executing_eq {s s' : State} {insn : Insn} (h : Executes su s insn s') :
    executing su s = some (insn,s') := by
  unfold executing
  rw [if_neg h.running,h.fetch]
  simp [h.hook,h.goes,h.stays]

/-- The test for `AccessesInData`. -/
def accessesInData (su : Setup) (s : State) : Bool :=
  (executing su s).all fun x => (x.1.accesses x.2.cpu).all fun a =>
    decide (su.sandboxBase ≤ a.address ∧ a.address+a.size ≤ su.sandboxBase+8*su.conf.dataSize)

lemma accessesInData_of {s : State} (h : accessesInData su s = true) : AccessesInData su s := by
  intro insn s' hex a ha x h₁ h₂
  unfold accessesInData at h
  rw [executing_eq hex] at h
  have h' := of_decide_eq_true (List.all_eq_true.mp h a ha)
  exact ⟨by omega,by omega⟩

/-- All the accesses of the run are to the data. -/
theorem begin_inData {input : Input su.conf} {s : State} (n : ℕ)
    (h : (begin su input s).all (holds su (accessesInData su) n) = true) :
    ∀ c, begin su input s = some c → ∀ c', Visits su c c' → AccessesInData su c'.state := by
  intro c hc c' hv
  rw [hc] at h
  exact accessesInData_of (holds_visits h hv)

/-- The test for a fault. -/
def faulting (su : Setup) (s : State) : Bool :=
  (executing su s).any fun x =>
    (runAccesses su x.1 x.2.cpu (x.1.accesses x.2.cpu) [] x.2).any fun r => x.1.faults x.2.cpu r.1

lemma faulting_of {s : State} (h : FaultsNext su s) : faulting su s = true := by
  obtain ⟨insn,s',seen,s'',hex,hacc,hf⟩ := h
  unfold faulting
  rw [executing_eq hex]
  simpa only [Option.any_some,hacc] using hf

/-- Two runs without a fault. -/
theorem begin_sameFaults {i j : Input su.conf} {s u : State} (n : ℕ)
    (hi : (begin su i s).all (holds su (fun s => !faulting su s) n) = true)
    (hj : (begin su j u).all (holds su (fun s => !faulting su s) n) = true) :
    ∀ c d, begin su i s = some c → begin su j u = some d → SameFaults su c d := by
  intro c d hc hd m c' d' _ hc' hd' _ _
  rw [hc] at hi
  rw [hd] at hj
  have left := holds_visits hi ⟨m,hc'⟩
  have right := holds_visits hj ⟨m,hd'⟩
  exact iff_of_false (fun h => by simp [faulting_of h] at left)
    fun h => by simp [faulting_of h] at right

/-- A word outside of the list is as good as any. -/
lemma input_get_append (ws : List (ℕ × BitVec 64)) (n : ℕ) (v : BitVec 64) {k : ℕ} (hk : k ≠ n) :
    (input (ws ++ [(n,v)])).get k = (input ws).get k := by
  have hne : (k == n) = false := by simpa using hk
  simp only [Input.get,input,List.lookup_append,List.lookup_cons,hne,List.lookup_nil,
    Option.or_none]

/-- Inputs that differ in one word that is not tainted. -/
lemma agree_of_untainted {taint : InputTaint {}} {ws : List (ℕ × BitVec 64)}
    {m : Fin (Conf.dataSize {})} {v : BitVec 64} (hm : taint.tainted m = false) :
    ∀ k, taint.tainted k = true → (input ws).get k = (input (ws ++ [(m.val,v)])).get k := by
  intro k hk
  by_cases hkm : k=m
  · subst hkm
    rw [hm] at hk
    cases hk
  · exact (input_get_append ws m.val v fun h => hkm (Fin.ext h)).symm

/-- The taint of an input, looked at in one word. -/
lemma getTaints_word (su : Setup) (fuel n : ℕ) (i : Input su.conf) (k : Fin su.conf.dataSize)
    (b : Bool)
    (h : (getTaints su fuel State.fresh [i] n).map (fun x => x.1.map (·.tainted k)) =
      some [b]) :
    ∃ taint s', getTaints su fuel State.fresh [i] n = some ([taint],s') ∧
      taint.tainted k = b := by
  obtain ⟨⟨ts,s'⟩,hts,h⟩ := Option.map_eq_some_iff.mp h
  obtain ⟨taint,rfl⟩ := List.length_eq_one_iff.mp (by simpa using congrArg List.length h)
  exact ⟨taint,s',hts,by simpa using h⟩

/-- The traces of two inputs, looked at in one entry. -/
lemma traces_differ {fuel n : ℕ} {i j : Input su.conf} (k : ℕ) (o o' : Obs)
    (hi : (traceTestCase su fuel State.fresh [i] n).map (fun x => x.1.map (·[k]?)) =
      some [some o])
    (hj : (traceTestCase su fuel State.fresh [j] n).map (fun x => x.1.map (·[k]?)) =
      some [some o']) (h : o ≠ o') :
    ∃ trace trace' s₁ s₂, traceTestCase su fuel State.fresh [i] n = some ([trace],s₁) ∧
      traceTestCase su fuel State.fresh [j] n = some ([trace'],s₂) ∧ trace ≠ trace' := by
  obtain ⟨⟨ts,s₁⟩,h₁,hi⟩ := Option.map_eq_some_iff.mp hi
  obtain ⟨⟨ts',s₂⟩,h₂,hj⟩ := Option.map_eq_some_iff.mp hj
  obtain ⟨trace,rfl⟩ := List.length_eq_one_iff.mp (by simpa using congrArg List.length hi)
  obtain ⟨trace',rfl⟩ := List.length_eq_one_iff.mp (by simpa using congrArg List.length hj)
  refine ⟨trace,trace',s₁,s₂,h₁,h₂,?_⟩
  rintro rfl
  simp only [List.map_cons,List.map_nil,List.cons.injEq,and_true] at hi hj
  exact h (Option.some.inj (hi.symm.trans hj))

end Checks

end ProteanAmulet.Asm
