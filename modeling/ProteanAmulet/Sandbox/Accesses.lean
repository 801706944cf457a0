import ProteanAmulet.Sandbox.Expansion

/-! The masking of memory accesses by the sandbox pass, and its fences. The constants that `IRBuilder`
folds are computed here as any other value. -/
namespace ProteanAmulet.LLVM
open Simulation Relation
variable {O M : Type}

/-- The opcodes that the pass writes or looks for, and the others. -/
inductive AccessOp (O : Type) where
  | load (opcode : O)
  | store (opcode : O)
  | ptrToInt
  | and
  | add
  | intToPtr
  | mfence
  | other (opcode : O)

namespace AccessOp

/-- `getPointerUse`: the place of the pointer among the operands. -/
def getPointerUse : AccessOp O → Option ℕ
  | load _ => some 0
  | store _ => some 1
  | _ => none

/-- `mayReadOrWriteMemory`. -/
def mayReadOrWriteMemory (accesses : O → Bool) : AccessOp O → Bool
  | load _ | store _ | mfence => true
  | other opcode => accesses opcode
  | _ => false

end AccessOp

/-- `maskAccess`: the instruction with a pointer inside of the sandbox, behind those that compute it.
Instructions without a pointer stay as they are. -/
def maskAccess (sandboxBase sandboxMask : Operand) (name : ℕ) (I : Instruction (AccessOp O)) :
    List (Instruction (AccessOp O)) :=
  match I.operation with
  | .other op operands =>
    match op.getPointerUse.bind fun i => operands[i]?.map fun ptr => (i,ptr) with
    | some (i,ptr) =>
      [⟨name,.other .ptrToInt [ptr]⟩,
        ⟨name+1,.other .and [.value name,sandboxMask]⟩,
        ⟨name+2,.other .add [.value (name+1),sandboxBase]⟩,
        ⟨name+3,.other .intToPtr [.value (name+2)]⟩,
        { I with operation := .other op (operands.set i (.value (name+3))) }]
    | none => [I]
  | _ => [I]

/-- The instructions of a block. Four names are set aside for each. -/
def maskBody (sandboxBase sandboxMask : Operand) :
    ℕ → List (Instruction (AccessOp O)) → List (List (Instruction (AccessOp O)))
  | _, [] => []
  | name, I :: body =>
    maskAccess sandboxBase sandboxMask name I :: maskBody sandboxBase sandboxMask (name+4) body

namespace Function
variable (F : Function (AccessOp O))

/-- The body of a block is replaced, with a number of new names. -/
def setBody (b : ℕ) (body : List (Instruction (AccessOp O))) (names : ℕ) : Function (AccessOp O) :=
  { F.setBlock b { F.block b with body } with nextName := F.nextName+names }

/-- The first two arguments as numbers, in front of everything else. -/
def convertArgs (base mask : ℕ) : Function (AccessOp O) :=
  F.setBody F.entry (⟨F.nextName,.other .ptrToInt [.value base]⟩ ::
    ⟨F.nextName+1,.other .ptrToInt [.value mask]⟩ :: (F.block F.entry).body) 2

def maskBlock (sandboxBase sandboxMask : Operand) (b : ℕ) : Function (AccessOp O) :=
  F.setBody b (maskBody sandboxBase sandboxMask F.nextName (F.block b).body).flatten
    (4*(F.block b).body.length)

/-- `maskAccesses`. -/
def maskAccesses (sandboxBase sandboxMask : Operand) : Function (AccessOp O) :=
  F.labels.foldl (fun G b => G.maskBlock sandboxBase sandboxMask b) F

/-- Every access has a pointer, so that there is no fatal error. -/
def handled (accesses : O → Bool) : Bool :=
  F.labels.all fun b =>
    (F.block b).body.all (fun I => match I.operation with
      | .other op _ => !op.mayReadOrWriteMemory accesses || op.getPointerUse.isSome
      | _ => true) &&
    match (F.block b).terminator with
    | .other op _ _ => !op.mayReadOrWriteMemory accesses
    | _ => true

/-- `make_mfence`, in front of a return. -/
def fenceReturn (b : ℕ) : Function (AccessOp O) :=
  match (F.block b).terminator with
  | .ret _ => F.setBody b ((F.block b).body ++ [⟨F.nextName,.other .mfence []⟩]) 1
  | _ => F

def insertFences : Function (AccessOp O) :=
  F.labels.foldl fenceReturn
    (F.setBody F.entry (⟨F.nextName,.other .mfence []⟩ :: (F.block F.entry).body) 1)

/-- `runOnFunction`, behind the cycle removal. -/
def sandbox (accesses : O → Bool) : Option (Function (AccessOp O)) :=
  match F.args with
  | base :: mask :: _ =>
    if F.handled accesses then
      some ((F.convertArgs base mask).maskAccesses (.value F.nextName) (.value (F.nextName+1))
        |>.maskDivs.insertFences)
    else none
  | _ => none

end Function

section Semantics

/-- What the masking makes of a pointer. -/
def masked (base mask pointer : ℕ) : ℕ := ((pointer % 2^64 &&& mask)+base) % 2^64

/-- The meaning of the opcodes, which keeps the pointers of all accesses. -/
def Meaning.logged (meaning : Meaning O M) : Meaning (AccessOp O) (M × List ℕ) where
  exec op values memory :=
    match op with
    | .load opcode =>
      let (v,m) := meaning.exec opcode values memory.1
      (v,m,memory.2 ++ values[0]?.toList)
    | .store opcode =>
      let (v,m) := meaning.exec opcode values memory.1
      (v,m,memory.2 ++ values[1]?.toList)
    | .ptrToInt => (values.getD 0 0 % 2^64,memory)
    | .and => (values.getD 0 0 &&& values.getD 1 0,memory)
    | .add => ((values.getD 0 0+values.getD 1 0) % 2^64,memory)
    | .intToPtr => (values.getD 0 0,memory)
    | .mfence => (0,memory)
    | .other opcode =>
      let (v,m) := meaning.exec opcode values memory.1
      (v,m,memory.2)
  target op values memory :=
    match op with
    | .other opcode => meaning.target opcode values memory.1
    | _ => 0

/-- The same for accesses whose pointers are masked. -/
def Meaning.sandboxed (meaning : Meaning O M) (base mask : ℕ) :
    Meaning (AccessOp O) (M × List ℕ) where
  exec op values memory :=
    meaning.logged.exec op (match op.getPointerUse with
      | some i => values.modify i (masked base mask)
      | none => values) memory
  target := meaning.logged.target

end Semantics

/-- The names for the ends of the sandbox have their values. -/
def Bounded (F : Function (AccessOp O)) (base mask : ℕ) (values : ℕ → ℕ) : Prop :=
  values F.nextName = base ∧ values (F.nextName+1) = mask

section Masking
variable {F : Function (AccessOp O)} {base mask name : ℕ}

lemma Bounded.stable {v w : ℕ → ℕ} (same : ∀ x, F.nextName ≤ x → w x = v x)
    (h : Bounded F base mask v) : Bounded F base mask w :=
  ⟨(same _ le_rfl).trans h.1,(same _ (Nat.le_succ _)).trans h.2⟩

lemma Bounded.update {v : ℕ → ℕ} (h : Bounded F base mask v) {x : ℕ} (hx : F.nextName+2 ≤ x) (y : ℕ) :
    Bounded F base mask (Function.update v x y) := by
  constructor
  · rw [Function.update_of_ne (by omega),h.1]
  · rw [Function.update_of_ne (by omega),h.2]

lemma map_set_modify (operands : List Operand) {i : ℕ} {ptr o : Operand} {f g : Operand → ℕ}
    {h : ℕ → ℕ} (hptr : operands[i]? = some ptr) (same : ∀ x ∈ operands, g x = f x)
    (ho : g o = h (f ptr)) : (operands.set i o).map g = (operands.map f).modify i h := by
  apply List.ext_getElem?
  intro j
  rw [List.getElem?_map,List.getElem?_modify,List.getElem?_set,List.getElem?_map]
  by_cases here : i = j
  · subst here
    obtain ⟨hlt,rfl⟩ := List.getElem?_eq_some_iff.mp hptr
    simp [hlt,ho]
  · cases hj : operands[j]? with
    | none => simp [here]
    | some x => simp [here,same x (List.mem_of_getElem? hj)]

/-- The instructions in front of an access leave the masked pointer in the last of their names. -/
lemma pointer_masked (meaning : Meaning O M) (guarded : ℕ → Bool) (hname : F.nextName+2 ≤ name)
    {ptr : Operand} (used : ∀ x, ptr = .value x → x<F.nextName) {values values' : ℕ → ℕ}
    (keeps : Keeps F (Bounded F base mask) values values') (access : Instruction (AccessOp O))
    (memory : M × List ℕ) :
    ∃ v, execBody meaning.logged guarded
        [⟨name,.other .ptrToInt [ptr]⟩,
          ⟨name+1,.other .and [.value name,.value (F.nextName+1)]⟩,
          ⟨name+2,.other .add [.value (name+1),.value F.nextName]⟩,
          ⟨name+3,.other .intToPtr [.value (name+2)]⟩,access] values' memory =
        execBody meaning.logged guarded [access] v memory ∧
      Keeps F (Bounded F base mask) values v ∧ v (name+3) = masked base mask (ptr.eval values) := by
  set v₁ := Function.update values' name (ptr.eval values' % 2^64) with h₁
  set v₂ := Function.update v₁ (name+1) (v₁ name &&& v₁ (F.nextName+1)) with h₂
  set v₃ := Function.update v₂ (name+2) ((v₂ (name+1)+v₂ F.nextName) % 2^64) with h₃
  set v₄ := Function.update v₃ (name+3) (v₃ (name+2)) with h₄
  refine ⟨v₄,rfl,?_,?_⟩
  · have good₁ := keeps.good.update hname (ptr.eval values' % 2^64)
    have good₂ := good₁.update (x := name+1) (by omega) (v₁ name &&& v₁ (F.nextName+1))
    have good₃ := good₂.update (x := name+2) (by omega) ((v₂ (name+1)+v₂ F.nextName) % 2^64)
    have good₄ := good₃.update (x := name+3) (by omega) (v₃ (name+2))
    exact (((keeps.extend (by omega) good₁).extend (by omega) good₂).extend (by omega)
      good₃).extend (by omega) good₄
  · have number : v₁ name = ptr.eval values % 2^64 := by
      rw [h₁,Function.update_self,keeps.eval used]
    have inside : v₂ (name+1) = ptr.eval values % 2^64 &&& mask := by
      rw [h₂,Function.update_self,number,h₁,Function.update_of_ne (by omega),keeps.good.2]
    have start : v₂ F.nextName = base := by
      rw [h₂,Function.update_of_ne (by omega),h₁,Function.update_of_ne (by omega),keeps.good.1]
    rw [h₄,Function.update_self,h₃,Function.update_self,inside,start]
    rfl

/-- A masked access does what the access does under the masked meaning. -/
lemma piece_maskAccess (meaning : Meaning O M) (guarded : ℕ → Bool) (hname : F.nextName+2 ≤ name)
    {I : Instruction (AccessOp O)} (hI : I.result<F.nextName)
    (used : ∀ x, .value x ∈ I.operation.operands → x<F.nextName) :
    Piece (meaning.sandboxed base mask) meaning.logged guarded F (Bounded F base mask) I
      (maskAccess (.value F.nextName) (.value (F.nextName+1)) name I) := by
  obtain ⟨result,operation⟩ := I
  have stays (means : ∀ values memory,
      operation.exec meaning.logged (guarded result) values memory =
        operation.exec (meaning.sandboxed base mask) (guarded result) values memory) :
      Piece (meaning.sandboxed base mask) meaning.logged guarded F (Bounded F base mask)
        ⟨result,operation⟩ [⟨result,operation⟩] :=
    Piece.same (fun _ _ => Bounded.stable) hI used means
  cases operation with
  | div op width dividend divisor => exact stays fun _ _ => rfl
  | icmpEq width lhs rhs => exact stays fun _ _ => rfl
  | other op operands =>
    cases hi : op.getPointerUse with
    | none =>
      have unmasked : maskAccess (.value F.nextName) (.value (F.nextName+1)) name
          ⟨result,.other op operands⟩ = [⟨result,.other op operands⟩] := by
        simp only [maskAccess,hi,Option.bind_none]
      rw [unmasked]
      exact stays fun _ _ => by simp only [Operation.exec,Meaning.sandboxed,hi]
    | some i =>
      cases hptr : operands[i]? with
      | none =>
        have unmasked : maskAccess (.value F.nextName) (.value (F.nextName+1)) name
            ⟨result,.other op operands⟩ = [⟨result,.other op operands⟩] := by
          simp only [maskAccess,hi,Option.bind_some,hptr,Option.map_none]
        rw [unmasked]
        refine stays fun values memory => ?_
        have short := List.getElem?_eq_none_iff.mp hptr
        have same : (operands.map (·.eval values)).modify i (masked base mask) =
            operands.map (·.eval values) := List.modify_eq_self (by simpa using short)
        simp only [Operation.exec,Meaning.sandboxed,hi,same]
      | some ptr =>
        have chain : maskAccess (.value F.nextName) (.value (F.nextName+1)) name
            ⟨result,.other op operands⟩ =
          [⟨name,.other .ptrToInt [ptr]⟩,
            ⟨name+1,.other .and [.value name,.value (F.nextName+1)]⟩,
            ⟨name+2,.other .add [.value (name+1),.value F.nextName]⟩,
            ⟨name+3,.other .intToPtr [.value (name+2)]⟩,
            ⟨result,.other op (operands.set i (.value (name+3)))⟩] := by
          simp only [maskAccess,hi,Option.bind_some,hptr,Option.map_some]
        rw [chain]
        refine ⟨List.cons_ne_nil _ _,?_,?_⟩
        · intro values values' memory v memory₁ keeps h
          obtain ⟨v₄,runs,keeps₄,pointer⟩ := pointer_masked meaning guarded hname
            (fun x hx => used x (hx ▸ List.mem_of_getElem? hptr)) keeps
            ⟨result,.other op (operands.set i (.value (name+3)))⟩ memory
          have all : (operands.set i (.value (name+3))).map (·.eval v₄) =
              (operands.map (·.eval values)).modify i (masked base mask) := by
            refine map_set_modify operands hptr (fun x hx => ?_) pointer
            exact keeps₄.eval fun y hy => used y (by rw [← hy]; exact hx)
          simp only [Operation.exec,Meaning.sandboxed,hi,Option.some.injEq] at h
          refine ⟨Function.update v₄ result v,?_,keeps₄.update (fun _ _ => Bounded.stable) hI v⟩
          rw [runs]
          simp only [execBody,Operation.exec,all,h]
          rfl
        · intro values values' memory keeps h
          cases h

end Masking
section Blocks
variable {F : Function (AccessOp O)} {base mask name : ℕ}

lemma forall₂_maskBody (meaning : Meaning O M) (guarded : ℕ → Bool) (hname : F.nextName+2 ≤ name)
    {body : List (Instruction (AccessOp O))} (results : ∀ I ∈ body, I.result<F.nextName)
    (used : ∀ I ∈ body, ∀ x, .value x ∈ I.operation.operands → x<F.nextName) :
    List.Forall₂ (Piece (meaning.sandboxed base mask) meaning.logged guarded F (Bounded F base mask))
      body (maskBody (.value F.nextName) (.value (F.nextName+1)) name body) := by
  induction body generalizing name with
  | nil => exact .nil
  | cons I body ih =>
    rw [List.forall_mem_cons] at results used
    exact .cons (piece_maskAccess meaning guarded hname results.1 used.1)
      (ih (by omega) results.2 used.2)

lemma idle_nil {O : Type} {meaning : Meaning O M} {guarded : ℕ → Bool} {F : Function O}
    {Good : (ℕ → ℕ) → Prop} : Idle meaning guarded F Good [] :=
  fun _ values' _ keeps => ⟨values',rfl,keeps⟩

/-- The names that the masking of an instruction sets. -/
lemma results_maskAccess (sandboxBase sandboxMask : Operand) (name : ℕ)
    (I : Instruction (AccessOp O)) :
    (maskAccess sandboxBase sandboxMask name I).map (·.result) = [I.result] ∨
      (maskAccess sandboxBase sandboxMask name I).map (·.result) =
        [name,name+1,name+2,name+3,I.result] := by
  rw [maskAccess]
  split
  · split
    · exact .inr rfl
    · exact .inl rfl
  · exact .inl rfl

lemma used_maskAccess {sandboxBase sandboxMask : Operand} {I J : Instruction (AccessOp O)} {x : ℕ}
    (h : J ∈ maskAccess sandboxBase sandboxMask name I) (hx : .value x ∈ J.operation.operands) :
    .value x ∈ I.operation.operands ∨ .value x = sandboxBase ∨ .value x = sandboxMask ∨
      name ≤ x ∧ x<name+4 := by
  rw [maskAccess] at h
  split at h
  · rename_i op operands hop
    split at h
    · rename_i i ptr hptr
      obtain ⟨j,hj,hptr⟩ := Option.bind_eq_some_iff.mp hptr
      obtain ⟨ptr',hptr',heq⟩ := Option.map_eq_some_iff.mp hptr
      cases heq
      have pointer : ptr ∈ I.operation.operands := by
        rw [hop]
        exact List.mem_of_getElem? hptr'
      simp only [List.mem_cons,List.not_mem_nil,or_false] at h
      rcases h with rfl | rfl | rfl | rfl | rfl
      · left
        simp only [Operation.operands,List.mem_singleton] at hx
        exact hx ▸ pointer
      · simp only [Operation.operands,List.mem_cons,Operand.value.injEq,List.not_mem_nil,or_false] at hx
        rcases hx with rfl | hx
        · right; right; right; omega
        · exact .inr (.inr (.inl hx))
      · simp only [Operation.operands,List.mem_cons,Operand.value.injEq,List.not_mem_nil,or_false] at hx
        rcases hx with rfl | hx
        · right; right; right; omega
        · exact .inr (.inl hx)
      · simp only [Operation.operands,List.mem_singleton,Operand.value.injEq] at hx
        right; right; right; omega
      · rcases List.mem_or_eq_of_mem_set hx with hx | hx
        · left
          rw [hop]
          exact hx
        · simp only [Operand.value.injEq] at hx
          right; right; right; omega
    · exact .inl (List.mem_singleton.mp h ▸ hx)
  · exact .inl (List.mem_singleton.mp h ▸ hx)

section Bodies
variable {sandboxBase sandboxMask : Operand} {body : List (Instruction (AccessOp O))}

lemma mem_maskBody {x : ℕ}
    (h : x ∈ (maskBody sandboxBase sandboxMask name body).flatten.map (·.result)) :
    x ∈ body.map (·.result) ∨ name ≤ x ∧ x<name+4*body.length := by
  induction body generalizing name with
  | nil => cases h
  | cons I body ih =>
    simp only [maskBody,List.flatten_cons,List.map_append,List.mem_append] at h
    rw [List.map_cons,List.mem_cons,List.length_cons]
    rcases h with h | h
    · rcases results_maskAccess sandboxBase sandboxMask name I with same | chain
      · rw [same,List.mem_singleton] at h
        exact .inl (.inl h)
      · rw [chain] at h
        simp only [List.mem_cons,List.not_mem_nil,or_false] at h
        omega
    · rcases ih h with old | new
      · exact .inl (.inr old)
      · right
        omega

lemma used_maskBody {J : Instruction (AccessOp O)} {x : ℕ}
    (h : J ∈ (maskBody sandboxBase sandboxMask name body).flatten)
    (hx : .value x ∈ J.operation.operands) :
    (∃ I ∈ body, .value x ∈ I.operation.operands) ∨ .value x = sandboxBase ∨ .value x = sandboxMask ∨
      name ≤ x ∧ x<name+4*body.length := by
  induction body generalizing name with
  | nil => cases h
  | cons I body ih =>
    simp only [maskBody,List.flatten_cons,List.mem_append] at h
    rw [List.length_cons]
    rcases h with h | h
    · rcases used_maskAccess h hx with old | first | second | new
      · exact .inl ⟨I,List.mem_cons_self,old⟩
      · exact .inr (.inl first)
      · exact .inr (.inr (.inl second))
      · right; right; right
        omega
    · rcases ih h with ⟨K,hK,old⟩ | first | second | new
      · exact .inl ⟨K,List.mem_cons_of_mem I hK,old⟩
      · exact .inr (.inl first)
      · exact .inr (.inr (.inl second))
      · right; right; right
        omega

lemma nodup_maskBody (nodup : (body.map (·.result)).Nodup) (old : ∀ I ∈ body, I.result<name) :
    ((maskBody sandboxBase sandboxMask name body).flatten.map (·.result)).Nodup := by
  induction body generalizing name with
  | nil => exact .nil
  | cons I body ih =>
    rw [List.map_cons,List.nodup_cons] at nodup
    rw [List.forall_mem_cons] at old
    have rest : ((maskBody sandboxBase sandboxMask (name+4) body).flatten.map (·.result)).Nodup :=
      ih nodup.2 fun J hJ => Nat.lt_add_right 4 (old.2 J hJ)
    have apart : I.result ∉ (maskBody sandboxBase sandboxMask (name+4) body).flatten.map (·.result) := by
      intro h
      rcases mem_maskBody h with h | h
      · exact nodup.1 h
      · have := old.1
        omega
    have low : ∀ x ∈ (maskBody sandboxBase sandboxMask (name+4) body).flatten.map (·.result),
        x<name ∨ name+4 ≤ x := by
      intro x hx
      rcases mem_maskBody hx with h | h
      · obtain ⟨J,hJ,rfl⟩ := List.mem_map.mp h
        exact .inl (old.2 J hJ)
      · exact .inr h.1
    simp only [maskBody,List.flatten_cons,List.map_append]
    rcases results_maskAccess sandboxBase sandboxMask name I with same | chain
    · rw [same]
      exact List.nodup_cons.mpr ⟨apart,rest⟩
    · rw [chain,List.nodup_append]
      refine ⟨?_,rest,?_⟩
      · have := old.1
        simp
        omega
      · intro x hx y hy
        have := low y hy
        simp only [List.mem_cons,List.not_mem_nil,or_false] at hx
        rcases hx with rfl | rfl | rfl | rfl | rfl
        · omega
        · omega
        · omega
        · omega
        · rintro rfl
          exact apart hy

end Bodies

end Blocks

namespace Function
variable {F : Function (AccessOp O)}

lemma setBody_self (F : Function (AccessOp O)) (b : ℕ) (body : List (Instruction (AccessOp O)))
    (names : ℕ) : (F.setBody b body names).block b = { F.block b with body } :=
  Function.update_self ..

lemma setBody_other {a b : ℕ} (h : a ≠ b) (body : List (Instruction (AccessOp O))) (names : ℕ) :
    (F.setBody b body names).block a = F.block a :=
  Function.update_of_ne h ..

/-- Everything but the body stays. -/
lemma setBody_rest (F : Function (AccessOp O)) (a b : ℕ) (body : List (Instruction (AccessOp O)))
    (names : ℕ) : ((F.setBody b body names).block a).phis = (F.block a).phis ∧
      ((F.setBody b body names).block a).terminator = (F.block a).terminator := by
  by_cases same : a = b
  · rw [same,setBody_self]
    exact ⟨rfl,rfl⟩
  · rw [setBody_other same]
    exact ⟨rfl,rfl⟩

lemma setBody_defs {b names : ℕ} {body : List (Instruction (AccessOp O))}
    (results : ∀ x ∈ body.map (·.result), x ∈ (F.block b).body.map (·.result) ∨
      F.nextName ≤ x ∧ x<F.nextName+names) {a x : ℕ} (hx : x ∈ (F.setBody b body names).defs a) :
    x ∈ F.defs a ∨ a = b ∧ F.nextName ≤ x ∧ x<F.nextName+names := by
  rw [Function.defs] at hx
  by_cases same : a = b
  · subst same
    rw [setBody_self] at hx
    rcases List.mem_append.mp hx with hx | hx
    · exact .inl (List.mem_append_left _ hx)
    · rcases results x hx with old | new
      · exact .inl (List.mem_append_right _ old)
      · exact .inr ⟨rfl,new⟩
  · rw [setBody_other same] at hx
    exact .inl hx

lemma setBody_uses {b names : ℕ} {body : List (Instruction (AccessOp O))}
    (used : ∀ I ∈ body, ∀ x, .value x ∈ I.operation.operands → x<F.nextName+names) {a x : ℕ}
    (hx : .value x ∈ (F.setBody b body names).uses a) :
    .value x ∈ F.uses a ∨ x<F.nextName+names := by
  rw [uses,(setBody_rest F a b body names).1,(setBody_rest F a b body names).2] at hx
  by_cases same : a = b
  · subst same
    rw [setBody_self] at hx
    rcases List.mem_append.mp hx with hx | hx
    · rcases List.mem_append.mp hx with hx | hx
      · exact .inl (List.mem_append_left _ (List.mem_append_left _ hx))
      · obtain ⟨I,hI,hx⟩ := List.mem_flatMap.mp hx
        exact .inr (used I hI x hx)
    · exact .inl (List.mem_append_right _ hx)
  · rw [setBody_other same] at hx
    exact .inl hx

/-- A body may get more instructions, which set new names. -/
lemma Valid.setBody (valid : F.Valid) {b names : ℕ} {body : List (Instruction (AccessOp O))}
    (results : ∀ x ∈ body.map (·.result), x ∈ (F.block b).body.map (·.result) ∨
      F.nextName ≤ x ∧ x<F.nextName+names)
    (nodup : (body.map (·.result)).Nodup)
    (used : ∀ I ∈ body, ∀ x, .value x ∈ I.operation.operands → x<F.nextName+names) :
    (F.setBody b body names).Valid := by
  constructor
  · exact valid.distinct
  · exact valid.entry
  · intro a ha s hs
    rw [successors,(setBody_rest F a b body names).2] at hs
    exact valid.closed a ha s hs
  · exact valid.labels
  · intro a ha phi hphi
    rw [(setBody_rest F a b body names).1] at hphi
    exact valid.incoming a ha phi hphi
  · intro a ha x hx
    change x<F.nextName+names
    rcases setBody_defs results hx with old | new
    · exact Nat.lt_add_right _ (valid.names a ha x old)
    · exact new.2.2
  · intro a ha x hx
    change x<F.nextName+names
    rcases setBody_uses used hx with old | new
    · exact Nat.lt_add_right _ (valid.used a ha x old)
    · exact new
  · exact fun x hx => Nat.lt_add_right _ (valid.args x hx)
  · intro a ha
    rw [Function.defs]
    by_cases same : a = b
    · subst same
      rw [setBody_self]
      have old := valid.nodup a ha
      refine List.nodup_append.mpr ⟨old.of_append_left,nodup,?_⟩
      rintro x hx y hy rfl
      rcases results x hy with body | new
      · exact List.disjoint_of_nodup_append old hx body
      · have := valid.names a ha x (List.mem_append_left _ hx)
        omega
    · rw [setBody_other same]
      exact valid.nodup a ha
  · intro a ha c hc x hx hx'
    rcases setBody_defs results hx with old | ⟨ha',new⟩ <;>
      rcases setBody_defs results hx' with old' | ⟨hc',new'⟩
    · exact valid.unique a ha c hc x old old'
    · have := valid.names a ha x old
      omega
    · have := valid.names c hc x old'
      omega
    · rw [ha',hc']
  · intro a ha x hx arg
    rcases setBody_defs results hx with old | ⟨-,new⟩
    · exact valid.apart a ha x old arg
    · have := valid.args x arg
      omega

end Function
section Functions
variable {F : Function (AccessOp O)} {base mask : ℕ}

lemma Function.Valid.results_lt (valid : F.Valid) {b : ℕ} (hb : b ∈ F.labels) :
    ∀ I ∈ (F.block b).body, I.result<F.nextName :=
  fun I hI => valid.names b hb I.result (List.mem_append_right _ (List.mem_map.mpr ⟨I,hI,rfl⟩))

lemma Function.Valid.operands_lt (valid : F.Valid) {b : ℕ} (hb : b ∈ F.labels) :
    ∀ I ∈ (F.block b).body, ∀ x, .value x ∈ I.operation.operands → x<F.nextName := by
  intro I hI x hx
  refine valid.used b hb x (List.mem_append_left _ (List.mem_append_right _ ?_))
  exact List.mem_flatMap.mpr ⟨I,hI,hx⟩

lemma Function.Valid.body_nodup (valid : F.Valid) {b : ℕ} (hb : b ∈ F.labels) :
    ((F.block b).body.map (·.result)).Nodup := (valid.nodup b hb).of_append_right

lemma Function.Valid.convertArgs (valid : F.Valid) (hbase : base ∈ F.args) (hmask : mask ∈ F.args) :
    (F.convertArgs base mask).Valid := by
  have low := valid.results_lt valid.entry
  refine valid.setBody ?_ ?_ ?_
  · intro x hx
    simp only [List.map_cons,List.mem_cons] at hx
    rcases hx with rfl | rfl | hx
    · right; omega
    · right; omega
    · exact .inl hx
  · simp only [List.map_cons,List.nodup_cons,List.mem_cons,List.mem_map,not_or,not_exists,not_and]
    refine ⟨⟨by omega,fun I hI same => ?_⟩,fun I hI same => ?_,valid.body_nodup valid.entry⟩
    · have := low I hI
      omega
    · have := low I hI
      omega
  · intro I hI x hx
    rcases List.mem_cons.mp hI with rfl | hI
    · simp only [Operation.operands,List.mem_singleton,Operand.value.injEq] at hx
      exact hx ▸ Nat.lt_add_right 2 (valid.args base hbase)
    · rcases List.mem_cons.mp hI with rfl | hI
      · simp only [Operation.operands,List.mem_singleton,Operand.value.injEq] at hx
        exact hx ▸ Nat.lt_add_right 2 (valid.args mask hmask)
      · exact Nat.lt_add_right 2 (valid.operands_lt valid.entry I hI x hx)

variable {sandboxBase sandboxMask : Operand}

lemma Function.Valid.maskBlock (valid : F.Valid) (hbase : ∀ x, sandboxBase = .value x → x<F.nextName)
    (hmask : ∀ x, sandboxMask = .value x → x<F.nextName) {b : ℕ} (hb : b ∈ F.labels) :
    (F.maskBlock sandboxBase sandboxMask b).Valid := by
  refine valid.setBody ?_ ?_ ?_
  · exact fun x hx => mem_maskBody hx
  · exact nodup_maskBody (valid.body_nodup hb) (valid.results_lt hb)
  · intro I hI x hx
    rcases used_maskBody hI hx with ⟨J,hJ,old⟩ | first | second | new
    · exact Nat.lt_add_right _ (valid.operands_lt hb J hJ x old)
    · exact Nat.lt_add_right _ (hbase x first.symm)
    · exact Nat.lt_add_right _ (hmask x second.symm)
    · exact new.2

/-- What `maskAccesses` makes of a function. -/
structure Masks (F G : Function (AccessOp O)) (sandboxBase sandboxMask : Operand) (bs : List ℕ) :
    Prop where
  valid : G.Valid
  args : G.args = F.args
  entry : G.entry = F.entry
  labels : G.labels = F.labels
  nextName : F.nextName ≤ G.nextName
  masked : ∀ b ∈ bs, ∃ name, F.nextName ≤ name ∧ G.block b =
    { F.block b with body := (maskBody sandboxBase sandboxMask name (F.block b).body).flatten }
  other : ∀ b, b ∉ bs → G.block b = F.block b

lemma masks_foldl (valid : F.Valid) (hbase : ∀ x, sandboxBase = .value x → x<F.nextName)
    (hmask : ∀ x, sandboxMask = .value x → x<F.nextName) {bs : List ℕ} (hbs : ∀ b ∈ bs, b ∈ F.labels)
    (nodup : bs.Nodup) : Masks F (bs.foldl (fun G b => G.maskBlock sandboxBase sandboxMask b) F)
      sandboxBase sandboxMask bs := by
  induction bs using List.reverseRecOn with
  | nil => exact ⟨valid,rfl,rfl,rfl,le_rfl,by simp,fun _ _ => rfl⟩
  | append_singleton bs b ih =>
    have apart : b ∉ bs := by
      intro h
      exact List.disjoint_of_nodup_append nodup h (List.mem_singleton_self b)
    have h := ih (fun c hc => hbs c (List.mem_append_left _ hc)) nodup.of_append_left
    rw [List.foldl_append,List.foldl_cons,List.foldl_nil]
    generalize bs.foldl (fun G b => G.maskBlock sandboxBase sandboxMask b) F = G at h
    have hb : b ∈ G.labels := h.labels ▸ hbs b (by simp)
    have old := h.other b apart
    have grows := h.nextName
    refine ⟨?_,h.args,h.entry,h.labels,Nat.le_add_right_of_le grows,?_,?_⟩
    · exact h.valid.maskBlock (fun x hx => (hbase x hx).trans_le grows)
        (fun x hx => (hmask x hx).trans_le grows) hb
    · intro c hc
      rcases List.mem_append.mp hc with hmem | hc
      · obtain ⟨name,hname,heq⟩ := h.masked c hmem
        refine ⟨name,hname,?_⟩
        rw [← heq]
        refine Function.setBody_other ?_ _ _
        rintro rfl
        exact apart hmem
      · obtain rfl := List.mem_singleton.mp hc
        refine ⟨G.nextName,grows,?_⟩
        rw [← old]
        exact Function.setBody_self ..
    · intro c hc
      rw [← h.other c fun hmem => hc (List.mem_append_left _ hmem)]
      refine Function.setBody_other ?_ _ _
      rintro rfl
      exact hc (by simp)

/-- The entry block is not entered again. -/
def Function.Unentered {O : Type} (F : Function O) : Prop := ∀ b ∈ F.labels, F.entry ∉ F.successors b

/-- The function with masked accesses does what the function does under the masked meaning. -/
lemma expansion_maskAccesses (valid : F.Valid) (unentered : F.Unentered) (hbase : base ∈ F.args)
    (hmask : mask ∈ F.args) (meaning : Meaning O M) (guarded : ℕ → Bool) (args : ℕ → ℕ) :
    Masks (F.convertArgs base mask)
      ((F.convertArgs base mask).maskAccesses (.value F.nextName) (.value (F.nextName+1)))
      (.value F.nextName) (.value (F.nextName+1)) F.labels ∧
    Expansion (meaning.sandboxed (args base % 2^64) (args mask % 2^64)) meaning.logged guarded F
      (Bounded F (args base % 2^64) (args mask % 2^64))
      ((F.convertArgs base mask).maskAccesses (.value F.nextName) (.value (F.nextName+1)))
      fun name => if name ∈ F.args then args name else 0 := by
  have converted := valid.convertArgs hbase hmask
  have names : (F.convertArgs base mask).nextName = F.nextName+2 := rfl
  have h : Masks (F.convertArgs base mask)
      ((F.convertArgs base mask).maskAccesses (.value F.nextName) (.value (F.nextName+1)))
      (.value F.nextName) (.value (F.nextName+1)) F.labels :=
    masks_foldl converted (by rintro x ⟨⟩; omega) (by rintro x ⟨⟩; omega) (fun _ hb => hb)
      valid.distinct
  refine ⟨h,?_⟩
  have inner {b : ℕ} (hne : b ≠ F.entry) : (F.convertArgs base mask).block b = F.block b :=
    Function.setBody_other hne _ _
  have first : (F.convertArgs base mask).block F.entry = { F.block F.entry with
      body := ⟨F.nextName,.other .ptrToInt [.value base]⟩ ::
        ⟨F.nextName+1,.other .ptrToInt [.value mask]⟩ :: (F.block F.entry).body } :=
    Function.setBody_self ..
  generalize (F.convertArgs base mask).maskAccesses (.value F.nextName) (.value (F.nextName+1)) = G at h
  have pieces {b name : ℕ} (hb : b ∈ F.labels) (hname : F.nextName+2 ≤ name) :
      Expands (meaning.sandboxed (args base % 2^64) (args mask % 2^64)) meaning.logged guarded F
        (Bounded F (args base % 2^64) (args mask % 2^64)) (F.block b).body
        (maskBody (.value F.nextName) (.value (F.nextName+1)) name (F.block b).body).flatten :=
    ⟨_,[],(List.append_nil _).symm,idle_nil,forall₂_maskBody meaning guarded hname
      (valid.results_lt hb) (valid.operands_lt hb)⟩
  have rest {b : ℕ} (hb : b ∈ F.labels) : (G.block b).phis = (F.block b).phis ∧
      (G.block b).terminator = (F.block b).terminator := by
    obtain ⟨name,-,heq⟩ := h.masked b hb
    rw [heq]
    exact Function.setBody_rest F b F.entry _ _
  refine ⟨h.entry,unentered,rfl,fun _ _ => Bounded.stable,fun b hb => (rest hb).1,
    fun b hb => (rest hb).2,?_,?_⟩
  · intro b hb hne
    obtain ⟨name,hname,heq⟩ := h.masked b hb
    rw [heq,inner hne]
    exact pieces hb hname
  · obtain ⟨name,hname,heq⟩ := h.masked F.entry valid.entry
    rw [heq,first]
    refine ⟨[⟨F.nextName,.other .ptrToInt [.value base]⟩,
      ⟨F.nextName+1,.other .ptrToInt [.value mask]⟩],_,rfl,pieces valid.entry ?_,fun memory => ?_⟩
    · rw [names] at hname
      omega
    · have apart : mask ≠ F.nextName := (valid.args mask hmask).ne
      refine ⟨Function.update (Function.update (fun name => if name ∈ F.args then args name else 0)
        F.nextName (args base % 2^64)) (F.nextName+1) (args mask % 2^64),?_,?_,?_,?_⟩
      · simp [execBody,Operation.exec,Meaning.logged,Operand.eval,hbase,hmask,apart]
      · intro x hx
        rw [Function.update_of_ne (by omega),Function.update_of_ne (by omega)]
      · rw [Function.update_of_ne (by omega),Function.update_self]
      · rw [Function.update_self]

end Functions
section Fences
variable {F G : Function (AccessOp O)}

/-- The instruction is a fence with a new name. -/
def IsFence (F : Function (AccessOp O)) (I : Instruction (AccessOp O)) : Prop :=
  F.nextName ≤ I.result ∧ I.operation = .other .mfence []

lemma idle_fences (meaning : Meaning O M) (guarded : ℕ → Bool) {l : List (Instruction (AccessOp O))}
    (h : ∀ I ∈ l, IsFence F I) : Idle meaning.logged guarded F (fun _ => True) l := by
  induction l with
  | nil => exact idle_nil
  | cons I l ih =>
    rw [List.forall_mem_cons] at h
    intro values values' memory keeps
    obtain ⟨⟨hI,hop⟩,h⟩ := h
    obtain ⟨values₁,hrun,keeps₁⟩ := ih h _ _ memory
      (keeps.extend hI (v := 0) trivial)
    refine ⟨values₁,?_,keeps₁⟩
    simp only [execBody,hop]
    exact hrun

lemma expands_self (valid : F.Valid) (meaning : Meaning O M) (guarded : ℕ → Bool) {b : ℕ}
    (hb : b ∈ F.labels) {l : List (Instruction (AccessOp O))} (h : ∀ I ∈ l, IsFence F I) :
    Expands meaning.logged meaning.logged guarded F (fun _ => True) (F.block b).body
      ((F.block b).body ++ l) := by
  refine ⟨(F.block b).body.map ([·]),l,?_,idle_fences meaning guarded h,?_⟩
  · rw [← List.flatMap_def,List.flatMap_singleton']
  · refine List.forall₂_map_right_iff.mpr (List.forall₂_same.mpr fun I hI => ?_)
    exact Piece.same (fun _ _ _ _ => trivial) (valid.results_lt hb I hI) (valid.operands_lt hb I hI)
      fun _ _ => rfl

lemma fenceReturn_eq (G : Function (AccessOp O)) (b : ℕ) : ∃ l n,
    (∀ I ∈ l, IsFence G I) ∧ G.fenceReturn b = G.setBody b ((G.block b).body ++ l) n := by
  have nothing : G = G.setBody b ((G.block b).body ++ []) 0 := by
    simp [Function.setBody,Function.setBlock]
  rw [Function.fenceReturn]
  cases (G.block b).terminator with
  | ret operands => exact ⟨_,1,by simp [IsFence],rfl⟩
  | br target => exact ⟨[],0,by simp,nothing⟩
  | condBr condition ifTrue ifFalse => exact ⟨[],0,by simp,nothing⟩
  | other opcode operands targets => exact ⟨[],0,by simp,nothing⟩

/-- The blocks with fences in front of the returns. -/
structure Fenced (F G : Function (AccessOp O)) (bs : List ℕ) : Prop where
  args : G.args = F.args
  entry : G.entry = F.entry
  nextName : F.nextName ≤ G.nextName
  fenced : ∀ b ∈ bs, ∃ l, (∀ I ∈ l, IsFence F I) ∧
    G.block b = { F.block b with body := (F.block b).body ++ l }
  other : ∀ b, b ∉ bs → G.block b = F.block b

lemma fenced_foldl {bs : List ℕ} (nodup : bs.Nodup) : Fenced F (bs.foldl Function.fenceReturn F) bs := by
  induction bs using List.reverseRecOn with
  | nil => exact ⟨rfl,rfl,le_rfl,by simp,fun _ _ => rfl⟩
  | append_singleton bs b ih =>
    have apart : b ∉ bs := by
      intro h
      exact List.disjoint_of_nodup_append nodup h (List.mem_singleton_self b)
    have h := ih nodup.of_append_left
    rw [List.foldl_append,List.foldl_cons,List.foldl_nil]
    generalize bs.foldl Function.fenceReturn F = G at h
    have old := h.other b apart
    have grows := h.nextName
    obtain ⟨l,n,hl,heq⟩ := fenceReturn_eq G b
    rw [heq]
    refine ⟨h.args,h.entry,Nat.le_add_right_of_le grows,?_,?_⟩
    · intro c hc
      rcases List.mem_append.mp hc with hmem | hc
      · obtain ⟨l',hl',heq'⟩ := h.fenced c hmem
        refine ⟨l',hl',?_⟩
        rw [← heq']
        refine Function.setBody_other ?_ _ _
        rintro rfl
        exact apart hmem
      · obtain rfl := List.mem_singleton.mp hc
        refine ⟨l,fun I hI => ⟨grows.trans (hl I hI).1,(hl I hI).2⟩,?_⟩
        rw [← old]
        exact Function.setBody_self ..
    · intro c hc
      rw [← h.other c fun hmem => hc (List.mem_append_left _ hmem)]
      refine Function.setBody_other ?_ _ _
      rintro rfl
      exact hc (by simp)

/-- The fences change nothing. -/
lemma expansion_insertFences (valid : F.Valid) (unentered : F.Unentered) (meaning : Meaning O M)
    (guarded : ℕ → Bool) (values : ℕ → ℕ) : F.insertFences.args = F.args ∧
    Expansion meaning.logged meaning.logged guarded F (fun _ => True) F.insertFences values := by
  have first : (F.setBody F.entry (⟨F.nextName,.other .mfence []⟩ :: (F.block F.entry).body) 1).block
      F.entry = { F.block F.entry with
        body := ⟨F.nextName,.other .mfence []⟩ :: (F.block F.entry).body } :=
    Function.setBody_self ..
  have inner {b : ℕ} (hne : b ≠ F.entry) : (F.setBody F.entry (⟨F.nextName,.other .mfence []⟩ ::
      (F.block F.entry).body) 1).block b = F.block b := Function.setBody_other hne _ _
  have h : Fenced (F.setBody F.entry (⟨F.nextName,.other .mfence []⟩ :: (F.block F.entry).body) 1)
      F.insertFences F.labels := fenced_foldl valid.distinct
  have new {I : Instruction (AccessOp O)} (hI : IsFence (F.setBody F.entry
      (⟨F.nextName,.other .mfence []⟩ :: (F.block F.entry).body) 1) I) : IsFence F I :=
    ⟨(Nat.le_succ _).trans hI.1,hI.2⟩
  generalize F.insertFences = G at h
  have rest {b : ℕ} (hb : b ∈ F.labels) : (G.block b).phis = (F.block b).phis ∧
      (G.block b).terminator = (F.block b).terminator := by
    obtain ⟨l,-,heq⟩ := h.fenced b hb
    rw [heq]
    exact Function.setBody_rest F b F.entry _ _
  refine ⟨h.args,h.entry,unentered,rfl,fun _ _ _ _ => trivial,fun b hb => (rest hb).1,
    fun b hb => (rest hb).2,?_,?_⟩
  · intro b hb hne
    obtain ⟨l,hl,heq⟩ := h.fenced b hb
    rw [heq,inner hne]
    exact expands_self valid meaning guarded hb fun I hI => new (hl I hI)
  · obtain ⟨l,hl,heq⟩ := h.fenced F.entry valid.entry
    rw [heq,first]
    refine ⟨[⟨F.nextName,.other .mfence []⟩],_,rfl,
      expands_self valid meaning guarded valid.entry fun I hI => new (hl I hI),fun memory => ?_⟩
    exact ⟨_,rfl,fun x hx => Function.update_of_ne hx.ne _ _,trivial⟩

end Fences
end ProteanAmulet.LLVM
