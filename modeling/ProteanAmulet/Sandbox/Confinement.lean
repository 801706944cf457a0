import ProteanAmulet.Sandbox.Accesses
import ProteanAmulet.Sandbox.SsaForm

/-! The sandbox pass as a whole. The function that it leaves does what the function without cycles does
when its pointers are masked and its divisions by zero give zero: it ends, and all of its accesses are
inside of the sandbox. -/
namespace ProteanAmulet.LLVM
open Simulation Relation
variable {O M : Type}

/-- A property of the memory that no instruction brings back. -/
def Lasting (meaning : Meaning O M) (P : M → Prop) : Prop :=
  ∀ op values memory, P (meaning.exec op values memory).2 → P memory

section Divisions
variable {meaning : Meaning O M} {F G : Function O} {name pre width : ℕ}
  {before after : List (Instruction O)} {op : DivOp} {dividend divisor : Operand}
  {guarded guarded' : ℕ → Bool} {s s' : State M} {P : M → Prop}

/-- A step changes the memory as an instruction does, or not at all. -/
lemma next_memory {x y : State M} (h : Next (step meaning G guarded) x y) :
    y.memory = x.memory ∨ ∃ op values, y.memory = (meaning.exec op values x.memory).2 := by
  rw [Next,step] at h
  cases hI : (G.block x.block).body[x.pc]? with
  | none =>
    rw [hI] at h
    dsimp only at h
    split at h
    · cases h
      exact .inl rfl
    · cases h
  | some I =>
    rw [hI] at h
    dsimp only at h
    cases hop : I.operation with
    | div op width dividend divisor =>
      simp only [hop,Operation.exec] at h
      split at h
      · rename_i heq
        obtain ⟨z,-,hz⟩ := Option.map_eq_some_iff.mp heq
        cases hz
        cases h
        exact .inl rfl
      · cases h
    | icmpEq width lhs rhs =>
      simp only [hop,Operation.exec] at h
      cases h
      exact .inl rfl
    | other op operands =>
      simp only [hop,Operation.exec] at h
      cases h
      exact .inr ⟨op,_,rfl⟩

lemma Lasting.next (h : Lasting meaning P) {x y : State M} (hxy : Next (step meaning G guarded) x y)
    (hy : P y.memory) : P x.memory := by
  rcases next_memory hxy with same | ⟨op,values,heq⟩
  · rwa [← same]
  · exact h op values _ (heq ▸ hy)

/-- What every instruction keeps holds all along a run. -/
lemma kept_memory (keeps : ∀ op values memory, P memory → P (meaning.exec op values memory).2)
    (hs : P s.memory) (h : ReflTransGen (Next (step meaning G guarded)) s s') : P s'.memory := by
  induction h with
  | refl => exact hs
  | tail _ hxy ih =>
    rcases next_memory hxy with same | ⟨op,values,heq⟩
    · rwa [same]
    · rw [heq]
      exact keeps op values _ ih

/-- Where the function stops, so does the masked one, with the same memory. -/
lemma Related.stops (rel : Related F name pre before s s')
    (site : Site F name pre before op width dividend divisor after) (valid : F.Valid)
    (hg : guarded name = true) (hg' : guarded' name = false)
    (same : ∀ x, x ≠ name → guarded' x = guarded x) {o : Exit M}
    (ho : step meaning F guarded s = .stopped o) :
    ∃ t', ReflTransGen (Next (step meaning (F.maskDiv name) guarded')) s' t' ∧
      t'.memory = s.memory ∧ step meaning (F.maskDiv name) guarded' t' = .stopped o := by
  have hm := site.masked valid
  by_cases here : s.block = pre ∧ s.pc = before.length
  · have place : s'.block = pre ∧ s'.pc = before.length := by
      rcases rel.place with ⟨-,block',pc'⟩ | ⟨-,pc',-⟩
      · exact ⟨block'.trans here.1,pc'.trans here.2⟩
      · omega
    obtain ⟨used,used'⟩ := site.used_divisor valid
    have test := hm.test meaning guarded' place.1 place.2
    rw [rel.values.eval used'] at test
    rw [site.step_eq hg here.1 here.2] at ho
    generalize hx : BitVec.ofNat width (dividend.eval s.values) = x at ho
    generalize hy : BitVec.ofNat width (divisor.eval s.values) = y at ho test
    dsimp only at test
    by_cases zero : y = BitVec.ofNat width 0
    · rw [DivOp.divideOrZero,if_pos zero] at ho
      cases ho
    · rw [if_neg zero,if_neg zero] at test
      rw [DivOp.divideOrZero,if_neg zero] at ho
      have empty : ((F.maskDiv name).block F.nextLabel).phis = [] := by rw [hm.divBB]
      generalize hd : State.enter (F.maskDiv name) _ F.nextLabel = d at test
      have agree : Agree F name s.values d.values := by
        have unchanged : d.values = Function.update s'.values F.nextName 0 := by
          rw [← hd]
          funext x
          simp only [State.enter,empty]
          rfl
        rw [unchanged]
        exact rel.values.test 0
      have division := hm.step_eq meaning hg' (s := d) (by rw [← hd]; rfl) (by rw [← hd]; rfl)
      rw [agree.eval used,agree.eval used',hx,hy] at division
      refine ⟨d,test.to_reflTransGen,by rw [← hd]; exact rel.memory,?_⟩
      rw [division]
      cases quotient : op.divide x y with
      | none =>
        rw [quotient] at ho
        exact ho
      | some z =>
        rw [quotient] at ho
        cases ho
  · exact ⟨s',.refl,rel.memory,(rel.step_other hm site valid same here).2 o ho⟩

/-- The divisions that are still to be masked. -/
lemma Masked.divs (hm : Masked F G name pre before op width dividend divisor after)
    (site : Site F name pre before op width dividend divisor after) {pending : List ℕ}
    (here : name ∉ pending) (h : ∀ x ∈ name :: pending, F.IsDiv x) : ∀ x ∈ pending, G.IsDiv x := by
  intro x hx
  refine hm.isDiv site (h x (List.mem_cons_of_mem name hx)) ?_
  rintro rfl
  exact here hx

section Everywhere
variable (lasting : Lasting meaning P)
include lasting

/-- What holds of the memory all along the runs of a function holds when a division is masked. -/
lemma Site.always (site : Site F name pre before op width dividend divisor after) (valid : F.Valid)
    (hg : guarded name = true) (hg' : guarded' name = false)
    (same : ∀ x, x ≠ name → guarded' x = guarded x) {args : ℕ → ℕ} {memory : M}
    (all : ∀ s, ReflTransGen (Next (step meaning F guarded)) (init F args memory) s → P s.memory)
    {x : State M} (hx : ReflTransGen (Next (step meaning (F.maskDiv name) guarded'))
      (init (F.maskDiv name) args memory) x) : P x.memory := by
  have simulates : Simulates (step meaning F guarded) (step meaning (F.maskDiv name) guarded') _ :=
    site.simulates valid hg hg' same
  refine simulates.always (P := fun s => P s.memory) (fun _ _ => lasting.next) ?_ ?_
    ((site.masked valid).init site valid args memory) hx
  · intro t t' ht rel
    rw [rel.memory]
    exact all t ht
  · intro t t' o ht rel ho
    obtain ⟨u,hu,hmemory,hstop⟩ := rel.stops site valid hg hg' same ho
    refine ⟨u,hu,hstop,?_⟩
    rw [hmemory]
    exact all t ht

lemma always_foldl (pending : List ℕ) (valid : F.Valid) (nodup : pending.Nodup)
    (divs : ∀ x ∈ pending, F.IsDiv x) {args : ℕ → ℕ} {memory : M}
    (all : ∀ s, ReflTransGen (Next (step meaning F fun x => x ∈ pending)) (init F args memory) s →
      P s.memory) {x : State M}
    (hx : ReflTransGen (Next (step meaning (pending.foldl Function.maskDiv F) fun _ => false))
      (init (pending.foldl Function.maskDiv F) args memory) x) : P x.memory := by
  induction pending generalizing F with
  | nil => exact all x (by simpa using hx)
  | cons name pending ih =>
    obtain ⟨here,rest⟩ := List.nodup_cons.mp nodup
    obtain ⟨pre,before,op,width,dividend,divisor,after,site⟩ := (divs name List.mem_cons_self).site
    have hm := site.masked valid
    refine ih (hm.keeps_valid site valid) rest (hm.divs site here divs) (fun s hs => ?_) hx
    exact site.always lasting valid (by simp) (by simpa using here) (fun x hx => by simp [hx]) all hs

end Everywhere

end Divisions

section Blocks
variable {F G : Function O} {name pre width : ℕ} {before after : List (Instruction O)} {op : DivOp}
  {dividend divisor : Operand}

/-- The entry block is not entered again when a division is masked. -/
lemma Masked.unentered (hm : Masked F G name pre before op width dividend divisor after)
    (site : Site F name pre before op width dividend divisor after) (valid : F.Valid)
    (h : F.Unentered) : G.Unentered := by
  have low := valid.labels F.entry valid.entry
  have successors (T : Terminator O) : (T.map (rename F name)).successors = T.successors := by
    cases T <;> rfl
  intro b hb
  rw [hm.entry,Function.successors]
  rcases hm.mem_labels.mp hb with old | rfl | rfl
  · by_cases here : b = pre
    · rw [here,hm.preBB]
      simp [Terminator.successors]
      omega
    · rw [hm.other b old here,successors]
      exact h b old
  · rw [hm.divBB]
    simp [Terminator.successors]
    omega
  · rw [hm.postBB,successors]
    exact h pre site.mem

lemma foldl_maskDiv (pending : List ℕ) (valid : F.Valid) (nodup : pending.Nodup)
    (divs : ∀ x ∈ pending, F.IsDiv x) (h : F.Unentered) :
    (pending.foldl Function.maskDiv F).Valid ∧ (pending.foldl Function.maskDiv F).Unentered ∧
      (pending.foldl Function.maskDiv F).args = F.args := by
  induction pending generalizing F with
  | nil => exact ⟨valid,h,rfl⟩
  | cons name pending ih =>
    obtain ⟨here,rest⟩ := List.nodup_cons.mp nodup
    obtain ⟨pre,before,op,width,dividend,divisor,after,site⟩ := (divs name List.mem_cons_self).site
    have hm := site.masked valid
    rw [← hm.args]
    exact ih (hm.keeps_valid site valid) rest (hm.divs site here divs) (hm.unentered site valid h)

end Blocks

/-! ### Outcomes -/

section Outcomes
variable {F G : Function (AccessOp O)} {accesses : O → Bool} {meaning : Meaning O M}

/-- The arguments that stand for the sandbox, as `convertArgs` reads them. -/
def Function.sandboxBase (F : Function (AccessOp O)) (args : ℕ → ℕ) : ℕ :=
  args (F.args.getD 0 0) % 2^64

def Function.sandboxMask (F : Function (AccessOp O)) (args : ℕ → ℕ) : ℕ :=
  args (F.args.getD 1 0) % 2^64

/-- The pointers on the log were masked. -/
def Inside (base mask : ℕ) (memory : M × List ℕ) : Prop :=
  ∀ a ∈ memory.2, ∃ p, a = masked base mask p

lemma sandbox_eq (h : F.sandbox accesses = some G) : ∃ base mask, base ∈ F.args ∧ mask ∈ F.args ∧
    (∀ args, F.sandboxBase args = args base % 2^64 ∧ F.sandboxMask args = args mask % 2^64) ∧
    G = ((F.convertArgs base mask).maskAccesses (.value F.nextName)
      (.value (F.nextName+1))).maskDivs.insertFences := by
  rw [Function.sandbox] at h
  split at h
  · rename_i base mask rest heq
    split at h
    · refine ⟨base,mask,by simp [heq],by simp [heq],fun args => ?_,(Option.some.inj h).symm⟩
      simp [Function.sandboxBase,Function.sandboxMask,heq]
    · cases h
  · cases h

lemma lasting_inside (meaning : Meaning O M) (base mask : ℕ) :
    Lasting meaning.logged (Inside base mask) := by
  intro op values memory h a ha
  cases op with
  | load opcode => exact h a (List.mem_append_left _ ha)
  | store opcode => exact h a (List.mem_append_left _ ha)
  | ptrToInt => exact h a ha
  | and => exact h a ha
  | add => exact h a ha
  | intToPtr => exact h a ha
  | mfence => exact h a ha
  | other opcode => exact h a ha

lemma inside_sandboxed (meaning : Meaning O M) {base mask : ℕ} (op : AccessOp O) (values : List ℕ)
    {memory : M × List ℕ} (h : Inside base mask memory) :
    Inside base mask ((meaning.sandboxed base mask).exec op values memory).2 := by
  have logged {i a : ℕ} (ha : a ∈ (values.modify i (masked base mask))[i]?.toList) :
      ∃ p, a = masked base mask p := by
    rw [List.getElem?_modify_eq,Option.mem_toList] at ha
    obtain ⟨p,-,rfl⟩ := Option.map_eq_some_iff.mp ha
    exact ⟨p,rfl⟩
  intro a ha
  cases op with
  | load opcode => exact (List.mem_append.mp ha).elim (h a) logged
  | store opcode => exact (List.mem_append.mp ha).elim (h a) logged
  | ptrToInt => exact h a ha
  | and => exact h a ha
  | add => exact h a ha
  | intToPtr => exact h a ha
  | mfence => exact h a ha
  | other opcode => exact h a ha

/-! ### Transparency -/

/-- What is executed next stays as it is: the pointer of an access is inside of the sandbox, so that
masking leaves it unchanged, and a divisor is not zero. -/
def State.Untouched (F : Function (AccessOp O)) (base mask : ℕ) (s : State (M × List ℕ)) : Prop :=
  ∀ I, (F.block s.block).body[s.pc]? = some I →
    (∀ op operands i ptr, I.operation = .other op operands → op.getPointerUse = some i →
      operands[i]? = some ptr → masked base mask (ptr.eval s.values) = ptr.eval s.values) ∧
    ∀ op width dividend divisor, I.operation = .div op width dividend divisor →
      BitVec.ofNat width (divisor.eval s.values) ≠ BitVec.ofNat width 0

lemma State.Untouched.step_eq {base mask : ℕ} {s : State (M × List ℕ)}
    (h : s.Untouched F base mask) : step (meaning.sandboxed base mask) F (fun _ => true) s =
      step meaning.logged F (fun _ => false) s := by
  rw [step,step]
  cases hI : (F.block s.block).body[s.pc]? with
  | none => rfl
  | some I =>
    obtain ⟨pointers,divisors⟩ := h I hI
    dsimp only
    cases hop : I.operation with
    | icmpEq width lhs rhs => rfl
    | div op width dividend divisor =>
      have nonzero := divisors op width dividend divisor hop
      simp only [Operation.exec,DivOp.divideOrZero,if_neg nonzero]
      rfl
    | other op operands =>
      have same : (meaning.sandboxed base mask).exec op (operands.map (·.eval s.values)) s.memory =
          meaning.logged.exec op (operands.map (·.eval s.values)) s.memory := by
        simp only [Meaning.sandboxed]
        cases hi : op.getPointerUse with
        | none => rfl
        | some i =>
          congr 1
          apply List.ext_getElem?
          intro j
          rw [List.getElem?_modify]
          by_cases here : i = j
          · subst here
            cases hptr : operands[i]? with
            | none => simp [hptr]
            | some ptr => simp [hptr,pointers op operands i ptr hop hi hptr]
          · simp [here]
      simp only [Operation.exec,same]

/-- The function `G₁` with masked accesses on the way from `F` to `G`. Its divisions are masked next, and
the fences come last. -/
structure Stages (meaning : Meaning O M) (args : ℕ → ℕ) (F G G₁ : Function (AccessOp O)) : Prop where
  valid : G₁.Valid
  divsValid : G₁.maskDivs.Valid
  masked_args : G₁.args = F.args
  final_args : G.args = G₁.maskDivs.args
  called : ∀ memory : M × List ℕ, (init G₁.maskDivs args memory).values =
    fun name => if name ∈ F.args then args name else 0
  accesses : ∀ guarded, Expansion (meaning.sandboxed (F.sandboxBase args) (F.sandboxMask args))
    meaning.logged guarded F (Bounded F (F.sandboxBase args) (F.sandboxMask args)) G₁
    fun name => if name ∈ F.args then args name else 0
  fences : Expansion meaning.logged meaning.logged (fun _ => false) G₁.maskDivs (fun _ => True) G
    fun name => if name ∈ F.args then args name else 0

section Sandboxed
variable (valid : F.Valid) (unentered : F.Unentered) (h : F.sandbox accesses = some G)
include valid unentered h

lemma sandbox_stages (meaning : Meaning O M) (args : ℕ → ℕ) : ∃ G₁, Stages meaning args F G G₁ := by
  obtain ⟨base,mask,hbase,hmask,ends,rfl⟩ := sandbox_eq h
  have masks := (expansion_maskAccesses valid unentered hbase hmask meaning (fun _ => true) args).1
  have expansions (guarded : ℕ → Bool) :=
    (expansion_maskAccesses valid unentered hbase hmask meaning guarded args).2
  rw [← (ends args).1,← (ends args).2] at expansions
  generalize (F.convertArgs base mask).maskAccesses (.value F.nextName) (.value (F.nextName+1)) = G₁
    at masks expansions
  have outside : G₁.Unentered := by
    intro b hb
    rw [masks.labels] at hb
    rw [masks.entry,Function.successors,(expansions fun _ => true).terminator b hb]
    exact unentered b hb
  obtain ⟨valid₂,outside₂,args₂⟩ := foldl_maskDiv G₁.divs masks.valid masks.valid.divs_nodup
    (fun x => mem_divs.mp) outside
  obtain ⟨args₃,fences⟩ := expansion_insertFences valid₂ outside₂ meaning (fun _ => false)
    fun name => if name ∈ F.args then args name else 0
  have same : G₁.maskDivs.args = F.args := args₂.trans masks.args
  exact ⟨G₁,masks.valid,valid₂,masks.args,args₃,fun _ => by simp only [init,same],expansions,fences⟩

/-- The function that the pass leaves has the outcomes of the function whose accesses are masked and
whose divisions by zero give zero. -/
theorem sandbox_ends_iff (meaning : Meaning O M) (args : ℕ → ℕ) (memory : M × List ℕ)
    (o : Exit (M × List ℕ)) :
    Ends (step meaning.logged G fun _ => false) (init G args memory) o ↔
      Ends (step (meaning.sandboxed (F.sandboxBase args) (F.sandboxMask args)) F fun _ => true)
        (init F args memory) o := by
  obtain ⟨G₁,stages⟩ := sandbox_stages valid unentered h meaning args
  rw [stages.fences.ends_iff stages.divsValid (stages.called memory) stages.final_args,
    maskDivs_ends_iff stages.valid,
    (stages.accesses fun _ => true).ends_iff valid rfl stages.masked_args]

/-- All along a run of the function that the pass leaves, the pointers were masked. -/
theorem sandbox_confined (meaning : Meaning O M) (args : ℕ → ℕ) (memory : M)
    {s : State (M × List ℕ)}
    (hs : ReflTransGen (Next (step meaning.logged G fun _ => false)) (init G args (memory,[])) s) :
    Inside (F.sandboxBase args) (F.sandboxMask args) s.memory := by
  obtain ⟨G₁,stages⟩ := sandbox_stages valid unentered h meaning args
  have lasting := lasting_inside meaning (F.sandboxBase args) (F.sandboxMask args)
  -- what holds behind the fences holds with guarded divisions, and that with masked accesses only
  refine stages.fences.always stages.divsValid (stages.called _) stages.final_args
    (fun _ _ => lasting.next) ?_ hs
  intro t ht
  refine always_foldl lasting G₁.divs stages.valid stages.valid.divs_nodup (fun x => mem_divs.mp) ?_ ht
  intro t ht
  refine (stages.accesses _).always valid rfl stages.masked_args (fun _ _ => lasting.next) ?_ ht
  intro t ht
  refine kept_memory (inside_sandboxed meaning) ?_ ht
  intro a ha
  cases ha

/-- A function whose accesses are inside of the sandbox and whose divisors are not zero is not changed
in its outcomes. -/
theorem sandbox_transparent (meaning : Meaning O M) (args : ℕ → ℕ) (memory : M × List ℕ)
    (untouched : ∀ s, ReflTransGen (Next (step meaning.logged F fun _ => false))
      (init F args memory) s → s.Untouched F (F.sandboxBase args) (F.sandboxMask args))
    (o : Exit (M × List ℕ)) :
    Ends (step meaning.logged G fun _ => false) (init G args memory) o ↔
      Ends (step meaning.logged F fun _ => false) (init F args memory) o := by
  rw [sandbox_ends_iff valid unentered h]
  exact (ends_congr fun s hs => (untouched s hs).step_eq).symm

end Sandboxed

/-- A function that reads a fixed address until a third of what is there is even. -/
def polling : Function (AccessOp Unit) where
  args := [0,1]
  entry := 0
  labels := [0,1,2]
  block b := {
    body := if b = 1 then [⟨2,.other (.load ()) [.constant 4096]⟩,
      ⟨3,.div .udiv 32 (.value 2) (.constant 3)⟩] else []
    terminator := match b with
      | 0 => .br 1
      | 1 => .condBr (.value 3) 1 2
      | _ => .ret [.value 3] }
  nextLabel := 3
  nextName := 4

lemma polling_valid : polling.Valid := by
  constructor <;> simp [polling,Function.successors,Function.defs,Function.uses,
    Terminator.successors,Terminator.operands,Operation.operands] <;> omega

lemma polling_unentered : polling.Unentered := by
  simp [Function.Unentered,polling,Function.successors,Terminator.successors]

/-- Nothing is in the memory but zeros. -/
def zeros : Meaning Unit Unit := ⟨fun _ _ m => (0,m),fun _ _ _ => 0⟩

/-- What the pass leaves of it. -/
def polled : Function (AccessOp Unit) := (polling.sandbox fun _ => false).get rfl

lemma polling_sandbox : polling.sandbox (fun _ => false) = some polled := rfl

theorem sandbox_transparent_polling : Ends (step zeros.logged polled fun _ => false)
    (init polled (fun name => if name = 0 then 4096 else 4095) ((),[])) (.returned [0] ((),[4096])) := by
  refine (sandbox_transparent polling_valid polling_unentered polling_sandbox zeros _ _ ?_ _).mpr ?_
  · intro s hs I hI
    have mem := List.mem_of_getElem? hI
    by_cases here : s.block = 1
    · simp only [polling,here,if_pos,List.mem_cons,List.not_mem_nil,or_false] at mem
      rcases mem with rfl | rfl
      · refine ⟨?_,by simp⟩
        intro op operands i ptr hop hi hptr
        cases hop
        cases hi
        cases hptr
        exact (by decide : masked 4096 4095 4096 = 4096)
      · refine ⟨by simp,?_⟩
        intro op width dividend divisor hop
        cases hop
        exact (by decide : BitVec.ofNat 32 3 ≠ BitVec.ofNat 32 0)
    · simp [polling,here] at mem
  · exact ⟨_,.head rfl (.head rfl (.head rfl (.head rfl .refl))),rfl⟩


end Outcomes

end ProteanAmulet.LLVM
