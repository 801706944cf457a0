import ProteanAmulet.Sandbox.Divisions
import Mathlib.Data.List.Find

/-! What `maskDiv` makes of a function: the blocks that are left of the one with the division, and the
runs of the result. -/
namespace ProteanAmulet.LLVM
open Simulation Relation
variable {O : Type}

namespace Function
variable (F : Function O)

/-- The values that a block defines. -/
def defs (b : ℕ) : List ℕ := (F.block b).phis.map (·.result) ++ (F.block b).body.map (·.result)

/-- The operands that a block uses. -/
def uses (b : ℕ) : List Operand :=
  ((F.block b).phis.flatMap fun phi => phi.incoming.map (·.2)) ++
    ((F.block b).body.flatMap (·.operation.operands)) ++ (F.block b).terminator.operands

/-- What LLVM has as values and blocks of a function: labels and names are those of its own blocks and
values, and every value is defined once. -/
structure Valid : Prop where
  distinct : F.labels.Nodup
  entry : F.entry ∈ F.labels
  closed : ∀ b ∈ F.labels, ∀ s ∈ F.successors b, s ∈ F.labels
  labels : ∀ b ∈ F.labels, b<F.nextLabel
  incoming : ∀ b ∈ F.labels, ∀ phi ∈ (F.block b).phis, ∀ e ∈ phi.incoming, e.1<F.nextLabel
  names : ∀ b ∈ F.labels, ∀ x ∈ F.defs b, x<F.nextName
  used : ∀ b ∈ F.labels, ∀ x, Operand.value x ∈ F.uses b → x<F.nextName
  args : ∀ x ∈ F.args, x<F.nextName
  nodup : ∀ b ∈ F.labels, (F.defs b).Nodup
  unique : ∀ b ∈ F.labels, ∀ c ∈ F.labels, ∀ x ∈ F.defs b, x ∈ F.defs c → b = c
  apart : ∀ b ∈ F.labels, ∀ x ∈ F.defs b, x ∉ F.args

end Function

/-- Where a division is. -/
structure Site (F : Function O) (name pre : ℕ) (before : List (Instruction O)) (op : DivOp)
    (width : ℕ) (dividend divisor : Operand) (after : List (Instruction O)) : Prop where
  mem : pre ∈ F.labels
  body : (F.block pre).body = before ++ ⟨name,.div op width dividend divisor⟩ :: after

section Blocks
variable {F : Function O} {name pre width : ℕ} {before after : List (Instruction O)} {op : DivOp}
  {dividend divisor : Operand}

namespace Site
variable (site : Site F name pre before op width dividend divisor after) (valid : F.Valid)
include site

lemma mem_defs : name ∈ F.defs pre := by
  rw [Function.defs,site.body]
  simp

include valid

lemma nodup : (before.map (·.result) ++ name :: after.map (·.result)).Nodup := by
  have all := (valid.nodup pre site.mem).of_append_right
  rw [site.body] at all
  simpa using all

lemma not_mem_before {I : Instruction O} (h : I ∈ before) : I.result ≠ name := by
  intro same
  have all := site.nodup valid
  exact List.disjoint_of_nodup_append all (List.mem_map.mpr ⟨I,h,rfl⟩) (same ▸ List.mem_cons_self)

lemma not_mem_after {I : Instruction O} (h : I ∈ after) : I.result ≠ name := by
  intro same
  have all := (site.nodup valid).of_append_right
  exact (List.nodup_cons.mp all).1 (same ▸ List.mem_map.mpr ⟨I,h,rfl⟩)

/-- The division is found where it is. -/
lemma maskDiv_eq : F.maskDiv name = F.guardDiv name pre before.length width divisor := by
  have here : (F.block pre).body.any (·.result = name) := by
    rw [site.body]
    simp
  have parent : F.parent name = some pre := by
    obtain ⟨b,hb⟩ := Option.isSome_iff_exists.mp
      (List.find?_isSome.mpr ⟨pre,site.mem,here⟩ : (F.parent name).isSome)
    have found := List.find?_some hb
    obtain ⟨I,hI,same⟩ := List.any_eq_true.mp found
    have defined : name ∈ F.defs b :=
      List.mem_append_right _ (List.mem_map.mpr ⟨I,hI,of_decide_eq_true same⟩)
    rw [Function.parent,hb,valid.unique b (List.mem_of_find?_eq_some hb) pre site.mem name defined
      site.mem_defs]
  have place : (F.block pre).body.findIdx (·.result = name) = before.length := by
    have none : before.findIdx (·.result = name) = before.length :=
      List.findIdx_eq_length_of_false fun I hI => decide_eq_false (site.not_mem_before valid hI)
    rw [site.body,List.findIdx_append,none]
    simp [List.findIdx_cons]
  rw [Function.maskDiv,parent]
  dsimp only
  rw [place,site.body]
  simp

end Site

section Split
variable (F) (b i a : ℕ)

/-- The PHI nodes of a block when the end of `old` becomes a block of its own. -/
def movePhis (old new : ℕ) : List PHINode :=
  if a ∈ F.successors old then (F.block a).phis.map (·.replaceIncomingBlockWith old new)
  else (F.block a).phis

lemma splitBlock_new (hs : F.nextLabel ∉ F.successors b) :
    (F.splitBlock b i).block F.nextLabel =
      { body := (F.block b).body.drop i, terminator := (F.block b).terminator } := by
  simp only [Function.splitBlock,Function.update_self]
  exact if_neg hs

lemma splitBlock_old (hb : b ≠ F.nextLabel) : (F.splitBlock b i).block b =
    { phis := movePhis F b b F.nextLabel, body := (F.block b).body.take i
      terminator := .br F.nextLabel } := by
  simp only [Function.splitBlock,Function.update_of_ne hb,Function.update_self,movePhis]
  exact (apply_ite (fun phis => BasicBlock.mk phis _ _) ..).symm

lemma splitBlock_other (hb : a ≠ b) (hn : a ≠ F.nextLabel) : (F.splitBlock b i).block a =
    { F.block a with phis := movePhis F a b F.nextLabel } := by
  simp only [Function.splitBlock,Function.update_of_ne hn,Function.update_of_ne hb,movePhis]
  exact (apply_ite (fun phis => BasicBlock.mk phis _ _) ..).symm

end Split

namespace Site
variable (site : Site F name pre before op width dividend divisor after) (valid : F.Valid)
include site valid

lemma pre_lt : pre<F.nextLabel := valid.labels pre site.mem

lemma not_successor {c : ℕ} (h : F.nextLabel ≤ c) : c ∉ F.successors pre := by
  intro hc
  have old := valid.labels c (valid.closed pre site.mem c hc)
  omega

lemma split_div : (F.splitBlock pre before.length).block F.nextLabel =
    { body := ⟨name,.div op width dividend divisor⟩ :: after
      terminator := (F.block pre).terminator } := by
  rw [splitBlock_new F pre _ (site.not_successor valid le_rfl),site.body,List.drop_left]

lemma split_pre : (F.splitBlock pre before.length).block pre =
    { phis := movePhis F pre pre F.nextLabel, body := before, terminator := .br F.nextLabel } := by
  rw [splitBlock_old F pre _ (site.pre_lt valid).ne,site.body,List.take_left]

lemma split_successors :
    (F.splitBlock pre before.length).successors F.nextLabel = F.successors pre := by
  rw [Function.successors,site.split_div valid]
  rfl

/-- Two splits move the PHI nodes to the last block. -/
lemma movePhis_twice {a : ℕ} (ha : a ∈ F.labels) :
    movePhis (F.splitBlock pre before.length) a F.nextLabel (F.nextLabel+1) =
      movePhis F a pre (F.nextLabel+1) := by
  have phis : ((F.splitBlock pre before.length).block a).phis = movePhis F a pre F.nextLabel := by
    by_cases same : a = pre
    · rw [same,site.split_pre valid]
    · rw [splitBlock_other F pre _ a same (valid.labels a ha).ne]
  rw [movePhis,site.split_successors valid,phis,movePhis,movePhis]
  split_ifs
  · rw [List.map_map]
    refine List.map_congr_left fun phi hphi => ?_
    simp only [Function.comp_apply,PHINode.replaceIncomingBlockWith,List.map_map]
    congr 1
    refine List.map_congr_left fun e he => ?_
    have old := valid.incoming a ha phi hphi e he
    by_cases same : e.1 = pre
    · simp [same]
    · have new : e.1 ≠ F.nextLabel := by omega
      simp [same,new]
  · rfl

/-- The blocks behind both splits. -/
lemma splits : let F₂ := (F.splitBlock pre before.length).splitBlock F.nextLabel 1
    F₂.block (F.nextLabel+1) = { body := after, terminator := (F.block pre).terminator } ∧
    F₂.block F.nextLabel = { body := [⟨name,.div op width dividend divisor⟩]
                             terminator := .br (F.nextLabel+1) } ∧
    F₂.block pre = { phis := movePhis F pre pre (F.nextLabel+1), body := before
                     terminator := .br F.nextLabel } ∧
    ∀ a ∈ F.labels, a ≠ pre → F₂.block a = { F.block a with
      phis := movePhis F a pre (F.nextLabel+1) } := by
  intro F₂
  have next : (F.splitBlock pre before.length).nextLabel = F.nextLabel+1 := rfl
  have low := site.pre_lt valid
  refine ⟨?_,?_,?_,?_⟩
  · have fresh : (F.splitBlock pre before.length).nextLabel ∉
        (F.splitBlock pre before.length).successors F.nextLabel := by
      rw [site.split_successors valid,next]
      exact site.not_successor valid (by omega)
    have new := splitBlock_new (F.splitBlock pre before.length) F.nextLabel 1 fresh
    rw [next,site.split_div valid] at new
    exact new
  · have old := splitBlock_old (F.splitBlock pre before.length) F.nextLabel 1
      (by rw [next]; omega)
    rw [movePhis,site.split_successors valid,if_neg (site.not_successor valid le_rfl),
      site.split_div valid] at old
    exact old
  · have other := splitBlock_other (F.splitBlock pre before.length) F.nextLabel 1 pre low.ne
      (by rw [next]; omega)
    rw [next,site.movePhis_twice valid site.mem,site.split_pre valid] at other
    exact other
  · intro a ha hne
    have old := valid.labels a ha
    have other := splitBlock_other (F.splitBlock pre before.length) F.nextLabel 1 a old.ne
      (by rw [next]; omega)
    rw [next,site.movePhis_twice valid ha,splitBlock_other F pre _ a hne old.ne] at other
    exact other

end Site

/-- Uses of the division see the PHI node. -/
def rename (F : Function O) (name : ℕ) : Operand → Operand := .replace name (F.nextName+1)

/-- The blocks of a function after `maskDiv`. -/
structure Masked (F G : Function O) (name pre : ℕ) (before : List (Instruction O)) (op : DivOp)
    (width : ℕ) (dividend divisor : Operand) (after : List (Instruction O)) : Prop where
  args : G.args = F.args
  entry : G.entry = F.entry
  labels : G.labels = F.labels ++ [F.nextLabel] ++ [F.nextLabel+1]
  nextLabel : G.nextLabel = F.nextLabel+2
  nextName : G.nextName = F.nextName+2
  preBB : G.block pre =
    { phis := (movePhis F pre pre (F.nextLabel+1)).map (·.map (rename F name))
      body := before.map (·.map (rename F name)) ++
        [⟨F.nextName,.icmpEq width (rename F name divisor) (.constant 0)⟩]
      terminator := .condBr (.value F.nextName) (F.nextLabel+1) F.nextLabel }
  divBB : G.block F.nextLabel =
    { body := [⟨name,.div op width (rename F name dividend) (rename F name divisor)⟩]
      terminator := .br (F.nextLabel+1) }
  postBB : G.block (F.nextLabel+1) =
    { phis := [⟨F.nextName+1,[(pre,.constant 0),(F.nextLabel,.value name)]⟩]
      body := after.map (·.map (rename F name))
      terminator := (F.block pre).terminator.map (rename F name) }
  other : ∀ a ∈ F.labels, a ≠ pre → G.block a =
    { phis := (movePhis F a pre (F.nextLabel+1)).map (·.map (rename F name))
      body := (F.block a).body.map (·.map (rename F name))
      terminator := (F.block a).terminator.map (rename F name) }

lemma Site.masked (site : Site F name pre before op width dividend divisor after) (valid : F.Valid) :
    Masked F (F.maskDiv name) name pre before op width dividend divisor after := by
  have low := site.pre_lt valid
  have named := valid.names pre site.mem name site.mem_defs
  obtain ⟨hpost,hdiv,hpre,hother⟩ := site.splits valid
  have h₁ : pre ≠ F.nextLabel+1 := by omega
  have h₂ : F.nextLabel ≠ pre := by omega
  have h₃ : F.nextLabel ≠ F.nextLabel+1 := by omega
  have h₄ : F.nextLabel+1 ≠ pre := by omega
  have h₅ : F.nextName ≠ name := by omega
  have label : (F.splitBlock pre before.length).nextLabel = F.nextLabel+1 := rfl
  have fresh : ((F.splitBlock pre before.length).splitBlock F.nextLabel 1).nextName = F.nextName := rfl
  have block (a : ℕ) (ha : a ≠ F.nextLabel+1) (hne : a ≠ pre) :
      (F.guardDiv name pre before.length width divisor).block a =
        (((F.splitBlock pre before.length).splitBlock F.nextLabel 1).block a).map (rename F name) := by
    simp only [Function.guardDiv,Function.setBlock,Function.replaceUses,label]
    rw [Function.update_of_ne ha,Function.update_of_ne hne]
    rfl
  rw [site.maskDiv_eq valid]
  constructor
  · rfl
  · rfl
  · rfl
  · rfl
  · rfl
  · simp only [Function.guardDiv,Function.setBlock,Function.replaceUses,label,fresh]
    rw [Function.update_of_ne h₁,Function.update_self,hpre]
    simp only [BasicBlock.map,List.map_append,List.map_singleton,Terminator.map,Operand.replace,
      if_neg h₅]
    rfl
  · rw [block _ h₃ h₂,hdiv]
    rfl
  · simp only [Function.guardDiv,Function.setBlock,Function.replaceUses,label,fresh]
    rw [Function.update_self,Function.update_of_ne h₄,hpost]
    rfl
  · intro a ha hne
    have old := valid.labels a ha
    rw [block a (by omega) hne,hother a ha hne]
    rfl

end Blocks

section Values
variable {M : Type} {F : Function O} {name : ℕ} {values values' : ℕ → ℕ}

/-- The values of a function before and after the masking, for the names that were there before. -/
def Agree (F : Function O) (name : ℕ) (values values' : ℕ → ℕ) : Prop :=
  ∀ x<F.nextName, values' (if x = name then F.nextName+1 else x) = values x

lemma Agree.eval (h : Agree F name values values') {o : Operand}
    (ho : ∀ x, o = .value x → x<F.nextName) : (rename F name o).eval values' = o.eval values := by
  cases o with
  | value x => exact h x (ho x rfl)
  | constant bits => rfl

lemma Agree.evals (h : Agree F name values values') {os : List Operand}
    (ho : ∀ x, .value x ∈ os → x<F.nextName) :
    (os.map (rename F name)).map (·.eval values') = os.map (·.eval values) := by
  rw [List.map_map]
  refine List.map_congr_left fun o hmem => h.eval fun x hx => ho x ?_
  rwa [← hx]

lemma Agree.operation (h : Agree F name values values') (meaning : Meaning O M) (memory : M)
    {I : Operation O} (ho : ∀ x, .value x ∈ I.operands → x<F.nextName) (guarded : Bool) :
    (I.map (rename F name)).exec meaning guarded values' memory =
      I.exec meaning guarded values memory := by
  cases I with
  | div op width dividend divisor =>
    have hx := h.eval (o := dividend) fun x hx => ho x (by simp [Operation.operands,hx])
    have hy := h.eval (o := divisor) fun x hx => ho x (by simp [Operation.operands,hx])
    simp only [Operation.map,Operation.exec,hx,hy]
  | icmpEq width lhs rhs =>
    have hx := h.eval (o := lhs) fun x hx => ho x (by simp [Operation.operands,hx])
    have hy := h.eval (o := rhs) fun x hx => ho x (by simp [Operation.operands,hx])
    simp only [Operation.map,Operation.exec,hx,hy]
  | other opcode operands =>
    have hs : (operands.map (rename F name)).map (·.eval values') = operands.map (·.eval values) :=
      h.evals ho
    simp only [Operation.map,Operation.exec,hs]

lemma Agree.terminator (h : Agree F name values values') (meaning : Meaning O M) (memory : M)
    {T : Terminator O} (ho : ∀ x, .value x ∈ T.operands → x<F.nextName) :
    (T.map (rename F name)).exec meaning values' memory = T.exec meaning values memory := by
  cases T with
  | ret operands =>
    have hs : (operands.map (rename F name)).map (·.eval values') = operands.map (·.eval values) :=
      h.evals ho
    simp only [Terminator.map,Terminator.exec,hs]
  | br target => rfl
  | condBr condition ifTrue ifFalse =>
    have hc := h.eval (o := condition) fun x hx => ho x (by simp [Terminator.operands,hx])
    simp only [Terminator.map,Terminator.exec,hc]
  | other opcode operands targets =>
    have hs : (operands.map (rename F name)).map (·.eval values') = operands.map (·.eval values) :=
      h.evals ho
    simp only [Terminator.map,Terminator.exec,hs]

lemma Agree.update (h : Agree F name values values') {x : ℕ} (hx : x<F.nextName) (hne : x ≠ name)
    (v : ℕ) : Agree F name (Function.update values x v) (Function.update values' x v) := by
  intro y hy
  by_cases same : y = x
  · rw [same,if_neg hne,Function.update_self,Function.update_self]
  · rw [Function.update_of_ne same,← h y hy]
    refine Function.update_of_ne ?_ _ _
    split_ifs <;> omega

/-- A terminator goes to a successor. -/
lemma Terminator.exec_mem {T : Terminator O} {target : ℕ}
    (h : T.exec meaning values memory = .running target) : target ∈ T.successors := by
  cases T with
  | ret operands => cases h
  | br t =>
    cases h
    exact List.mem_singleton_self target
  | condBr condition ifTrue ifFalse =>
    rw [exec] at h
    cases h
    rw [successors]
    split_ifs <;> simp
  | other opcode operands targets =>
    rw [exec] at h
    split at h
    · cases h
      exact List.mem_of_getElem? ‹_›
    · cases h

end Values

section Entering
variable {M : Type} {F G : Function O} {name pre width : ℕ} {before after : List (Instruction O)}
  {op : DivOp} {dividend divisor : Operand}

/-- The block that control comes from, behind the masking. -/
def sourceOf (F : Function O) (pre b : ℕ) : ℕ := if b = pre then F.nextLabel+1 else b

/-- A PHI node with other labels and renamed values. -/
lemma eval_incoming {phi phi' : PHINode} {b b' : ℕ} {g : ℕ → ℕ} {values values' : ℕ → ℕ}
    (h : Agree F name values values')
    (hphi : phi'.incoming = phi.incoming.map fun e => (g e.1,rename F name e.2))
    (hg : ∀ e ∈ phi.incoming, g e.1 = b' ↔ e.1 = b)
    (hu : ∀ e ∈ phi.incoming, ∀ x, e.2 = .value x → x<F.nextName) :
    phi'.eval b' values' = phi.eval b values := by
  have found : phi'.incoming.find? (·.1 = b') =
      (phi.incoming.find? (·.1 = b)).map fun e => (g e.1,rename F name e.2) := by
    rw [hphi,List.find?_map]
    congr 1
    refine List.find?_congr fun e he => ?_
    simp only [Function.comp_apply,decide_eq_decide]
    exact hg e he
  rw [PHINode.eval,PHINode.eval,found]
  cases hf : phi.incoming.find? (·.1 = b) with
  | none => rfl
  | some e => exact h.eval (hu e (List.mem_of_find?_eq_some hf))

lemma eval_movePhis (pre : ℕ) (valid : F.Valid) {b t : ℕ} (hb : b ∈ F.labels) (ht : t ∈ F.successors b)
    {values values' : ℕ → ℕ} (h : Agree F name values values') :
    List.Forall₂ (fun phi phi' : PHINode => phi'.result = phi.result ∧
        phi'.eval (sourceOf F pre b) values' = phi.eval b values)
      (F.block t).phis ((movePhis F t pre (F.nextLabel+1)).map (·.map (rename F name))) := by
  have old := valid.labels b hb
  have target := valid.closed b hb t ht
  have used {phi : PHINode} (hphi : phi ∈ (F.block t).phis) :
      ∀ e ∈ phi.incoming, ∀ x, e.2 = .value x → x<F.nextName := by
    intro e he x hx
    refine valid.used t target x (List.mem_append_left _ (List.mem_append_left _ ?_))
    exact List.mem_flatMap.mpr ⟨phi,hphi,List.mem_map.mpr ⟨e,he,hx⟩⟩
  rw [movePhis]
  split_ifs with moved
  · rw [List.map_map,List.forall₂_map_right_iff]
    refine List.forall₂_same.mpr fun phi hphi => ⟨rfl,?_⟩
    refine eval_incoming (g := fun c => if c = pre then F.nextLabel+1 else c) h ?_ ?_ (used hphi)
    · simp [PHINode.map,PHINode.replaceIncomingBlockWith]
    · intro e he
      have low := valid.incoming t target phi hphi e he
      rw [sourceOf]
      split_ifs <;> omega
  · have elsewhere : b ≠ pre := by
      rintro rfl
      exact moved ht
    rw [List.forall₂_map_right_iff]
    refine List.forall₂_same.mpr fun phi hphi => ⟨rfl,?_⟩
    refine eval_incoming (g := id) h rfl ?_ (used hphi)
    intro e he
    rw [sourceOf,if_neg elsewhere]
    exact Iff.rfl

/-- PHI nodes that are related set the same values. -/
lemma find_phis {phis phis' : List PHINode} {b b' : ℕ} {values values' : ℕ → ℕ}
    (rel : List.Forall₂ (fun phi phi' : PHINode => phi'.result = phi.result ∧
      phi'.eval b' values' = phi.eval b values) phis phis') (x v : ℕ) :
    (match phis'.find? (·.result = x) with | some phi => phi.eval b' values' | none => v) =
      match phis.find? (·.result = x) with | some phi => phi.eval b values | none => v := by
  induction rel with
  | nil => rfl
  | @cons phi phi' _ _ h _ ih =>
    rw [List.find?_cons,List.find?_cons,h.1]
    cases decide (phi.result = x) with
    | true => exact h.2
    | false => exact ih

lemma find_phis_none {phis : List PHINode} {x : ℕ} (h : x ∉ phis.map (·.result)) :
    phis.find? (·.result = x) = none := by
  refine List.find?_eq_none.mpr fun phi hphi same => h ?_
  exact List.mem_map.mpr ⟨phi,hphi,of_decide_eq_true same⟩

lemma Site.not_phi (site : Site F name pre before op width dividend divisor after) (valid : F.Valid)
    {t : ℕ} (ht : t ∈ F.labels) : name ∉ (F.block t).phis.map (·.result) := by
  intro hphi
  have same := valid.unique t ht pre site.mem name (List.mem_append_left _ hphi) site.mem_defs
  subst same
  refine List.disjoint_of_nodup_append (valid.nodup t ht) hphi ?_
  rw [site.body]
  simp

/-- Entering a block gives the same values. -/
lemma Masked.enter (hm : Masked F G name pre before op width dividend divisor after)
    (site : Site F name pre before op width dividend divisor after) (valid : F.Valid)
    {s s' : State M} (hb : s.block ∈ F.labels) (hs : s'.block = sourceOf F pre s.block)
    (h : Agree F name s.values s'.values) {t : ℕ} (ht : t ∈ F.successors s.block) :
    Agree F name (s.enter F t).values (s'.enter G t).values := by
  have target := valid.closed s.block hb t ht
  have phis : (G.block t).phis =
      (movePhis F t pre (F.nextLabel+1)).map (·.map (rename F name)) := by
    by_cases same : t = pre
    · rw [same,hm.preBB]
    · rw [hm.other t target same]
  have rel := eval_movePhis pre valid hb ht h
  rw [← phis,← hs] at rel
  have results : (G.block t).phis.map (·.result) = (F.block t).phis.map (·.result) := by
    rw [← List.forall₂_eq_eq_eq,List.forall₂_map_left_iff,List.forall₂_map_right_iff]
    exact rel.flip.imp fun _ _ h => h.1
  intro x hx
  by_cases same : x = name
  · have unset : F.nextName+1 ∉ (G.block t).phis.map (·.result) := by
      rw [results]
      intro hphi
      have low := valid.names t target _ (List.mem_append_left _ hphi)
      omega
    rw [if_pos same,same]
    simp only [State.enter]
    rw [find_phis_none unset,find_phis_none (site.not_phi valid target)]
    have named := h name (same ▸ hx)
    rwa [if_pos rfl] at named
  · have here := h x hx
    rw [if_neg same] at here ⊢
    simp only [State.enter]
    rw [← here]
    exact find_phis rel x (s'.values x)

end Entering

/-- A state of a function and the state of the masked function that stands for it. -/
structure Related {M : Type} (F : Function O) (name pre : ℕ) (before : List (Instruction O))
    (s s' : State M) : Prop where
  mem : s.block ∈ F.labels
  place : (s.block = pre → s.pc ≤ before.length) ∧ s'.block = s.block ∧ s'.pc = s.pc ∨
    s.block = pre ∧ s.pc = before.length+1+s'.pc ∧ s'.block = F.nextLabel+1
  memory : s'.memory = s.memory
  values : Agree F name s.values s'.values

section Steps
variable {M : Type} {meaning : Meaning O M} {F G : Function O} {name pre width : ℕ}
  {before after : List (Instruction O)} {op : DivOp} {dividend divisor : Operand}
  {guarded guarded' : ℕ → Bool} {s s' : State M}

/-- What is executed next, unless it is the division. -/
lemma Related.fetch (rel : Related F name pre before s s')
    (hm : Masked F G name pre before op width dividend divisor after)
    (site : Site F name pre before op width dividend divisor after) (valid : F.Valid)
    (other : ¬(s.block = pre ∧ s.pc = before.length)) :
    (G.block s'.block).body[s'.pc]? =
        ((F.block s.block).body[s.pc]?).map (·.map (rename F name)) ∧
      (∀ I, (F.block s.block).body[s.pc]? = some I → I.result ≠ name) ∧
      ((F.block s.block).body[s.pc]? = none → s'.block = sourceOf F pre s.block ∧
        (G.block s'.block).terminator = (F.block s.block).terminator.map (rename F name)) := by
  rcases rel.place with ⟨low,block,pc⟩ | ⟨block,pc,block'⟩
  · by_cases here : s.block = pre
    · have less : s.pc<before.length := by
        have le := low here
        have ne : s.pc ≠ before.length := fun h => other ⟨here,h⟩
        omega
      rw [block,pc,here,hm.preBB,site.body]
      dsimp only
      rw [List.getElem?_append_left (by rw [List.length_map]; exact less),List.getElem?_map,
        List.getElem?_append_left less]
      refine ⟨rfl,fun I hI => site.not_mem_before valid (List.mem_of_getElem? hI),fun none => ?_⟩
      exact absurd less (by rw [not_lt]; exact List.getElem?_eq_none_iff.mp none)
    · rw [block,pc,hm.other s.block rel.mem here,sourceOf,if_neg here]
      refine ⟨List.getElem?_map,fun I hI same => here ?_,fun _ => ⟨rfl,rfl⟩⟩
      refine valid.unique s.block rel.mem pre site.mem name ?_ site.mem_defs
      exact List.mem_append_right _ (List.mem_map.mpr ⟨I,List.mem_of_getElem? hI,same⟩)
  · have skip : (before ++ (⟨name,.div op width dividend divisor⟩ : Instruction O) ::
        after)[before.length+1+s'.pc]? = after[s'.pc]? := by
      rw [List.getElem?_append_right (by omega)]
      have shift : before.length+1+s'.pc-before.length = s'.pc+1 := by omega
      rw [shift,List.getElem?_cons_succ]
    rw [block',block,pc,hm.postBB,site.body,skip,sourceOf,if_pos rfl]
    exact ⟨List.getElem?_map,fun I hI => site.not_mem_after valid (List.mem_of_getElem? hI),
      fun _ => ⟨rfl,rfl⟩⟩

lemma Function.Valid.used_instruction (valid : F.Valid) {b i : ℕ} (hb : b ∈ F.labels)
    {I : Instruction O} (h : (F.block b).body[i]? = some I) :
    ∀ x, .value x ∈ I.operation.operands → x<F.nextName := by
  intro x hx
  refine valid.used b hb x (List.mem_append_left _ (List.mem_append_right _ ?_))
  exact List.mem_flatMap.mpr ⟨I,List.mem_of_getElem? h,hx⟩

lemma Function.Valid.used_terminator (valid : F.Valid) {b : ℕ} (hb : b ∈ F.labels) :
    ∀ x, .value x ∈ (F.block b).terminator.operands → x<F.nextName :=
  fun x hx => valid.used b hb x (List.mem_append_right _ hx)

lemma Function.Valid.result_lt (valid : F.Valid) {b i : ℕ} (hb : b ∈ F.labels) {I : Instruction O}
    (h : (F.block b).body[i]? = some I) : I.result<F.nextName :=
  valid.names b hb _ (List.mem_append_right _ (List.mem_map.mpr ⟨I,List.mem_of_getElem? h,rfl⟩))

/-- Anything but the division is one step in both functions. -/
lemma Related.step_other (rel : Related F name pre before s s')
    (hm : Masked F G name pre before op width dividend divisor after)
    (site : Site F name pre before op width dividend divisor after) (valid : F.Valid)
    (hg : ∀ x, x ≠ name → guarded' x = guarded x)
    (other : ¬(s.block = pre ∧ s.pc = before.length)) :
    (∀ t, step meaning F guarded s = .running t →
      ∃ t', step meaning G guarded' s' = .running t' ∧ Related F name pre before t t') ∧
    ∀ o, step meaning F guarded s = .stopped o → step meaning G guarded' s' = .stopped o := by
  obtain ⟨body,named,terminator⟩ := rel.fetch hm site valid other
  rw [step,step,body]
  cases hI : (F.block s.block).body[s.pc]? with
  | some I =>
    have guards := hg I.result (named I hI)
    have same := rel.values.operation meaning s.memory (valid.used_instruction rel.mem hI)
      (guarded I.result)
    dsimp only [Option.map_some,Instruction.map]
    rw [guards,rel.memory,same]
    cases I.operation.exec meaning (guarded I.result) s.values s.memory with
    | none => exact ⟨nofun,fun o h => h⟩
    | some r =>
      refine ⟨fun t h => ?_,fun o h => by cases h⟩
      cases h
      refine ⟨_,rfl,rel.mem,?_,rfl,rel.values.update (valid.result_lt rel.mem hI) (named I hI) r.1⟩
      rcases rel.place with ⟨low,block,pc⟩ | ⟨block,pc,block'⟩
      · refine .inl ⟨fun here => ?_,block,by dsimp only; rw [pc]⟩
        have le := low here
        have ne : s.pc ≠ before.length := fun h => other ⟨here,h⟩
        dsimp only
        omega
      · refine .inr ⟨block,?_,block'⟩
        dsimp only
        omega
  | none =>
    obtain ⟨source,jump⟩ := terminator hI
    have same := rel.values.terminator meaning s.memory (valid.used_terminator rel.mem)
    dsimp only [Option.map_none]
    rw [jump,rel.memory,same]
    cases ht : (F.block s.block).terminator.exec meaning s.values s.memory with
    | stopped exit => exact ⟨nofun,fun o h => h⟩
    | running target =>
      refine ⟨fun t h => ?_,fun o h => by cases h⟩
      cases h
      have successor := Terminator.exec_mem ht
      refine ⟨_,rfl,valid.closed s.block rel.mem target successor,.inl ⟨?_,rfl,rfl⟩,rel.memory,
        hm.enter site valid rel.mem source rel.values successor⟩
      exact fun _ => Nat.zero_le _

lemma Site.used_divisor (site : Site F name pre before op width dividend divisor after)
    (valid : F.Valid) : (∀ x, dividend = .value x → x<F.nextName) ∧
      ∀ x, divisor = .value x → x<F.nextName := by
  have here : (F.block pre).body[before.length]? = some ⟨name,.div op width dividend divisor⟩ := by
    rw [site.body]
    simp
  have used := valid.used_instruction site.mem here
  exact ⟨fun x hx => used x (by simp [Operation.operands,hx]),
    fun x hx => used x (by simp [Operation.operands,hx])⟩

/-- The test of the divisor, and the jump behind it. -/
lemma Masked.test (hm : Masked F G name pre before op width dividend divisor after)
    (meaning : Meaning O M) (guarded' : ℕ → Bool) (block : s'.block = pre) (pc : s'.pc = before.length) :
    let y := BitVec.ofNat width ((rename F name divisor).eval s'.values)
    let jumping : State M :=
      ⟨pre,before.length+1,Function.update s'.values F.nextName (if y = BitVec.ofNat width 0 then 1 else 0),
        s'.memory⟩
    TransGen (Next (step meaning G guarded')) s' (jumping.enter G
      (if y = BitVec.ofNat width 0 then F.nextLabel+1 else F.nextLabel)) := by
  intro y jumping
  have compare : Next (step meaning G guarded') s' jumping := by
    rw [Next,step,block,pc,hm.preBB]
    dsimp only
    rw [List.getElem?_append_right (by rw [List.length_map]),List.length_map,Nat.sub_self]
    rfl
  have jump : Next (step meaning G guarded') jumping (jumping.enter G
      (if y = BitVec.ofNat width 0 then F.nextLabel+1 else F.nextLabel)) := by
    have none : (G.block jumping.block).body[jumping.pc]? = none := by
      refine List.getElem?_eq_none ?_
      rw [show jumping.block = pre from rfl,hm.preBB]
      simp [jumping]
    have terminator : (G.block jumping.block).terminator =
        .condBr (.value F.nextName) (F.nextLabel+1) F.nextLabel := by
      rw [show jumping.block = pre from rfl,hm.preBB]
    have test : (Operand.value F.nextName).eval jumping.values = if y = BitVec.ofNat width 0 then 1 else 0 :=
      Function.update_self ..
    rw [Next,step,none,terminator]
    dsimp only [Terminator.exec]
    rw [test]
    split_ifs <;> simp_all
  exact .tail (.single compare) jump

lemma Agree.test {values values' : ℕ → ℕ} (h : Agree F name values values') (v : ℕ) :
    Agree F name values (Function.update values' F.nextName v) := by
  intro x hx
  rw [← h x hx]
  refine Function.update_of_ne ?_ _ _
  split_ifs <;> omega

/-- The PHI node stands for the division. -/
lemma Agree.phi {values values' : ℕ → ℕ} (h : Agree F name values values') {v : ℕ}
    {values'' : ℕ → ℕ} (hphi : values'' (F.nextName+1) = v)
    (hold : ∀ x<F.nextName, x ≠ name → values'' x = values' x) :
    Agree F name (Function.update values name v) values'' := by
  intro x hx
  by_cases same : x = name
  · rw [if_pos same,same,Function.update_self,hphi]
  · rw [if_neg same,Function.update_of_ne same,hold x hx same,← h x hx,if_neg same]

/-- What the PHI node of the last part sees. -/
lemma Masked.enter_post (hm : Masked F G name pre before op width dividend divisor after)
    (s : State M) (x : ℕ) : (s.enter G (F.nextLabel+1)).values x = if x = F.nextName+1 then
      (⟨F.nextName+1,[(pre,.constant 0),(F.nextLabel,.value name)]⟩ : PHINode).eval s.block s.values
      else s.values x := by
  simp only [State.enter,hm.postBB,List.find?_cons,List.find?_nil]
  by_cases same : x = F.nextName+1
  · simp [same]
  · have other : F.nextName+1 ≠ x := fun h => same h.symm
    simp [same,other]

/-- The division in the function that has not been masked. -/
lemma Site.step_eq (site : Site F name pre before op width dividend divisor after)
    (hg : guarded name = true) (block : s.block = pre) (pc : s.pc = before.length) :
    step meaning F guarded s = match op.divideOrZero
        (BitVec.ofNat width (dividend.eval s.values)) (BitVec.ofNat width (divisor.eval s.values)) with
      | some z => .running ⟨s.block,s.pc+1,Function.update s.values name z.toNat,s.memory⟩
      | none => .stopped .trapped := by
  have here : (F.block s.block).body[s.pc]? = some ⟨name,.div op width dividend divisor⟩ := by
    rw [block,pc,site.body]
    simp
  rw [step,here]
  dsimp only [Operation.exec]
  rw [hg,if_pos rfl]
  cases op.divideOrZero (BitVec.ofNat width (dividend.eval s.values))
    (BitVec.ofNat width (divisor.eval s.values)) <;> rfl

/-- The division in the masked function. -/
lemma Masked.step_eq (hm : Masked F G name pre before op width dividend divisor after)
    (meaning : Meaning O M) (hg : guarded' name = false) (block : s.block = F.nextLabel) (pc : s.pc = 0) :
    step meaning G guarded' s = match op.divide
        (BitVec.ofNat width ((rename F name dividend).eval s.values))
        (BitVec.ofNat width ((rename F name divisor).eval s.values)) with
      | some z => .running ⟨s.block,1,Function.update s.values name z.toNat,s.memory⟩
      | none => .stopped .trapped := by
  have here : (G.block s.block).body[s.pc]? =
      some ⟨name,.div op width (rename F name dividend) (rename F name divisor)⟩ := by
    rw [block,pc,hm.divBB]
    rfl
  rw [step,here]
  dsimp only [Operation.exec]
  rw [hg,if_neg Bool.false_ne_true,pc]
  cases op.divide (BitVec.ofNat width ((rename F name dividend).eval s.values))
    (BitVec.ofNat width ((rename F name divisor).eval s.values)) <;> rfl

/-- A state of the masked function behind a division that has given `v`. -/
structure Joined (F : Function O) (name : ℕ) (s t' : State M) (v : ℕ) : Prop where
  block : t'.block = F.nextLabel+1
  pc : t'.pc = 0
  memory : t'.memory = s.memory
  values : Agree F name (Function.update s.values name v) t'.values

lemma Related.joined (rel : Related F name pre before s s') (block : s.block = pre)
    (pc : s.pc = before.length) {t' : State M} {v : ℕ} (h : Joined F name s t' v) :
    Related F name pre before ⟨s.block,s.pc+1,Function.update s.values name v,s.memory⟩ t' := by
  refine ⟨rel.mem,.inr ⟨block,?_,h.block⟩,h.memory,h.values⟩
  rw [h.pc,pc]

/-- With a divisor of zero the division is left out. -/
lemma Related.skips (rel : Related F name pre before s s')
    (hm : Masked F G name pre before op width dividend divisor after)
    (site : Site F name pre before op width dividend divisor after) (valid : F.Valid)
    (meaning : Meaning O M) (guarded' : ℕ → Bool) (block : s'.block = pre) (pc : s'.pc = before.length)
    (zero : BitVec.ofNat width (divisor.eval s.values) = BitVec.ofNat width 0) :
    ∃ t', TransGen (Next (step meaning G guarded')) s' t' ∧ Joined F name s t' 0 := by
  have test := hm.test meaning guarded' block pc
  rw [rel.values.eval (site.used_divisor valid).2] at test
  dsimp only at test
  rw [if_pos zero,if_pos zero] at test
  have named := valid.names pre site.mem name site.mem_defs
  refine ⟨_,test,rfl,rfl,rel.memory,rel.values.phi ?_ ?_⟩
  · rw [hm.enter_post,if_pos rfl]
    simp [PHINode.eval,Operand.eval]
  · intro x hx _
    rw [hm.enter_post,if_neg (by omega)]
    exact Function.update_of_ne (by omega) _ _

/-- With another divisor the block of the division is entered. -/
lemma Related.divides (rel : Related F name pre before s s')
    (hm : Masked F G name pre before op width dividend divisor after)
    (site : Site F name pre before op width dividend divisor after) (valid : F.Valid)
    (meaning : Meaning O M) (guarded' : ℕ → Bool) (block : s'.block = pre) (pc : s'.pc = before.length)
    (other : BitVec.ofNat width (divisor.eval s.values) ≠ BitVec.ofNat width 0) :
    ∃ d, TransGen (Next (step meaning G guarded')) s' d ∧ d.block = F.nextLabel ∧ d.pc = 0 ∧
      d.memory = s.memory ∧ Agree F name s.values d.values := by
  have test := hm.test meaning guarded' block pc
  rw [rel.values.eval (site.used_divisor valid).2] at test
  dsimp only at test
  rw [if_neg other,if_neg other] at test
  refine ⟨_,test,rfl,rfl,rel.memory,?_⟩
  have empty : (G.block F.nextLabel).phis = [] := by rw [hm.divBB]
  have kept : ∀ s : State M, (s.enter G F.nextLabel).values = s.values := by
    intro s
    funext x
    simp only [State.enter,empty]
    rfl
  rw [kept]
  exact rel.values.test 0

/-- Behind the division, the PHI node takes its result. -/
lemma Masked.join (hm : Masked F G name pre before op width dividend divisor after)
    (site : Site F name pre before op width dividend divisor after) (valid : F.Valid)
    (meaning : Meaning O M) (guarded' : ℕ → Bool) {d : State M} (block : d.block = F.nextLabel)
    (memory : d.memory = s.memory)
    (agree : Agree F name s.values d.values) (v : ℕ) :
    ∃ t', Next (step meaning G guarded') ⟨d.block,1,Function.update d.values name v,d.memory⟩ t' ∧
      Joined F name s t' v := by
  have low := site.pre_lt valid
  have named := valid.names pre site.mem name site.mem_defs
  generalize he : State.mk d.block 1 (Function.update d.values name v) d.memory = e
  have eBlock : e.block = F.nextLabel := by rw [← he]; exact block
  have eValue : e.values name = v := by rw [← he]; exact Function.update_self ..
  have jump : Next (step meaning G guarded') e (e.enter G (F.nextLabel+1)) := by
    rw [Next,step,← he,block,hm.divBB]
    rfl
  refine ⟨_,jump,rfl,rfl,?_,agree.phi ?_ ?_⟩
  · rw [← he]
    exact memory
  · rw [hm.enter_post,if_pos rfl,eBlock]
    simp [PHINode.eval,Operand.eval,eValue,low.ne]
  · intro x hx hne
    rw [hm.enter_post,if_neg (by omega),← he]
    exact Function.update_of_ne hne _ _

/-- The division is replaced by a test and, if the divisor is not zero, the division itself. -/
lemma Related.step_div (rel : Related F name pre before s s')
    (hm : Masked F G name pre before op width dividend divisor after)
    (site : Site F name pre before op width dividend divisor after) (valid : F.Valid)
    (hg : guarded name = true) (hg' : guarded' name = false) (block : s.block = pre)
    (pc : s.pc = before.length) :
    (∀ t, step meaning F guarded s = .running t →
      ∃ t', TransGen (Next (step meaning G guarded')) s' t' ∧ Related F name pre before t t') ∧
    ∀ o, step meaning F guarded s = .stopped o → Ends (step meaning G guarded') s' o := by
  have place : s'.block = pre ∧ s'.pc = before.length := by
    rcases rel.place with ⟨-,block',pc'⟩ | ⟨-,pc',-⟩
    · exact ⟨block'.trans block,pc'.trans pc⟩
    · omega
  obtain ⟨used,used'⟩ := site.used_divisor valid
  rw [site.step_eq hg block pc,DivOp.divideOrZero]
  by_cases zero : BitVec.ofNat width (divisor.eval s.values) = BitVec.ofNat width 0
  · rw [if_pos zero]
    refine ⟨fun t h => ?_,nofun⟩
    cases h
    obtain ⟨t',skipped,joined⟩ := rel.skips hm site valid meaning guarded' place.1 place.2 zero
    exact ⟨t',skipped,rel.joined block pc (by simpa using joined)⟩
  · rw [if_neg zero]
    obtain ⟨d,entered,dBlock,dPc,dMemory,agree⟩ :=
      rel.divides hm site valid meaning guarded' place.1 place.2 zero
    have division := hm.step_eq meaning hg' dBlock dPc
    rw [agree.eval used,agree.eval used'] at division
    cases quotient : op.divide (BitVec.ofNat width (dividend.eval s.values))
      (BitVec.ofNat width (divisor.eval s.values)) with
    | none =>
      rw [quotient] at division
      refine ⟨nofun,fun o h => ?_⟩
      cases h
      exact Ends.after entered.to_reflTransGen (.stop division)
    | some z =>
      rw [quotient] at division
      refine ⟨fun t h => ?_,nofun⟩
      cases h
      obtain ⟨t',jump,joined⟩ := hm.join site valid meaning guarded' dBlock dMemory agree
        z.toNat
      exact ⟨t',(entered.tail division).tail jump,rel.joined block pc joined⟩

/-- A function and the function after `maskDiv`, which does not need the guard any more. -/
theorem Site.simulates (site : Site F name pre before op width dividend divisor after)
    (valid : F.Valid) (hg : guarded name = true) (hg' : guarded' name = false)
    (same : ∀ x, x ≠ name → guarded' x = guarded x) :
    Simulates (step meaning F guarded) (step meaning (F.maskDiv name) guarded')
      (Related F name pre before) where
  running s s' t rel h := by
    by_cases here : s.block = pre ∧ s.pc = before.length
    · exact (rel.step_div (site.masked valid) site valid hg hg' here.1 here.2).1 t h
    · obtain ⟨t',ht',rel'⟩ := (rel.step_other (site.masked valid) site valid same here).1 t h
      exact ⟨t',.single ht',rel'⟩
  stopped s s' o rel h := by
    by_cases here : s.block = pre ∧ s.pc = before.length
    · exact (rel.step_div (site.masked valid) site valid hg hg' here.1 here.2).2 o h
    · exact .stop ((rel.step_other (site.masked valid) site valid same here).2 o h)

end Steps

end ProteanAmulet.LLVM
