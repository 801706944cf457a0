import ProteanAmulet.Sandbox.Masking
import Mathlib.Data.List.Nodup

/-! All divisions of a function are masked one after the other. The result does not trap exactly where
the function has no signed division whose quotient overflows, when divisions by zero give zero. -/
namespace ProteanAmulet.LLVM
open Simulation Relation
variable {O : Type}

section Blocks
variable {F G : Function O} {name pre width : ℕ} {before after : List (Instruction O)} {op : DivOp}
  {dividend divisor : Operand}

@[simp] lemma successors_map (f : Operand → Operand) (T : Terminator O) :
    (T.map f).successors = T.successors := by
  cases T <;> rfl

@[simp] lemma map_result_map (f : Operand → Operand) (body : List (Instruction O)) :
    (body.map (·.map f)).map (·.result) = body.map (·.result) := by
  rw [List.map_map]
  rfl

lemma movePhis_result (F : Function O) (a old new : ℕ) (f : Operand → Operand) :
    ((movePhis F a old new).map (·.map f)).map (·.result) = (F.block a).phis.map (·.result) := by
  rw [movePhis]
  split_ifs
  · rw [List.map_map,List.map_map]
    rfl
  · rw [List.map_map]
    rfl

lemma operands_map (f : Operand → Operand) (I : Operation O) :
    (I.map f).operands = I.operands.map f := by
  cases I <;> rfl

lemma body_operands (f : Operand → Operand) (body : List (Instruction O)) :
    (body.map (·.map f)).flatMap (·.operation.operands) =
      (body.flatMap (·.operation.operands)).map f := by
  rw [List.flatMap_map,List.map_flatMap]
  exact List.flatMap_congr fun I _ => operands_map f I.operation

lemma terminator_operands (f : Operand → Operand) (T : Terminator O) :
    (T.map f).operands = T.operands.map f := by
  cases T <;> rfl

lemma phis_operands (F : Function O) (a old new : ℕ) (f : Operand → Operand) :
    (((movePhis F a old new).map (·.map f)).flatMap fun phi => phi.incoming.map (·.2)) =
      ((F.block a).phis.flatMap fun phi => phi.incoming.map (·.2)).map f := by
  rw [List.flatMap_map,List.map_flatMap,movePhis]
  split_ifs
  · rw [List.flatMap_map]
    refine List.flatMap_congr fun phi _ => ?_
    simp only [PHINode.map,PHINode.replaceIncomingBlockWith,List.map_map]
    rfl
  · refine List.flatMap_congr fun phi _ => ?_
    simp only [PHINode.map,List.map_map]
    rfl

lemma incoming_movePhis {a old new : ℕ} {f : Operand → Operand} {phi : PHINode} {e : ℕ × Operand}
    (hphi : phi ∈ (movePhis F a old new).map (·.map f)) (he : e ∈ phi.incoming) :
    e.1 = new ∨ ∃ phi' ∈ (F.block a).phis, ∃ e' ∈ phi'.incoming, e'.1 = e.1 := by
  obtain ⟨phi₁,h₁,rfl⟩ := List.mem_map.mp hphi
  obtain ⟨e₁,he₁,rfl⟩ := List.mem_map.mp he
  rw [movePhis] at h₁
  split_ifs at h₁
  · obtain ⟨phi₂,h₂,rfl⟩ := List.mem_map.mp h₁
    obtain ⟨e₂,he₂,rfl⟩ := List.mem_map.mp he₁
    dsimp only
    split_ifs
    · exact .inl rfl
    · exact .inr ⟨phi₂,h₂,e₂,he₂,rfl⟩
  · exact .inr ⟨phi₁,h₁,e₁,he₁,rfl⟩

namespace Masked
variable (hm : Masked F G name pre before op width dividend divisor after)
include hm

lemma mem_labels {b : ℕ} : b ∈ G.labels ↔ b ∈ F.labels ∨ b = F.nextLabel ∨ b = F.nextLabel+1 := by
  rw [hm.labels]
  simp

lemma defs_other {b : ℕ} (hb : b ∈ F.labels) (hne : b ≠ pre) : G.defs b = F.defs b := by
  rw [Function.defs,Function.defs,hm.other b hb hne,movePhis_result,map_result_map]

lemma defs_pre : G.defs pre = (F.block pre).phis.map (·.result) ++
    (before.map (·.result) ++ [F.nextName]) := by
  rw [Function.defs,hm.preBB,movePhis_result,List.map_append,map_result_map]
  rfl

lemma defs_div : G.defs F.nextLabel = [name] := by
  rw [Function.defs,hm.divBB]
  rfl

lemma defs_post : G.defs (F.nextLabel+1) = (F.nextName+1) :: after.map (·.result) := by
  rw [Function.defs,hm.postBB,map_result_map]
  rfl

lemma successors_other {b : ℕ} (hb : b ∈ F.labels) (hne : b ≠ pre) :
    G.successors b = F.successors b := by
  rw [Function.successors,hm.other b hb hne,successors_map]
  rfl

lemma successors_pre : G.successors pre = [F.nextLabel+1,F.nextLabel] := by
  rw [Function.successors,hm.preBB]
  rfl

lemma successors_div : G.successors F.nextLabel = [F.nextLabel+1] := by
  rw [Function.successors,hm.divBB]
  rfl

lemma successors_post : G.successors (F.nextLabel+1) = F.successors pre := by
  rw [Function.successors,hm.postBB,successors_map]
  rfl

/-- Where the definitions of the masked function come from. -/
lemma home (site : Site F name pre before op width dividend divisor after) (valid : F.Valid)
    {b x : ℕ} (hb : b ∈ G.labels) (hx : x ∈ G.defs b) :
    (x = F.nextName ∧ b = pre) ∨ (x = F.nextName+1 ∧ b = F.nextLabel+1) ∨
    (x = name ∧ b = F.nextLabel) ∨ (x ∈ after.map (·.result) ∧ b = F.nextLabel+1) ∨
    (x ∈ F.defs b ∧ b ∈ F.labels ∧ x ≠ name ∧ x ∉ after.map (·.result)) := by
  have nodup := valid.nodup pre site.mem
  rw [Function.defs,site.body,List.map_append,List.map_cons,← List.append_assoc] at nodup
  have apart := List.disjoint_of_nodup_append nodup
  rcases hm.mem_labels.mp hb with hb | rfl | rfl
  · by_cases here : b = pre
    · subst here
      rw [hm.defs_pre,← List.append_assoc] at hx
      rcases List.mem_append.mp hx with hx | hx
      · refine .inr (.inr (.inr (.inr ⟨?_,hb,?_,?_⟩)))
        · rw [Function.defs,site.body,List.map_append,← List.append_assoc]
          exact List.mem_append_left _ hx
        · rintro rfl
          exact apart hx List.mem_cons_self
        · exact fun later => apart hx (List.mem_cons_of_mem _ later)
      · exact .inl ⟨List.mem_singleton.mp hx,rfl⟩
    · rw [hm.defs_other hb here] at hx
      have elsewhere (h : x ∈ F.defs pre) : False := here (valid.unique b hb pre site.mem x hx h)
      refine .inr (.inr (.inr (.inr ⟨hx,hb,?_,?_⟩)))
      · rintro rfl
        exact elsewhere site.mem_defs
      · intro later
        apply elsewhere
        rw [Function.defs,site.body]
        simp only [List.map_append,List.map_cons,List.mem_append,List.mem_cons]
        exact .inr (.inr (.inr later))
  · rw [hm.defs_div] at hx
    exact .inr (.inr (.inl ⟨List.mem_singleton.mp hx,rfl⟩))
  · rw [hm.defs_post] at hx
    rcases List.mem_cons.mp hx with hx | hx
    · exact .inr (.inl ⟨hx,rfl⟩)
    · exact .inr (.inr (.inr (.inl ⟨hx,rfl⟩)))

lemma used_lt {os : List Operand} (h : ∀ y, .value y ∈ os → y<F.nextName) {x : ℕ}
    (hx : .value x ∈ os.map (rename F name)) : x<G.nextName := by
  rw [hm.nextName]
  obtain ⟨o,ho,same⟩ := List.mem_map.mp hx
  cases o with
  | constant bits => cases same
  | value y =>
    have low := h y ho
    cases same
    split_ifs <;> omega

end Masked

lemma Site.after_lt (site : Site F name pre before op width dividend divisor after) (valid : F.Valid)
    {x : ℕ} (h : x ∈ after.map (·.result)) : x ∈ F.defs pre ∧ x<F.nextName ∧ x ≠ name := by
  have mem : x ∈ F.defs pre := by
    rw [Function.defs,site.body]
    simp only [List.map_append,List.map_cons,List.mem_append,List.mem_cons]
    exact .inr (.inr (.inr h))
  refine ⟨mem,valid.names pre site.mem x mem,?_⟩
  obtain ⟨I,hI,rfl⟩ := List.mem_map.mp h
  exact site.not_mem_after valid hI

section Validity
variable (hm : Masked F G name pre before op width dividend divisor after)
  (site : Site F name pre before op width dividend divisor after) (valid : F.Valid)
include hm valid

lemma Masked.distinct : G.labels.Nodup := by
  rw [hm.labels,List.append_assoc]
  refine List.nodup_append'.mpr ⟨valid.distinct,by simp,fun b hb new => ?_⟩
  have old := valid.labels b hb
  simp only [List.singleton_append,List.mem_cons,List.not_mem_nil,or_false] at new
  omega

include site

lemma Masked.closed {b t : ℕ} (hb : b ∈ G.labels) (ht : t ∈ G.successors b) : t ∈ G.labels := by
  rw [hm.mem_labels] at hb ⊢
  rcases hb with hb | rfl | rfl
  · by_cases here : b = pre
    · rw [here,hm.successors_pre] at ht
      simp only [List.mem_cons,List.not_mem_nil,or_false] at ht
      exact .inr ht.symm
    · rw [hm.successors_other hb here] at ht
      exact .inl (valid.closed b hb t ht)
  · rw [hm.successors_div] at ht
    exact .inr (.inr (List.mem_singleton.mp ht))
  · rw [hm.successors_post] at ht
    exact .inl (valid.closed pre site.mem t ht)

lemma Masked.incoming {b : ℕ} (hb : b ∈ G.labels) {phi : PHINode} (hphi : phi ∈ (G.block b).phis)
    {e : ℕ × Operand} (he : e ∈ phi.incoming) : e.1<G.nextLabel := by
  have low := site.pre_lt valid
  rw [hm.nextLabel]
  have moved (hb : b ∈ F.labels)
      (hphi : phi ∈ (movePhis F b pre (F.nextLabel+1)).map (·.map (rename F name))) :
      e.1<F.nextLabel+2 := by
    rcases incoming_movePhis hphi he with new | ⟨phi',hphi',e',he',same⟩
    · omega
    · have old := valid.incoming b hb phi' hphi' e' he'
      omega
  rcases hm.mem_labels.mp hb with hb | rfl | rfl
  · by_cases here : b = pre
    · subst here
      rw [hm.preBB] at hphi
      exact moved hb hphi
    · rw [hm.other b hb here] at hphi
      exact moved hb hphi
  · rw [hm.divBB] at hphi
    cases hphi
  · rw [hm.postBB] at hphi
    rw [List.mem_singleton.mp hphi] at he
    simp only [List.mem_cons,List.not_mem_nil,or_false] at he
    rcases he with rfl | rfl <;> dsimp only <;> omega

lemma Masked.used {b x : ℕ} (hb : b ∈ G.labels) (hx : .value x ∈ G.uses b) : x<G.nextName := by
  have named := valid.names pre site.mem name site.mem_defs
  have fresh := hm.nextName
  have phis (hb : b ∈ F.labels) (y : ℕ) (h : Operand.value y ∈
      (F.block b).phis.flatMap fun phi => phi.incoming.map (·.2)) : y<F.nextName :=
    valid.used b hb y (List.mem_append_left _ (List.mem_append_left _ h))
  have part {l : List (Instruction O)} (hl : l ⊆ (F.block pre).body) (y : ℕ)
      (h : Operand.value y ∈ l.flatMap (·.operation.operands)) : y<F.nextName := by
    obtain ⟨I,hI,h⟩ := List.mem_flatMap.mp h
    exact valid.used pre site.mem y (List.mem_append_left _ (List.mem_append_right _
      (List.mem_flatMap.mpr ⟨I,hl hI,h⟩)))
  have division (h : Operand.value x ∈ [dividend,divisor].map (rename F name)) : x<G.nextName := by
    obtain ⟨dividendUsed,divisorUsed⟩ := site.used_divisor valid
    refine hm.used_lt (fun y hy => ?_) h
    rcases List.mem_cons.mp hy with hy | hy
    · exact dividendUsed y hy.symm
    · exact divisorUsed y (List.mem_singleton.mp hy).symm
  rcases hm.mem_labels.mp hb with hb | rfl | rfl
  · by_cases here : b = pre
    · subst here
      rw [Function.uses,hm.preBB] at hx
      dsimp only at hx
      rw [phis_operands,List.flatMap_append,body_operands] at hx
      simp only [List.mem_append] at hx
      rcases hx with (hx | hx | hx) | hx
      · exact hm.used_lt (phis hb) hx
      · exact hm.used_lt (part (by rw [site.body]; exact List.subset_append_left _ _)) hx
      · apply division
        simp only [List.flatMap_singleton,Operation.operands,List.mem_cons] at hx
        simp only [List.map_cons,List.mem_cons]
        tauto
      · cases List.mem_singleton.mp hx
        omega
    · rw [Function.uses,hm.other b hb here] at hx
      dsimp only at hx
      rw [phis_operands,body_operands,terminator_operands,← List.map_append,← List.map_append] at hx
      exact hm.used_lt (valid.used b hb) hx
  · rw [Function.uses,hm.divBB] at hx
    apply division
    simpa [Operation.operands,Terminator.operands] using hx
  · rw [Function.uses,hm.postBB] at hx
    dsimp only at hx
    rw [body_operands,terminator_operands] at hx
    simp only [List.mem_append] at hx
    rcases hx with (hx | hx) | hx
    · simp at hx
      omega
    · refine hm.used_lt (part ?_) hx
      rw [site.body]
      exact fun I hI => List.mem_append_right _ (List.mem_cons_of_mem _ hI)
    · exact hm.used_lt (valid.used_terminator site.mem) hx

lemma Masked.nodup {b : ℕ} (hb : b ∈ G.labels) : (G.defs b).Nodup := by
  have nodup := valid.nodup pre site.mem
  rw [Function.defs,site.body,List.map_append,List.map_cons,← List.append_assoc] at nodup
  rcases hm.mem_labels.mp hb with hb | rfl | rfl
  · by_cases here : b = pre
    · subst here
      rw [hm.defs_pre,← List.append_assoc]
      refine List.nodup_append'.mpr ⟨nodup.of_append_left,List.nodup_singleton _,?_⟩
      intro x hx new
      have old : x ∈ F.defs b := by
        rw [Function.defs,site.body,List.map_append,← List.append_assoc]
        exact List.mem_append_left _ hx
      have less := valid.names b hb x old
      rw [List.mem_singleton.mp new] at less
      omega
    · rw [hm.defs_other hb here]
      exact valid.nodup b hb
  · rw [hm.defs_div]
    exact List.nodup_singleton _
  · rw [hm.defs_post]
    refine List.nodup_cons.mpr ⟨fun h => ?_,(List.nodup_cons.mp nodup.of_append_right).2⟩
    have old := (site.after_lt valid h).2.1
    omega

lemma Masked.unique {b c x : ℕ} (hb : b ∈ G.labels) (hc : c ∈ G.labels) (hx : x ∈ G.defs b)
    (hx' : x ∈ G.defs c) : b = c := by
  have named := valid.names pre site.mem name site.mem_defs
  have later (h : x ∈ after.map (·.result)) := (site.after_lt valid h).2
  have old (b : ℕ) (h : x ∈ F.defs b ∧ b ∈ F.labels ∧ x ≠ name ∧ x ∉ after.map (·.result)) :=
    valid.names b h.2.1 x h.1
  rcases hm.home site valid hb hx with h | h | h | h | h <;>
    rcases hm.home site valid hc hx' with h' | h' | h' | h' | h'
  all_goals first | (exact valid.unique b h.2.1 c h'.2.1 x h.1 h'.1) | grind

/-- The masked function is one that LLVM can have. -/
theorem Masked.keeps_valid : G.Valid := by
  have low := site.pre_lt valid
  have named := valid.names pre site.mem name site.mem_defs
  constructor
  case distinct => exact hm.distinct valid
  case entry =>
    rw [hm.mem_labels,hm.entry]
    exact .inl valid.entry
  case closed => exact fun b hb t ht => hm.closed site valid hb ht
  case labels =>
    intro b hb
    rw [hm.nextLabel]
    rcases hm.mem_labels.mp hb with hb | rfl | rfl
    · have old := valid.labels b hb
      omega
    · omega
    · omega
  case incoming => exact fun b hb phi hphi e he => hm.incoming site valid hb hphi he
  case names =>
    intro b hb x hx
    rw [hm.nextName]
    rcases hm.home site valid hb hx with h | h | h | h | h
    · omega
    · omega
    · omega
    · have old := (site.after_lt valid h.1).2.1
      omega
    · have old := valid.names b h.2.1 x h.1
      omega
  case used => exact fun b hb x hx => hm.used site valid hb hx
  case args =>
    intro x hx
    rw [hm.args] at hx
    have old := valid.args x hx
    rw [hm.nextName]
    omega
  case nodup => exact fun b hb => hm.nodup site valid hb
  case unique => exact fun b hb c hc x hx hx' => hm.unique site valid hb hc hx hx'
  case apart =>
    intro b hb x hx
    rw [hm.args]
    intro arg
    have old := valid.args x arg
    rcases hm.home site valid hb hx with h | h | h | h | h
    · omega
    · omega
    · exact valid.apart pre site.mem name site.mem_defs (h.1 ▸ arg)
    · exact valid.apart pre site.mem x (site.after_lt valid h.1).1 arg
    · exact valid.apart b h.2.1 x h.1 arg

end Validity

end Blocks

/-- The name is that of a division. -/
def Function.IsDiv (F : Function O) (name : ℕ) : Prop :=
  ∃ b ∈ F.labels, ∃ I ∈ (F.block b).body, I.result = name ∧ I.isIntDivRem

section Divisions
variable {F G : Function O} {name pre width : ℕ} {before after : List (Instruction O)} {op : DivOp}
  {dividend divisor : Operand}

lemma mem_divs : name ∈ F.divs ↔ F.IsDiv name := by
  simp only [Function.divs,Function.IsDiv,List.mem_flatMap,List.mem_map,List.mem_filter]
  constructor
  · rintro ⟨b,hb,I,⟨hI,div⟩,result⟩
    exact ⟨b,hb,I,hI,result,div⟩
  · rintro ⟨b,hb,I,hI,result,div⟩
    exact ⟨b,hb,I,⟨hI,div⟩,result⟩

lemma Function.IsDiv.site (h : F.IsDiv name) : ∃ pre before op width dividend divisor after,
    Site F name pre before op width dividend divisor after := by
  obtain ⟨b,hb,⟨result,operation⟩,hI,rfl,div⟩ := h
  obtain ⟨before,after,body⟩ := List.append_of_mem hI
  cases operation with
  | div op width dividend divisor => exact ⟨b,before,op,width,dividend,divisor,after,hb,body⟩
  | icmpEq width lhs rhs => cases div
  | other opcode operands => cases div

/-- The other divisions are still there. -/
lemma Masked.isDiv (hm : Masked F G name pre before op width dividend divisor after)
    (site : Site F name pre before op width dividend divisor after) {x : ℕ} (hx : F.IsDiv x)
    (hne : x ≠ name) : G.IsDiv x := by
  obtain ⟨b,hb,I,hI,rfl,div⟩ := hx
  have renamed : (I.map (rename F name)).isIntDivRem := by
    obtain ⟨result,operation⟩ := I
    cases operation <;> exact div
  have found {c : ℕ} (hc : c ∈ G.labels) (h : I.map (rename F name) ∈ (G.block c).body) :
      G.IsDiv I.result := ⟨c,hc,_,h,rfl,renamed⟩
  by_cases here : b = pre
  · subst here
    rw [site.body] at hI
    rcases List.mem_append.mp hI with hI | hI
    · refine found (hm.mem_labels.mpr (.inl hb)) ?_
      rw [hm.preBB]
      exact List.mem_append_left _ (List.mem_map.mpr ⟨I,hI,rfl⟩)
    · rcases List.mem_cons.mp hI with rfl | hI
      · exact absurd rfl hne
      · refine found (hm.mem_labels.mpr (.inr (.inr rfl))) ?_
        rw [hm.postBB]
        exact List.mem_map.mpr ⟨I,hI,rfl⟩
  · refine found (hm.mem_labels.mpr (.inl hb)) ?_
    rw [hm.other b hb here]
    exact List.mem_map.mpr ⟨I,hI,rfl⟩

/-- Every division is collected once. -/
lemma Function.Valid.divs_nodup (valid : F.Valid) : F.divs.Nodup := by
  have sub (b : ℕ) : (((F.block b).body.filter (·.isIntDivRem)).map (·.result)).Sublist
      (F.defs b) :=
    ((List.filter_sublist).map _).trans (List.sublist_append_right _ _)
  rw [Function.divs,List.nodup_flatMap]
  refine ⟨fun b hb => (valid.nodup b hb).sublist (sub b),?_⟩
  refine valid.distinct.imp_of_mem fun {b c} hb hc hne x hx hx' => hne ?_
  exact valid.unique b hb c hc x ((sub b).subset hx) ((sub c).subset hx')

lemma Masked.init {M : Type} (hm : Masked F G name pre before op width dividend divisor after)
    (site : Site F name pre before op width dividend divisor after) (valid : F.Valid)
    (args : ℕ → ℕ) (memory : M) :
    Related F name pre before (init F args memory) (init G args memory) where
  mem := valid.entry
  place := .inl ⟨fun _ => Nat.zero_le _,hm.entry,rfl⟩
  memory := rfl
  values x hx := by
    simp only [LLVM.init,hm.args]
    by_cases same : x = name
    · have unnamed : name ∉ F.args := valid.apart pre site.mem name site.mem_defs
      have new : F.nextName+1 ∉ F.args := by
        intro arg
        have old := valid.args _ arg
        omega
      rw [if_pos same,if_neg new,same,if_neg unnamed]
    · rw [if_neg same]

end Divisions

/-- A run of one function stands for a run of another one, in which values may have other names. -/
structure Follows {M : Type} (meaning : Meaning O M) (guarded guarded' : ℕ → Bool)
    (F G : Function O) (names : ℕ → ℕ) (R : State M → State M → Prop) : Prop where
  simulates : Simulates (step meaning F guarded) (step meaning G guarded') R
  init : ∀ args memory, R (init F args memory) (init G args memory)
  memory : ∀ s s', R s s' → s'.memory = s.memory
  values : ∀ s s', R s s' → ∀ x<F.nextName, s'.values (names x) = s.values x

section Folding
variable {M : Type} (meaning : Meaning O M) {F : Function O}

/-- The divisions of a list are masked. -/
lemma follows_foldl (pending : List ℕ) (valid : F.Valid) (nodup : pending.Nodup)
    (divs : ∀ x ∈ pending, F.IsDiv x) :
    ∃ names R, Follows meaning (fun x => x ∈ pending) (fun _ => false) F
        (pending.foldl Function.maskDiv F) names R ∧ ∀ x, x ∉ pending → names x = x := by
  induction pending generalizing F with
  | nil =>
    refine ⟨id,Eq,⟨⟨?_,?_⟩,fun _ _ => rfl,?_,?_⟩,fun _ _ => rfl⟩
    · rintro s _ t rfl h
      exact ⟨t,.single (by simpa [Next] using h),rfl⟩
    · rintro s _ o rfl h
      exact .stop (by simpa using h)
    · rintro s _ rfl
      rfl
    · rintro s _ rfl x -
      rfl
  | cons name pending ih =>
    obtain ⟨here,rest⟩ := List.nodup_cons.mp nodup
    obtain ⟨pre,before,op,width,dividend,divisor,after,site⟩ := (divs name List.mem_cons_self).site
    have hm := site.masked valid
    have valid' := hm.keeps_valid site valid
    have divs' (x : ℕ) (hx : x ∈ pending) : (F.maskDiv name).IsDiv x := by
      refine hm.isDiv site (divs x (List.mem_cons_of_mem name hx)) ?_
      rintro rfl
      exact here hx
    obtain ⟨names,R,follows,same⟩ := ih valid' rest divs'
    have first : Simulates (step meaning F fun x => x ∈ name :: pending)
        (step meaning (F.maskDiv name) fun x => x ∈ pending) (Related F name pre before) := by
      refine site.simulates valid (by simp) (by simpa using here) fun x hx => ?_
      simp [hx]
    refine ⟨fun x => names (if x = name then F.nextName+1 else x),_,
      ⟨first.trans follows.simulates,?_,?_,?_⟩,?_⟩
    · exact fun args memory => ⟨_,hm.init site valid args memory,follows.init args memory⟩
    · rintro s s' ⟨s₁,h₁,h₂⟩
      exact (follows.memory s₁ s' h₂).trans h₁.memory
    · rintro s s' ⟨s₁,h₁,h₂⟩ x hx
      have bound : (if x = name then F.nextName+1 else x)<(F.maskDiv name).nextName := by
        rw [hm.nextName]
        split_ifs <;> omega
      exact (follows.values s₁ s' h₂ _ bound).trans (h₁.values x hx)
    · intro x hx
      rw [List.mem_cons,not_or] at hx
      dsimp only
      rw [if_neg hx.1]
      exact same x hx.2

lemma Function.Valid.step_mem (valid : F.Valid) {guarded : ℕ → Bool} {s t : State M}
    (hs : s.block ∈ F.labels) (h : step meaning F guarded s = .running t) : t.block ∈ F.labels := by
  rw [step] at h
  cases hI : (F.block s.block).body[s.pc]? with
  | some I =>
    rw [hI] at h
    dsimp only at h
    split at h
    · cases h
      exact hs
    · cases h
  | none =>
    rw [hI] at h
    dsimp only at h
    split at h
    · cases h
      exact valid.closed s.block hs _ (Terminator.exec_mem ‹_›)
    · cases h

/-- All divisions of the function are guarded if those that are collected are. -/
lemma follows_divs (valid : F.Valid) : Follows meaning (fun _ => true) (fun x => x ∈ F.divs) F F id
    fun s s' => s' = s ∧ s.block ∈ F.labels := by
  have same (s : State M) (hs : s.block ∈ F.labels) :
      step meaning F (fun x => x ∈ F.divs) s = step meaning F (fun _ => true) s := by
    rw [step,step]
    cases hI : (F.block s.block).body[s.pc]? with
    | none => rfl
    | some I =>
      obtain ⟨result,operation⟩ := I
      cases operation with
      | div op width dividend divisor =>
        have collected : result ∈ F.divs :=
          mem_divs.mpr ⟨s.block,hs,_,List.mem_of_getElem? hI,rfl,rfl⟩
        simp only [collected,decide_true]
      | icmpEq width lhs rhs => rfl
      | other opcode operands => rfl
  refine ⟨⟨?_,?_⟩,fun args memory => ⟨rfl,valid.entry⟩,?_,?_⟩
  · rintro _ s t ⟨rfl,hs⟩ h
    exact ⟨t,.single ((same s hs).trans h),rfl,valid.step_mem meaning hs h⟩
  · rintro _ s o ⟨rfl,hs⟩ h
    exact .stop ((same s hs).trans h)
  · rintro _ s ⟨rfl,-⟩
    rfl
  · rintro _ s ⟨rfl,-⟩ x -
    rfl

end Folding

section Results
variable {M : Type} (meaning : Meaning O M) (F : Function O)

/-- A signed division comes next, and its quotient is too large. -/
def State.Overflows (s : State M) : Prop :=
  ∃ result op width dividend divisor, (F.block s.block).body[s.pc]? =
      some ⟨result,.div op width dividend divisor⟩ ∧
    op.Overflows (BitVec.ofNat width (dividend.eval s.values))
      (BitVec.ofNat width (divisor.eval s.values))

/-- The masked function on x86, and the function with divisions that give zero when the divisor is
zero: the masked one does not trap, both have the same outcomes, and all along the run they have the
same values. -/
structure MasksDivisions (args : ℕ → ℕ) (memory : M) : Prop where
  noTrap : ¬Ends (step meaning F.maskDivs fun _ => false) (init F.maskDivs args memory) .trapped
  outcome : ∀ o, Ends (step meaning F.maskDivs fun _ => false) (init F.maskDivs args memory) o ↔
    Ends (step meaning F fun _ => true) (init F args memory) o
  values : ∃ names : ℕ → ℕ, (∀ x, x ∉ F.divs → names x = x) ∧
    ∀ s, ReflTransGen (Next (step meaning F fun _ => true)) (init F args memory) s →
      ∃ s', ReflTransGen (Next (step meaning F.maskDivs fun _ => false))
          (init F.maskDivs args memory) s' ∧ s'.memory = s.memory ∧
        ∀ x<F.nextName, s'.values (names x) = s.values x

variable {meaning F}

lemma DivOp.divideOrZero_eq_none {op : DivOp} {width : ℕ} {x y : BitVec width} :
    op.divideOrZero x y = none ↔ op.Overflows x y := by
  rw [divideOrZero,divide]
  by_cases zero : y = BitVec.ofNat width 0
  · rw [if_pos zero]
    refine iff_of_false (Option.some_ne_none _) ?_
    rintro ⟨-,positive,-,minus⟩
    have value := congrArg BitVec.toNat (minus.symm.trans zero)
    have large := Nat.one_lt_two_pow (Nat.ne_of_gt positive)
    rw [BitVec.toNat_neg,BitVec.toNat_ofNat,BitVec.toNat_ofNat,Nat.zero_mod,
      Nat.mod_eq_of_lt large,Nat.mod_eq_of_lt (by omega)] at value
    omega
  · rw [if_neg zero]
    by_cases overflow : op.Overflows x y
    · rw [if_pos (.inr overflow)]
      exact iff_of_true rfl overflow
    · rw [if_neg (not_or.mpr ⟨zero,overflow⟩)]
      exact iff_of_false (Option.some_ne_none _) overflow

lemma Terminator.exec_ne_trapped (T : Terminator O) (values : ℕ → ℕ) (memory : M) :
    T.exec meaning values memory ≠ .stopped .trapped := by
  intro h
  cases T with
  | ret operands => cases h
  | br target => cases h
  | condBr condition ifTrue ifFalse => cases h
  | other opcode operands targets =>
    rw [exec] at h
    split at h <;> cases h

lemma step_trapped_iff (s : State M) :
    step meaning F (fun _ => true) s = .stopped .trapped ↔ s.Overflows F := by
  rw [step,State.Overflows]
  cases hI : (F.block s.block).body[s.pc]? with
  | none =>
    dsimp only
    refine iff_of_false (fun h => ?_) ?_
    · split at h
      · cases h
      · cases h
        exact Terminator.exec_ne_trapped _ _ _ ‹_›
    · rintro ⟨_,_,_,_,_,h,-⟩
      cases h
  | some I =>
    obtain ⟨result,operation⟩ := I
    cases operation with
    | div op width dividend divisor =>
      dsimp only [Operation.exec]
      rw [if_pos rfl]
      constructor
      · intro h
        refine ⟨result,op,width,dividend,divisor,rfl,DivOp.divideOrZero_eq_none.mp ?_⟩
        cases quotient : op.divideOrZero (BitVec.ofNat width (dividend.eval s.values))
            (BitVec.ofNat width (divisor.eval s.values)) with
        | none => rfl
        | some z =>
          rw [quotient] at h
          cases h
      · rintro ⟨_,_,_,_,_,h,overflow⟩
        cases h
        rw [DivOp.divideOrZero_eq_none.mpr overflow]
        rfl
    | icmpEq width lhs rhs =>
      refine iff_of_false (fun h => ?_) ?_
      · cases h
      · rintro ⟨_,_,_,_,_,h,-⟩
        cases h
    | other opcode operands =>
      refine iff_of_false (fun h => ?_) ?_
      · cases h
      · rintro ⟨_,_,_,_,_,h,-⟩
        cases h

section Follows
variable (valid : F.Valid)
include valid

/-- The masked function follows the function with guarded divisions. -/
lemma maskDivs_follows (meaning : Meaning O M) : ∃ names R,
    Follows meaning (fun _ => true) (fun _ => false) F F.maskDivs names R ∧
      ∀ x, x ∉ F.divs → names x = x := by
  obtain ⟨names,R,follows,same⟩ := follows_foldl meaning F.divs valid valid.divs_nodup
    fun x => mem_divs.mp
  have all := follows_divs meaning valid
  refine ⟨names,_,⟨all.simulates.trans follows.simulates,?_,?_,?_⟩,same⟩
  · exact fun args memory => ⟨_,all.init args memory,follows.init args memory⟩
  · rintro s s' ⟨s₁,⟨rfl,-⟩,rel⟩
    exact follows.memory _ s' rel
  · rintro s s' ⟨s₁,⟨rfl,-⟩,rel⟩
    exact follows.values _ s' rel

lemma maskDivs_ends_iff (args : ℕ → ℕ) (memory : M) (o : Exit M) :
    Ends (step meaning F.maskDivs fun _ => false) (init F.maskDivs args memory) o ↔
      Ends (step meaning F fun _ => true) (init F args memory) o := by
  obtain ⟨names,R,follows,-⟩ := maskDivs_follows valid meaning
  exact (follows.simulates.ends_iff (follows.init args memory)).symm

lemma maskDivs_trapped_iff (args : ℕ → ℕ) (memory : M) :
    Ends (step meaning F.maskDivs fun _ => false) (init F.maskDivs args memory) .trapped ↔
      ∃ s, ReflTransGen (Next (step meaning F fun _ => true)) (init F args memory) s ∧
        s.Overflows F := by
  rw [maskDivs_ends_iff valid]
  simp only [Ends,step_trapped_iff]

/-- The masked function does what it should, exactly if no signed division overflows. -/
theorem masksDivisions_iff (args : ℕ → ℕ) (memory : M) :
    MasksDivisions meaning F args memory ↔
      ∀ s, ReflTransGen (Next (step meaning F fun _ => true)) (init F args memory) s →
        ¬s.Overflows F := by
  constructor
  · intro h s hs overflow
    exact h.noTrap ((maskDivs_trapped_iff valid args memory).mpr ⟨s,hs,overflow⟩)
  · intro h
    obtain ⟨names,R,follows,same⟩ := maskDivs_follows valid meaning
    refine ⟨?_,maskDivs_ends_iff valid args memory,names,same,fun s hs => ?_⟩
    · rw [maskDivs_trapped_iff valid]
      rintro ⟨s,hs,overflow⟩
      exact h s hs overflow
    · obtain ⟨s',hs',rel⟩ := follows.simulates.reaches (follows.init args memory) hs
      exact ⟨s',hs',follows.memory s s' rel,follows.values s s' rel⟩

end Follows

/-- A function that returns the quotient of its arguments. -/
def quotient (op : DivOp) : Function Unit where
  args := [0,1]
  entry := 0
  labels := [0]
  block _ := { body := [⟨2,.div op 32 (.value 0) (.value 1)⟩], terminator := .ret [.value 2] }
  nextLabel := 1
  nextName := 3

lemma quotient_valid (op : DivOp) : (quotient op).Valid := by
  constructor <;> simp [quotient,Function.successors,Function.defs,Function.uses,
    Terminator.successors,Terminator.operands,Operation.operands]

/-- An unsigned division by zero. -/
theorem masksDivisions_zero : MasksDivisions (⟨fun _ _ m => (0,m),fun _ _ _ => 0⟩ : Meaning Unit Unit)
    (quotient .udiv) (fun x => if x = 0 then 6 else 0) () := by
  refine (masksDivisions_iff (quotient_valid .udiv) _ ()).mpr ?_
  rintro s - ⟨result,op,width,dividend,divisor,here,signed,-⟩
  have mem := List.mem_of_getElem? here
  cases List.mem_singleton.mp mem
  cases signed

/-- The quotient of the least number and minus one. -/
theorem not_masksDivisions_overflow : (quotient .sdiv).Valid ∧
    ¬MasksDivisions (⟨fun _ _ m => (0,m),fun _ _ _ => 0⟩ : Meaning Unit Unit) (quotient .sdiv)
      (fun x => if x = 0 then 2147483648 else 4294967295) () := by
  refine ⟨quotient_valid .sdiv,fun h => h.noTrap ?_⟩
  refine (maskDivs_trapped_iff (quotient_valid .sdiv) _ ()).mpr ⟨_,.refl,?_⟩
  exact ⟨2,.sdiv,32,.value 0,.value 1,rfl,by decide +kernel⟩

end Results

end ProteanAmulet.LLVM
