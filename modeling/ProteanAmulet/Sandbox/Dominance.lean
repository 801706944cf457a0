import ProteanAmulet.Sandbox.Traps

/-! SSA form under the sandbox pass: PHI nodes with one entry for every edge, and definitions that
dominate their uses. `maskDiv` keeps both. -/
namespace ProteanAmulet.LLVM
open Relation
variable {O : Type}

namespace Function
variable (F : Function O)

def Edge (a b : ℕ) : Prop := b ∈ F.successors a

def Reachable (b : ℕ) : Prop := ReflTransGen F.Edge F.entry b

/-- There is a walk from the entry to `b` that does not come to `d`. -/
def Avoids (d b : ℕ) : Prop :=
  F.entry ≠ d ∧ ReflTransGen (fun x y => F.Edge x y ∧ y ≠ d) F.entry b

def Dominates (d b : ℕ) : Prop := ¬F.Avoids d b

/-- The definition of a value dominates the place `i` of a block. -/
def Available (b i x : ℕ) : Prop :=
  x ∈ F.args ∨ x ∈ (F.block b).phis.map (·.result) ∨
    x ∈ ((F.block b).body.take i).map (·.result) ∨
    ∃ d ∈ F.labels, d ≠ b ∧ F.Dominates d b ∧ x ∈ F.defs d

/-- A PHI node has one entry for every edge to its block, and no others. -/
def Complete (b : ℕ) (phi : PHINode) : Prop :=
  ∀ a, (phi.incoming.map (·.1)).count a = if a ∈ F.labels then (F.successors a).count b else 0

/-- SSA form, in the blocks that can be reached. A PHI node uses its values at the end of the incoming
blocks. -/
structure WellFormed : Prop extends F.Valid where
  complete : ∀ b, F.Reachable b → ∀ phi ∈ (F.block b).phis, F.Complete b phi
  bodyUses : ∀ b, F.Reachable b → ∀ i I, (F.block b).body[i]? = some I →
    ∀ x, .value x ∈ I.operation.operands → F.Available b i x
  terminatorUses : ∀ b, F.Reachable b → ∀ x, .value x ∈ (F.block b).terminator.operands →
    F.Available b (F.block b).body.length x
  phiUses : ∀ b, F.Reachable b → ∀ phi ∈ (F.block b).phis, ∀ e ∈ phi.incoming, F.Reachable e.1 →
    ∀ x, e.2 = .value x → F.Available e.1 (F.block e.1).body.length x

end Function

section Walks
variable {F G : Function O} {name pre width : ℕ} {before after : List (Instruction O)} {op : DivOp}
  {dividend divisor : Operand}

lemma Function.Valid.reachable_mem (valid : F.Valid) {b : ℕ} (h : F.Reachable b) : b ∈ F.labels := by
  induction h with
  | refl => exact valid.entry
  | tail _ hxy ih => exact valid.closed _ ih _ hxy

lemma not_avoids_self (F : Function O) (d : ℕ) : F.Dominates d d := by
  rintro ⟨ne,walk⟩
  rcases walk.cases_tail with same | ⟨x,-,hx⟩
  · exact ne same.symm
  · exact hx.2 rfl

lemma count_replace {l : List ℕ} {old new : ℕ} (hne : old ≠ new) (hl : new ∉ l) (a : ℕ) :
    (l.map fun c => if c = old then new else c).count a =
      if a = old then 0 else if a = new then l.count old else l.count a := by
  induction l with
  | nil => simp
  | cons c l ih =>
    rw [List.mem_cons,not_or] at hl
    rw [List.map_cons,List.count_cons,List.count_cons,List.count_cons,ih hl.2]
    grind

/-- The block that the parts of `pre` come from. -/
def origin (F : Function O) (pre c : ℕ) : ℕ :=
  if c = F.nextLabel ∨ c = F.nextLabel+1 then pre else c

section Masked
variable (hm : Masked F G name pre before op width dividend divisor after)
  (site : Site F name pre before op width dividend divisor after) (valid : F.Valid)
include hm site valid

/-- An edge of the masked function stays inside of `pre` or is an edge of the function. -/
lemma Masked.edge_cases {x y : ℕ} (hx : x ∈ G.labels) (h : G.Edge x y) :
    (origin F pre y = pre ∧ origin F pre x = pre ∧ y ∉ F.labels) ∨
      (y ∈ F.labels ∧ F.Edge (origin F pre x) y) := by
  have low := site.pre_lt valid
  rcases hm.mem_labels.mp hx with hx | rfl | rfl
  · have old := valid.labels x hx
    have same : origin F pre x = x := if_neg (by omega)
    by_cases here : x = pre
    · rw [Function.Edge,here,hm.successors_pre] at h
      simp only [List.mem_cons,List.not_mem_nil,or_false] at h
      refine .inl ⟨if_pos h.symm,same.trans here,fun hy => ?_⟩
      have old := valid.labels y hy
      omega
    · rw [Function.Edge,hm.successors_other hx here] at h
      rw [same]
      exact .inr ⟨valid.closed x hx y h,h⟩
  · rw [Function.Edge,hm.successors_div] at h
    have next := List.mem_singleton.mp h
    refine .inl ⟨if_pos (.inr next),if_pos (.inl rfl),fun hy => ?_⟩
    have old := valid.labels y hy
    omega
  · rw [Function.Edge,hm.successors_post] at h
    have same : origin F pre (F.nextLabel+1) = pre := if_pos (.inr rfl)
    rw [same]
    exact .inr ⟨valid.closed pre site.mem y h,h⟩

/-- Walks of the masked function are walks of the function. -/
lemma Masked.walk {P : ℕ → Prop} {c : ℕ}
    (h : ReflTransGen (fun x y => G.Edge x y ∧ P y) G.entry c) :
    c ∈ G.labels ∧ ReflTransGen (fun x y => F.Edge x y ∧ P y) F.entry (origin F pre c) := by
  have valid' := hm.keeps_valid site valid
  induction h with
  | refl =>
    have old := valid.labels F.entry valid.entry
    refine ⟨valid'.entry,?_⟩
    rw [hm.entry,origin,if_neg (by omega)]
  | @tail x y _ hxy ih =>
    obtain ⟨hx,walk⟩ := ih
    have hy : y ∈ G.labels := valid'.closed x hx y hxy.1
    refine ⟨hy,?_⟩
    rcases hm.edge_cases site valid hx hxy.1 with ⟨toPre,fromPre,-⟩ | ⟨old,edge⟩
    · rw [toPre]
      rwa [fromPre] at walk
    · have less := valid.labels y old
      have same : origin F pre y = y := if_neg (by omega)
      rw [same]
      exact walk.tail ⟨edge,hxy.2⟩

lemma Masked.reachable {c : ℕ} (h : G.Reachable c) : c ∈ G.labels ∧ F.Reachable (origin F pre c) := by
  have walk := hm.walk site valid (P := fun _ => True)
    (ReflTransGen.mono (fun x y hxy => ⟨hxy,trivial⟩) _ _ h)
  exact ⟨walk.1,ReflTransGen.mono (fun x y hxy => hxy.1) _ _ walk.2⟩

/-- Blocks of the function dominate what they dominated. -/
lemma Masked.dominates {d c : ℕ} (h : F.Dominates d (origin F pre c)) : G.Dominates d c := by
  rintro ⟨ne,walk⟩
  rw [hm.entry] at ne
  exact h ⟨ne,(hm.walk site valid walk).2⟩

/-- The last part of `pre` dominates what `pre` dominated. -/
lemma Masked.post_dominates {c : ℕ} (hc : c ∈ F.labels) (hne : c ≠ pre) (h : F.Dominates pre c) :
    G.Dominates (F.nextLabel+1) c := by
  have low := site.pre_lt valid
  rintro ⟨-,walk⟩
  have key : ∀ y, ReflTransGen (fun x y => G.Edge x y ∧ y ≠ F.nextLabel+1) G.entry y →
      y = pre ∨ y = F.nextLabel ∨ (y ∈ F.labels ∧ y ≠ pre ∧ F.Avoids pre y) := by
    intro y hy
    induction hy with
    | refl =>
      rw [hm.entry]
      by_cases here : F.entry = pre
      · exact .inl here
      · exact .inr (.inr ⟨valid.entry,here,here,.refl⟩)
    | @tail x y _ hxy ih =>
      obtain ⟨edge,ne⟩ := hxy
      rcases ih with rfl | rfl | ⟨hx,hxne,avoids⟩
      · rw [Function.Edge,hm.successors_pre] at edge
        simp only [List.mem_cons,List.not_mem_nil,or_false] at edge
        exact .inr (.inl (edge.resolve_left ne))
      · rw [Function.Edge,hm.successors_div] at edge
        exact absurd (List.mem_singleton.mp edge) ne
      · rw [Function.Edge,hm.successors_other hx hxne] at edge
        by_cases here : y = pre
        · exact .inl here
        · exact .inr (.inr ⟨valid.closed x hx y edge,here,avoids.1,avoids.2.tail ⟨edge,here⟩⟩)
  have old := valid.labels c hc
  rcases key c walk with same | same | ⟨-,-,avoids⟩
  · exact hne same
  · omega
  · exact h avoids

/-- A definition in front of the division stays in `pre`. -/
lemma Masked.early {x : ℕ} (hx : x ∈ (F.block pre).phis.map (·.result) ∨
    x ∈ before.map (·.result)) : x ≠ name ∧ x ∈ G.defs pre := by
  constructor
  · rintro rfl
    rcases hx with hx | hx
    · exact site.not_phi valid site.mem hx
    · obtain ⟨I,hI,same⟩ := List.mem_map.mp hx
      exact site.not_mem_before valid hI same
  · rw [hm.defs_pre,List.mem_append,List.mem_append]
    exact hx.imp_right .inl

/-- The name of a value behind the masking. -/
def renamed (F : Function O) (name x : ℕ) : ℕ := if x = name then F.nextName+1 else x

/-- The division and what is behind it is defined in the last part. -/
lemma Masked.late {x : ℕ} (hx : x = name ∨ x ∈ after.map (·.result)) :
    renamed F name x ∈ G.defs (F.nextLabel+1) := by
  rw [hm.defs_post,renamed]
  rcases hx with rfl | hx
  · rw [if_pos rfl]
    exact List.mem_cons_self
  · rw [if_neg (site.after_lt valid hx).2.2]
    exact List.mem_cons_of_mem _ hx

/-- Definitions in other blocks dominate what they dominated. -/
lemma Masked.available_global {c d x : ℕ} (hc : origin F pre c ∈ F.labels) (hd : d ∈ F.labels)
    (hne : d ≠ origin F pre c) (dominates : F.Dominates d (origin F pre c)) (hx : x ∈ F.defs d) :
    ∃ d' ∈ G.labels, d' ≠ c ∧ G.Dominates d' c ∧ renamed F name x ∈ G.defs d' := by
  have old := valid.labels d hd
  have other : d ≠ c := by
    rintro rfl
    exact hne (if_neg (by omega)).symm
  have listed : d ∈ G.labels := hm.mem_labels.mpr (.inl hd)
  by_cases here : d = pre
  · subst here
    have outside : c ∈ F.labels ∧ c ≠ d ∧ origin F d c = c := by
      rw [origin] at hc hne ⊢
      split_ifs at hc hne with new
      · exact absurd rfl hne
      · exact ⟨hc,other.symm,if_neg new⟩
    have post : F.nextLabel+1 ≠ c := by
      have less := valid.labels c outside.1
      omega
    rw [outside.2.2] at dominates
    rw [Function.defs,site.body,List.map_append,List.map_cons,List.mem_append,List.mem_append,
      List.mem_cons,← or_assoc] at hx
    rcases hx with early | late
    · obtain ⟨ne,mem⟩ := hm.early site valid early
      refine ⟨d,listed,other,?_,?_⟩
      · apply hm.dominates site valid
        rwa [outside.2.2]
      · rwa [renamed,if_neg ne]
    · exact ⟨_,hm.mem_labels.mpr (.inr (.inr rfl)),post,
        hm.post_dominates site valid outside.1 outside.2.1 dominates,hm.late site valid late⟩
  · have ne : x ≠ name := by
      rintro rfl
      exact here (valid.unique d hd pre site.mem x hx site.mem_defs)
    refine ⟨d,listed,other,hm.dominates site valid dominates,?_⟩
    rwa [renamed,if_neg ne,hm.defs_other hd here]

lemma Masked.available_args {c j x : ℕ} (hx : x ∈ F.args) : G.Available c j (renamed F name x) := by
  have ne : x ≠ name := by
    rintro rfl
    exact valid.apart pre site.mem x site.mem_defs hx
  refine .inl ?_
  rwa [renamed,if_neg ne,hm.args]

lemma Masked.available_other {b i x : ℕ} (hb : b ∈ F.labels) (hne : b ≠ pre)
    (h : F.Available b i x) : G.Available b i (renamed F name x) := by
  have old := valid.labels b hb
  have same : origin F pre b = b := if_neg (by omega)
  have elsewhere (hx : x ∈ F.defs b) : renamed F name x = x := by
    refine if_neg ?_
    rintro rfl
    exact hne (valid.unique b hb pre site.mem x hx site.mem_defs)
  rcases h with hx | hx | hx | ⟨d,hd,other,dominates,hx⟩
  · exact hm.available_args site valid hx
  · refine .inr (.inl ?_)
    rwa [elsewhere (List.mem_append_left _ hx),hm.other b hb hne,movePhis_result]
  · refine .inr (.inr (.inl ?_))
    have defined : x ∈ F.defs b :=
      List.mem_append_right _ (List.map_subset _ (List.take_subset i _) hx)
    rw [elsewhere defined,hm.other b hb hne]
    dsimp only
    rwa [← List.map_take,map_result_map]
  · exact .inr (.inr (.inr (hm.available_global site valid (by rwa [same]) hd (by rwa [same])
      (by rwa [same]) hx)))

lemma Masked.available_pre {i x : ℕ} (hi : i ≤ before.length) (h : F.Available pre i x) :
    G.Available pre i (renamed F name x) := by
  have old := site.pre_lt valid
  have same : origin F pre pre = pre := if_neg (by omega)
  rcases h with hx | hx | hx | ⟨d,hd,other,dominates,hx⟩
  · exact hm.available_args site valid hx
  · refine .inr (.inl ?_)
    rw [renamed,if_neg (hm.early site valid (.inl hx)).1,hm.preBB,movePhis_result]
    exact hx
  · rw [site.body,List.take_append_of_le_length hi] at hx
    have ne := (hm.early site valid (.inr (List.map_subset _ (List.take_subset i _) hx))).1
    refine .inr (.inr (.inl ?_))
    rw [renamed,if_neg ne,hm.preBB]
    dsimp only
    rwa [List.take_append_of_le_length (by rwa [List.length_map]),← List.map_take,map_result_map]
  · exact .inr (.inr (.inr (hm.available_global site valid (by rw [same]; exact site.mem) hd
      (by rwa [same]) (by rwa [same]) hx)))

/-- Behind the test, the first part of `pre` dominates. -/
lemma Masked.available_early {c x : ℕ} (hc : origin F pre c = pre) (hne : pre ≠ c)
    (hx : x ∈ (F.block pre).phis.map (·.result) ∨ x ∈ before.map (·.result)) :
    ∃ d ∈ G.labels, d ≠ c ∧ G.Dominates d c ∧ renamed F name x ∈ G.defs d := by
  obtain ⟨ne,mem⟩ := hm.early site valid hx
  refine ⟨pre,hm.mem_labels.mpr (.inl site.mem),hne,hm.dominates site valid ?_,?_⟩
  · rw [hc]
    exact not_avoids_self F pre
  · rwa [renamed,if_neg ne]

lemma Masked.available_div {x : ℕ} (h : F.Available pre before.length x) :
    G.Available F.nextLabel 0 (renamed F name x) := by
  have old := site.pre_lt valid
  have same : origin F pre F.nextLabel = pre := if_pos (.inl rfl)
  rcases h with hx | hx | hx | ⟨d,hd,other,dominates,hx⟩
  · exact hm.available_args site valid hx
  · exact .inr (.inr (.inr (hm.available_early site valid same old.ne (.inl hx))))
  · rw [site.body,List.take_left] at hx
    exact .inr (.inr (.inr (hm.available_early site valid same old.ne (.inr hx))))
  · exact .inr (.inr (.inr (hm.available_global site valid (by rw [same]; exact site.mem) hd
      (by rwa [same]) (by rwa [same]) hx)))

lemma Masked.available_post {j x : ℕ} (h : F.Available pre (before.length+1+j) x) :
    G.Available (F.nextLabel+1) j (renamed F name x) := by
  have old := site.pre_lt valid
  have same : origin F pre (F.nextLabel+1) = pre := if_pos (.inr rfl)
  have ne : pre ≠ F.nextLabel+1 := by omega
  rcases h with hx | hx | hx | ⟨d,hd,other,dominates,hx⟩
  · exact hm.available_args site valid hx
  · exact .inr (.inr (.inr (hm.available_early site valid same ne (.inl hx))))
  · have shift : before.length+1+j-before.length = j+1 := by omega
    rw [site.body,List.take_append,List.take_of_length_le (by omega),shift,List.take_succ_cons,
      List.map_append,List.map_cons,List.mem_append,List.mem_cons] at hx
    rcases hx with early | rfl | late
    · exact .inr (.inr (.inr (hm.available_early site valid same ne (.inr early))))
    · refine .inr (.inl ?_)
      rw [renamed,if_pos rfl,hm.postBB]
      exact List.mem_singleton_self _
    · have mem : x ∈ after.map (·.result) := List.map_subset _ (List.take_subset j _) late
      refine .inr (.inr (.inl ?_))
      rw [renamed,if_neg (site.after_lt valid mem).2.2,hm.postBB]
      dsimp only
      rwa [← List.map_take,map_result_map]
  · exact .inr (.inr (.inr (hm.available_global site valid (by rw [same]; exact site.mem) hd
      (by rwa [same]) (by rwa [same]) hx)))

/-- The edges to a block of the function. -/
lemma Masked.edges {a b : ℕ} (hb : b ∈ F.labels) :
    (if a ∈ G.labels then (G.successors a).count b else 0) =
      if a = pre then 0 else if a = F.nextLabel+1 then (F.successors pre).count b
      else if a ∈ F.labels then (F.successors a).count b else 0 := by
  have low := site.pre_lt valid
  have old := valid.labels b hb
  by_cases ha : a ∈ G.labels
  · rw [if_pos ha]
    rcases hm.mem_labels.mp ha with ha | rfl | rfl
    · have less := valid.labels a ha
      by_cases here : a = pre
      · rw [if_pos here,here,hm.successors_pre,List.count_eq_zero]
        simp only [List.mem_cons,List.not_mem_nil,or_false]
        omega
      · rw [if_neg here,if_neg (by omega),if_pos ha,hm.successors_other ha here]
    · have new : F.nextLabel ∉ F.labels := fun h => absurd (valid.labels _ h) (lt_irrefl _)
      rw [if_neg (by omega),if_neg (by omega),if_neg new,hm.successors_div,List.count_eq_zero]
      simp only [List.mem_singleton]
      omega
    · rw [if_neg (by omega),if_pos rfl,hm.successors_post]
  · rw [if_neg ha]
    rw [hm.mem_labels,not_or,not_or] at ha
    have other : a ≠ pre := by
      rintro rfl
      exact ha.1 site.mem
    rw [if_neg other,if_neg ha.2.2,if_neg ha.1]

/-- PHI nodes of the function stay complete. -/
lemma Masked.complete_moved {b : ℕ} (hb : b ∈ F.labels)
    (h : ∀ phi ∈ (F.block b).phis, F.Complete b phi) :
    ∀ phi ∈ (movePhis F b pre (F.nextLabel+1)).map (·.map (rename F name)), G.Complete b phi := by
  have low := site.pre_lt valid
  have new : F.nextLabel+1 ∉ F.labels := by
    intro listed
    have old := valid.labels _ listed
    omega
  intro phi' hphi' a
  rw [hm.edges site valid hb]
  obtain ⟨phi₁,hphi₁,rfl⟩ := List.mem_map.mp hphi'
  have labels : (phi₁.map (rename F name)).incoming.map (·.1) = phi₁.incoming.map (·.1) := by
    rw [PHINode.map,List.map_map]
    rfl
  rw [labels]
  rw [movePhis] at hphi₁
  split_ifs at hphi₁ with moved
  · obtain ⟨phi,hphi,rfl⟩ := List.mem_map.mp hphi₁
    have replaced : (phi.replaceIncomingBlockWith pre (F.nextLabel+1)).incoming.map (·.1) =
        (phi.incoming.map (·.1)).map fun c => if c = pre then F.nextLabel+1 else c := by
      rw [PHINode.replaceIncomingBlockWith,List.map_map,List.map_map]
      rfl
    have unused : F.nextLabel+1 ∉ phi.incoming.map (·.1) := by
      rw [← List.count_eq_zero,h phi hphi,if_neg new]
    rw [replaced,count_replace (by omega) unused,h phi hphi,h phi hphi,if_pos site.mem]
  · rw [h phi₁ hphi₁]
    have none : (F.successors pre).count b = 0 := List.count_eq_zero.mpr moved
    by_cases here : a = pre
    · rw [here,if_pos site.mem,if_pos rfl,none]
    · rw [if_neg here]
      by_cases last : a = F.nextLabel+1
      · rw [last,if_neg new,if_pos rfl,none]
      · rw [if_neg last]

/-- The new PHI node is complete. -/
lemma Masked.complete_new : G.Complete (F.nextLabel+1)
    ⟨F.nextName+1,[(pre,.constant 0),(F.nextLabel,.value name)]⟩ := by
  have low := site.pre_lt valid
  have unreached {a : ℕ} (ha : a ∈ F.labels) : (F.successors a).count (F.nextLabel+1) = 0 := by
    rw [List.count_eq_zero]
    intro edge
    have old := valid.labels _ (valid.closed a ha _ edge)
    omega
  intro a
  by_cases ha : a ∈ G.labels
  · rw [if_pos ha]
    rcases hm.mem_labels.mp ha with ha | rfl | rfl
    · have old := valid.labels a ha
      by_cases here : a = pre
      · rw [here,hm.successors_pre]
        simp [low.ne']
      · rw [hm.successors_other ha here,unreached ha,List.count_eq_zero]
        simp
        omega
    · rw [hm.successors_div]
      simp [low.ne]
    · rw [hm.successors_post,unreached site.mem,List.count_eq_zero]
      simp
      omega
  · rw [if_neg ha,List.count_eq_zero]
    rw [hm.mem_labels,not_or,not_or] at ha
    simp only [List.map_cons,List.map_nil,List.mem_cons,List.not_mem_nil,or_false,not_or]
    refine ⟨?_,ha.2.1⟩
    rintro rfl
    exact ha.1 site.mem

end Masked

lemma rename_eq_value {o : Operand} {x : ℕ} (h : rename F name o = .value x) :
    ∃ y, o = .value y ∧ x = renamed F name y := by
  cases o with
  | constant bits => cases h
  | value y => exact ⟨y,rfl,(Operand.value.inj h).symm⟩

lemma mem_rename {os : List Operand} {x : ℕ} (h : .value x ∈ os.map (rename F name)) :
    ∃ y, .value y ∈ os ∧ x = renamed F name y := by
  obtain ⟨o,ho,same⟩ := List.mem_map.mp h
  obtain ⟨y,rfl,hx⟩ := rename_eq_value same
  exact ⟨y,ho,hx⟩

section Uses
variable (hm : Masked F G name pre before op width dividend divisor after)
  (site : Site F name pre before op width dividend divisor after) (wf : F.WellFormed)
include hm site wf

/-- The parts of `pre` can be reached only if `pre` could. -/
lemma Masked.reachable_origin {c b : ℕ} (h : G.Reachable c) (hc : origin F pre c = b) :
    F.Reachable b := hc ▸ (hm.reachable site wf.toValid h).2

lemma Masked.bodyUses {c : ℕ} (hc : G.Reachable c) {i : ℕ} {I : Instruction O}
    (hI : (G.block c).body[i]? = some I) {x : ℕ} (hx : .value x ∈ I.operation.operands) :
    G.Available c i x := by
  have valid := wf.toValid
  have low := site.pre_lt valid
  have division : (F.block pre).body[before.length]? =
      some ⟨name,.div op width dividend divisor⟩ := by
    rw [site.body]
    simp
  have operand {J : Instruction O} (h : I = J.map (rename F name)) :
      ∃ y, .value y ∈ J.operation.operands ∧ x = renamed F name y := by
    rw [h,Instruction.map,operands_map] at hx
    exact mem_rename hx
  rcases hm.mem_labels.mp (hm.reachable site valid hc).1 with mem | rfl | rfl
  · have old := valid.labels c mem
    have reachable := hm.reachable_origin site wf hc (if_neg (by omega))
    by_cases here : c = pre
    · subst here
      rw [hm.preBB] at hI
      dsimp only at hI
      by_cases less : i<before.length
      · rw [List.getElem?_append_left (by rwa [List.length_map]),List.getElem?_map,
          Option.map_eq_some_iff] at hI
        obtain ⟨J,hJ,same⟩ := hI
        obtain ⟨y,hy,rfl⟩ := operand same.symm
        refine hm.available_pre site valid less.le (wf.bodyUses c reachable i J ?_ y hy)
        rw [site.body,List.getElem?_append_left less,hJ]
      · rw [List.getElem?_append_right (by rw [List.length_map]; omega)] at hI
        obtain ⟨last,same⟩ := List.getElem?_eq_some_iff.mp hI
        rw [List.length_map,List.length_singleton] at last
        have place : i = before.length := by omega
        subst place
        simp only [List.getElem_singleton] at same
        subst same
        have use : .value x ∈ [divisor].map (rename F name) := by
          simpa [Operation.operands] using hx
        obtain ⟨y,hy,rfl⟩ := mem_rename use
        refine hm.available_pre site valid le_rfl (wf.bodyUses c reachable _ _ division y ?_)
        exact List.mem_cons_of_mem _ hy
    · rw [hm.other c mem here,List.getElem?_map,Option.map_eq_some_iff] at hI
      obtain ⟨J,hJ,same⟩ := hI
      obtain ⟨y,hy,rfl⟩ := operand same.symm
      exact hm.available_other site valid mem here (wf.bodyUses c reachable i J hJ y hy)
  · have reachable := hm.reachable_origin site wf hc (if_pos (.inl rfl))
    rw [hm.divBB] at hI
    obtain ⟨first,same⟩ := List.getElem?_eq_some_iff.mp hI
    have place : i = 0 := by simpa using first
    subst place
    have use : .value x ∈ [dividend,divisor].map (rename F name) := by
      rw [← same] at hx
      exact hx
    obtain ⟨y,hy,rfl⟩ := mem_rename use
    exact hm.available_div site valid (wf.bodyUses pre reachable _ _ division y hy)
  · have reachable := hm.reachable_origin site wf hc (if_pos (.inr rfl))
    rw [hm.postBB,List.getElem?_map,Option.map_eq_some_iff] at hI
    obtain ⟨J,hJ,same⟩ := hI
    obtain ⟨y,hy,rfl⟩ := operand same.symm
    refine hm.available_post site valid (wf.bodyUses pre reachable _ J ?_ y hy)
    rw [site.body,List.getElem?_append_right (by omega)]
    have shift : before.length+1+i-before.length = i+1 := by omega
    rw [shift,List.getElem?_cons_succ,hJ]

lemma Masked.terminatorUses {c : ℕ} (hc : G.Reachable c) {x : ℕ}
    (hx : .value x ∈ (G.block c).terminator.operands) :
    G.Available c (G.block c).body.length x := by
  have valid := wf.toValid
  have low := site.pre_lt valid
  rcases hm.mem_labels.mp (hm.reachable site valid hc).1 with mem | rfl | rfl
  · have old := valid.labels c mem
    have reachable := hm.reachable_origin site wf hc (if_neg (by omega))
    by_cases here : c = pre
    · subst here
      rw [hm.preBB] at hx
      cases List.mem_singleton.mp hx
      refine .inr (.inr (.inl ?_))
      rw [List.take_length,hm.preBB]
      simp
    · rw [hm.other c mem here] at hx ⊢
      dsimp only at hx ⊢
      rw [terminator_operands] at hx
      obtain ⟨y,hy,rfl⟩ := mem_rename hx
      rw [List.length_map]
      exact hm.available_other site valid mem here (wf.terminatorUses c reachable y hy)
  · rw [hm.divBB] at hx
    cases hx
  · have reachable := hm.reachable_origin site wf hc (if_pos (.inr rfl))
    rw [hm.postBB] at hx ⊢
    dsimp only at hx ⊢
    rw [terminator_operands] at hx
    obtain ⟨y,hy,rfl⟩ := mem_rename hx
    rw [List.length_map]
    have use := wf.terminatorUses pre reachable y hy
    have length : (F.block pre).body.length = before.length+1+after.length := by
      rw [site.body,List.length_append,List.length_cons]
      omega
    rw [length] at use
    exact hm.available_post site valid use

/-- Values that leave `pre` leave its last part. -/
lemma Masked.available_end {a x : ℕ} (hl : a ∈ F.labels)
    (h : F.Available a (F.block a).body.length x) :
    G.Available (sourceOf F pre a) (G.block (sourceOf F pre a)).body.length (renamed F name x) := by
  have valid := wf.toValid
  by_cases here : a = pre
  · rw [sourceOf,if_pos here,hm.postBB]
    dsimp only
    rw [List.length_map]
    rw [here,site.body,List.length_append,List.length_cons] at h
    have length : before.length+(after.length+1) = before.length+1+after.length := by omega
    rw [length] at h
    exact hm.available_post site valid h
  · rw [sourceOf,if_neg here,hm.other a hl here]
    dsimp only
    rw [List.length_map]
    exact hm.available_other site valid hl here h

lemma Masked.reachable_source {a : ℕ} (low : a<F.nextLabel) (h : G.Reachable (sourceOf F pre a)) :
    F.Reachable a := by
  refine hm.reachable_origin site wf h ?_
  rw [sourceOf]
  split_ifs with here
  · rw [here]
    exact if_pos (.inr rfl)
  · exact if_neg (by omega)

lemma Masked.phiUses {c : ℕ} (hc : G.Reachable c) {phi : PHINode} (hphi : phi ∈ (G.block c).phis)
    {e : ℕ × Operand} (he : e ∈ phi.incoming) (reachable : G.Reachable e.1) {x : ℕ}
    (hx : e.2 = .value x) : G.Available e.1 (G.block e.1).body.length x := by
  have valid := wf.toValid
  have moved (mem : c ∈ F.labels) (h : phi ∈ (movePhis F c pre (F.nextLabel+1)).map
      (·.map (rename F name))) : G.Available e.1 (G.block e.1).body.length x := by
    have old := valid.labels c mem
    have here := hm.reachable_origin site wf hc (if_neg (by omega))
    obtain ⟨phi₁,hphi₁,rfl⟩ := List.mem_map.mp h
    obtain ⟨e₁,he₁,rfl⟩ := List.mem_map.mp he
    obtain ⟨y,hy,rfl⟩ := rename_eq_value hx
    have source : ∃ phi₂ ∈ (F.block c).phis, ∃ e₂ ∈ phi₂.incoming,
        e₁.1 = sourceOf F pre e₂.1 ∧ e₁.2 = e₂.2 := by
      rw [movePhis] at hphi₁
      split_ifs at hphi₁ with edge
      · obtain ⟨phi₂,hphi₂,rfl⟩ := List.mem_map.mp hphi₁
        obtain ⟨e₂,he₂,rfl⟩ := List.mem_map.mp he₁
        exact ⟨phi₂,hphi₂,e₂,he₂,rfl,rfl⟩
      · refine ⟨phi₁,hphi₁,e₁,he₁,?_,rfl⟩
        have other : e₁.1 ≠ pre := by
          intro same
          have count := wf.complete c here phi₁ hphi₁ pre
          rw [if_pos site.mem,List.count_eq_zero.mpr edge,List.count_eq_zero] at count
          exact count (List.mem_map.mpr ⟨e₁,he₁,same⟩)
        rw [sourceOf,if_neg other]
    obtain ⟨phi₂,hphi₂,e₂,he₂,label,value⟩ := source
    dsimp only at reachable ⊢
    rw [label] at reachable ⊢
    have origin' := hm.reachable_source site wf (valid.incoming c mem phi₂ hphi₂ e₂ he₂) reachable
    refine hm.available_end site wf (valid.reachable_mem origin') ?_
    exact wf.phiUses c here phi₂ hphi₂ e₂ he₂ origin' y (value ▸ hy)
  rcases hm.mem_labels.mp (hm.reachable site valid hc).1 with mem | rfl | rfl
  · by_cases here : c = pre
    · subst here
      rw [hm.preBB] at hphi
      exact moved mem hphi
    · rw [hm.other c mem here] at hphi
      exact moved mem hphi
  · rw [hm.divBB] at hphi
    cases hphi
  · rw [hm.postBB] at hphi
    rw [List.mem_singleton.mp hphi] at he
    simp only [List.mem_cons,List.not_mem_nil,or_false] at he
    rcases he with rfl | rfl
    · cases hx
    · cases hx
      refine .inr (.inr (.inl ?_))
      rw [List.take_length,hm.divBB]
      exact List.mem_singleton_self _

/-- `maskDiv` keeps SSA form. -/
theorem Masked.wellFormed : G.WellFormed := by
  have valid := wf.toValid
  refine ⟨hm.keeps_valid site valid,?_,fun c hc i I hI x hx => hm.bodyUses site wf hc hI hx,
    fun c hc x hx => hm.terminatorUses site wf hc hx,
    fun c hc phi hphi e he reachable x hx => hm.phiUses site wf hc hphi he reachable hx⟩
  intro c hc phi hphi
  have moved (mem : c ∈ F.labels) (h : phi ∈ (movePhis F c pre (F.nextLabel+1)).map
      (·.map (rename F name))) : G.Complete c phi := by
    have old := valid.labels c mem
    have reachable := hm.reachable_origin site wf hc (if_neg (by omega))
    exact hm.complete_moved site valid mem (wf.complete c reachable) phi h
  rcases hm.mem_labels.mp (hm.reachable site valid hc).1 with mem | rfl | rfl
  · by_cases here : c = pre
    · subst here
      rw [hm.preBB] at hphi
      exact moved mem hphi
    · rw [hm.other c mem here] at hphi
      exact moved mem hphi
  · rw [hm.divBB] at hphi
    cases hphi
  · rw [hm.postBB] at hphi
    rw [List.mem_singleton.mp hphi]
    exact hm.complete_new site valid

end Uses

/-- `maskDivs` keeps SSA form. -/
lemma wellFormed_foldl (pending : List ℕ) (wf : F.WellFormed) (nodup : pending.Nodup)
    (divs : ∀ x ∈ pending, F.IsDiv x) : (pending.foldl Function.maskDiv F).WellFormed := by
  induction pending generalizing F with
  | nil => exact wf
  | cons name pending ih =>
    obtain ⟨here,rest⟩ := List.nodup_cons.mp nodup
    obtain ⟨pre,before,op,width,dividend,divisor,after,site⟩ := (divs name List.mem_cons_self).site
    have hm := site.masked wf.toValid
    refine ih (hm.wellFormed site wf) rest fun x hx => ?_
    refine hm.isDiv site (divs x (List.mem_cons_of_mem name hx)) ?_
    rintro rfl
    exact here hx

theorem maskDivs_wellFormed (wf : F.WellFormed) : F.maskDivs.WellFormed :=
  wellFormed_foldl F.divs wf wf.toValid.divs_nodup fun _ => mem_divs.mp

end Walks

end ProteanAmulet.LLVM
