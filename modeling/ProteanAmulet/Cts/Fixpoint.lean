import Mathlib.Data.Finset.Union
import Mathlib.Data.Finset.Lattice.Basic
import ProteanAmulet.Library.Fixpoint
import ProteanAmulet.Model.Cts

/-! The dataflow analysis of the CTS tracer computes the least solution of its equations. The
sweeps of the source are round-robin iteration: the sets of `unprots_post`, which the two
snapshots share, are always the union of the sets of `unprots_pre` seen so far. -/
namespace ProteanAmulet.CTSTracer

lemma mem_allRegNames (r : RegName) : r ∈ allRegNames := by
  rcases r with ⟨w,r⟩ | r | _ | _ | s
  · cases w <;> cases r <;> decide
  · cases r <;> decide
  · decide
  · decide
  · cases s <;> decide

@[simp] lemma mem_elements {s : Finset RegName} {r : RegName} : r ∈ elements s ↔ r ∈ s := by
  simp [elements,mem_allRegNames]

/-- The set that `transfer` expands. -/
def flow (insn : CsInsn) (v : Finset RegName) : Finset RegName :=
  let w := v \ insn.regsWrite.toFinset ∪ (getUnprotOperands insn).toFinset
  if insn.regsWrite.any fun x => decide (x ∈ v) then w ∪ insn.regsRead.toFinset else w

/-- `transfer` as a function of one set. -/
def transferSet (insn : CsInsn) (v : Finset RegName) : Option (Finset RegName) :=
  (expandSubregs (elements (flow insn v))).map List.toFinset

lemma transfer_eq (d : Dataflow) (address : ℕ) (insn : CsInsn) :
    transfer d address insn = (transferSet insn (d.postSet address)).map fun s =>
      { pre := Function.update d.pre address (some s)
        post := Function.update d.post address (some (d.postSet address)) } := by
  simp only [transfer,transferSet,flow,Option.map_map,bind,pure]
  rw [Option.map_eq_bind]
  rfl

/-- All sub-registers of the names that a pattern matches. -/
def spread (s : Finset RegName) : Finset RegName :=
  s.biUnion fun r => ((subregs r).getD []).toFinset

lemma spread_mono {s t : Finset RegName} (h : s ⊆ t) : spread s ⊆ spread t :=
  Finset.biUnion_subset_biUnion_of_subset_left _ h

lemma flow_mono (insn : CsInsn) {v w : Finset RegName} (h : v ⊆ w) :
    flow insn v ⊆ flow insn w := by
  have kept : v \ insn.regsWrite.toFinset ∪ (getUnprotOperands insn).toFinset ⊆
      w \ insn.regsWrite.toFinset ∪ (getUnprotOperands insn).toFinset :=
    Finset.union_subset_union (Finset.sdiff_subset_sdiff h (Finset.Subset.refl _))
      (Finset.Subset.refl _)
  have fires : (insn.regsWrite.any fun x => decide (x ∈ v)) = true →
      (insn.regsWrite.any fun x => decide (x ∈ w)) = true := by
    simp only [List.any_eq_true,decide_eq_true_eq]
    rintro ⟨x,hx,hv⟩
    exact ⟨x,hx,h hv⟩
  unfold flow
  by_cases hv : (insn.regsWrite.any fun x => decide (x ∈ v)) = true
  · rw [if_pos hv,if_pos (fires hv)]
    exact Finset.union_subset_union kept (Finset.Subset.refl _)
  · rw [if_neg hv]
    split_ifs
    · exact kept.trans Finset.subset_union_left
    · exact kept

lemma expandSubregs_isSome {l : List RegName} :
    (expandSubregs l).isSome ↔ ∀ r ∈ l, (subregs r).isSome := by
  unfold expandSubregs
  rw [Option.isSome_map]
  induction l with
  | nil => simp
  | cons r l ih =>
    rw [List.mapM_cons]
    cases hr : subregs r with
    | none => simp [hr]
    | some a =>
      cases hl : l.mapM subregs with
      | none => simpa [hr,hl] using ih
      | some b => simpa [hr,hl] using ih

lemma expandSubregs_toFinset {l out : List RegName} (h : expandSubregs l = some out) :
    out.toFinset = spread l.toFinset := by
  unfold expandSubregs at h
  induction l generalizing out with
  | nil =>
    simp at h
    subst h
    rfl
  | cons r l ih =>
    rw [List.mapM_cons] at h
    cases hr : subregs r with
    | none => simp [hr] at h
    | some a =>
      cases hl : l.mapM subregs with
      | none => simp [hr,hl] at h
      | some b =>
        simp [hr,hl] at h ih
        subst h
        simp [spread,hr,ih]

lemma transferSet_eq {insn : CsInsn} {v s : Finset RegName} (h : transferSet insn v = some s) :
    s = spread (flow insn v) := by
  unfold transferSet at h
  obtain ⟨out,hout,rfl⟩ := Option.map_eq_some_iff.mp h
  rw [expandSubregs_toFinset hout]
  congr 1
  ext r
  simp

lemma transferSet_isSome {insn : CsInsn} {v : Finset RegName} :
    (transferSet insn v).isSome ↔ ∀ r ∈ flow insn v, (subregs r).isSome := by
  simp [transferSet,expandSubregs_isSome]

/-- A decoded program with its successor map: the addresses are increasing and the
successors are decoded instructions. -/
structure FlowGraph where
  insns : Insns
  succs : List (ℕ × List ℕ)
  sorted : (insns.map Prod.fst).Pairwise (· < ·)
  closed : ∀ p ∈ insns, ∀ s ∈ (succs.lookup p.1).getD [], s ∈ insns.map Prod.fst

namespace FlowGraph
variable (g : FlowGraph)

/-- The successors of the instruction at an address. -/
def next (a : ℕ) : List ℕ := (g.succs.lookup a).getD []

/-- The union of the sets of the successors. -/
def join (pre : ℕ → Finset RegName) (a : ℕ) : Finset RegName := (g.next a).toFinset.biUnion pre

/-- The dataflow equations. -/
def Solves (pre post : ℕ → Finset RegName) : Prop :=
  ∀ p ∈ g.insns, post p.1 = g.join pre p.1 ∧ transferSet p.2.cs (post p.1) = some (pre p.1)

/-- Every successor has a higher address. -/
def Forward : Prop := ∀ p ∈ g.insns, ∀ s ∈ g.next p.1, p.1<s

/-- A pattern of `subregs_str` matches every register that an instruction reads or
transmits. -/
def Matched : Prop :=
  ∀ p ∈ g.insns, ∀ r ∈ getUnprotOperands p.2.cs ++ p.2.cs.regsRead, (subregs r).isSome

/-- The equations for `unprots_pre` alone. -/
def equation (a : ℕ) (pre : ℕ → Finset RegName) : Finset RegName :=
  match g.insns.lookup a with
  | some insn => spread (flow insn.cs (g.join pre a))
  | none => pre a

variable {g}

lemma join_mono {x y : ℕ → Finset RegName} (h : ∀ a, x a ⊆ y a) (a : ℕ) :
    g.join x a ⊆ g.join y a :=
  Finset.biUnion_mono fun s _ => h s

lemma equation_mono : Fixpoint.Monotone g.equation := by
  intro a x y h
  unfold equation
  cases g.insns.lookup a with
  | none => exact h a
  | some insn => exact spread_mono (flow_mono _ (join_mono h a))

lemma lookup_insns {p : ℕ × Insn} (hp : p ∈ g.insns) : g.insns.lookup p.1 = some p.2 := by
  have hs := g.sorted
  generalize g.insns=l at hp hs
  induction l with
  | nil => simp at hp
  | cons q l ih =>
    rw [List.map_cons,List.pairwise_cons] at hs
    rcases List.mem_cons.mp hp with rfl | hp
    · exact List.lookup_cons_self
    · have lt : q.1<p.1 := hs.1 _ (List.mem_map_of_mem hp)
      rw [List.lookup_cons,beq_false_of_ne (by omega : p.1 ≠ q.1)]
      exact ih hp hs.2

lemma eq_of_address {p q : ℕ × Insn} (hp : p ∈ g.insns) (hq : q ∈ g.insns) (h : p.1=q.1) :
    p=q := by
  have same := lookup_insns hp
  rw [h,lookup_insns hq] at same
  exact Prod.ext h (Option.some.inj same).symm

lemma equation_eq {p : ℕ × Insn} (hp : p ∈ g.insns) (pre : ℕ → Finset RegName) :
    g.equation p.1 pre = spread (flow p.2.cs (g.join pre p.1)) := by
  simp only [equation,lookup_insns hp]

lemma Solves.fixed {pre post : ℕ → Finset RegName} (h : g.Solves pre post) {p : ℕ × Insn}
    (hp : p ∈ g.insns) : g.equation p.1 pre = pre p.1 := by
  obtain ⟨joined,moved⟩ := h p hp
  rw [equation_eq hp,← joined]
  exact (transferSet_eq moved).symm

end FlowGraph

@[simp] lemma merge_preSet (d : Dataflow) (pred : ℕ) (l : List ℕ) :
    (merge d pred l).preSet = d.preSet := by
  induction l generalizing d with
  | nil => rfl
  | cons s l ih =>
    rw [merge,ih]
    funext a
    by_cases h : a=s
    · simp [Dataflow.preSet,h]
    · simp [Dataflow.preSet,h]

lemma merge_postSet (d : Dataflow) (pred : ℕ) (l : List ℕ) :
    (merge d pred l).postSet =
      Function.update d.postSet pred (d.postSet pred ∪ l.toFinset.biUnion d.preSet) := by
  induction l generalizing d with
  | nil => simp [merge]
  | cons s l ih =>
    rw [merge,ih]
    funext a
    have same : Dataflow.preSet
        { pre := Function.update d.pre s (some (d.preSet s))
          post := Function.update d.post pred (some (d.postSet pred ∪ d.preSet s)) } =
        d.preSet := by
      funext b
      by_cases h : b=s
      · simp [Dataflow.preSet,h]
      · simp [Dataflow.preSet,h]
    rw [same]
    by_cases h : a=pred
    · subst h
      simp [Dataflow.postSet,Finset.biUnion_insert,Finset.union_assoc]
    · simp [Dataflow.postSet,h]

/-- The keys of the dictionaries only grow. -/
def Dataflow.Keys (d d' : Dataflow) : Prop :=
  ∀ a, ((d.pre a).isSome → (d'.pre a).isSome) ∧ ((d.post a).isSome → (d'.post a).isSome)

lemma Dataflow.Keys.trans {d d' d'' : Dataflow} (h : d.Keys d') (h' : d'.Keys d'') :
    d.Keys d'' :=
  fun a => ⟨fun k => (h' a).1 ((h a).1 k),fun k => (h' a).2 ((h a).2 k)⟩

lemma Dataflow.keys_update (d : Dataflow) (a b : ℕ) (s t : Finset RegName) :
    d.Keys { pre := Function.update d.pre a (some s),post := Function.update d.post b (some t) } := by
  intro c
  constructor
  · by_cases h : c=a <;> simp [h]
  · by_cases h : c=b <;> simp [h]

lemma merge_keys (d : Dataflow) (pred : ℕ) (l : List ℕ) : d.Keys (merge d pred l) := by
  induction l generalizing d with
  | nil => exact fun a => ⟨id,id⟩
  | cons s l ih => exact (d.keys_update _ _ _ _).trans (ih _)

namespace FlowGraph
variable {g : FlowGraph}

/-- What every state between two visits satisfies: `unprots_pre` lies below its equations and
`unprots_post` below the union over the successors. -/
structure Below (g : FlowGraph) (d : Dataflow) : Prop where
  ascending : Fixpoint.Ascending g.equation d.preSet
  joined : ∀ a, d.postSet a ⊆ g.join d.preSet a

lemma below_init : g.Below {} where
  ascending a := by
    change (∅ : Finset RegName) ⊆ _
    simp
  joined a := by
    change (∅ : Finset RegName) ⊆ _
    simp

/-- One visit of the loop: the equation of the instruction is applied, and the set of
`unprots_post` becomes the union over the successors although it is only added to. -/
lemma visit_eq {d d' : Dataflow} {p : ℕ × Insn} (hp : p ∈ g.insns) (hd : g.Below d)
    (h : transfer (merge d p.1 (g.next p.1)) p.1 p.2.cs = some d') :
    d'.preSet = Function.update d.preSet p.1 (g.equation p.1 d.preSet) ∧
    d'.postSet = Function.update d.postSet p.1 (g.join d.preSet p.1) ∧
    (transferSet p.2.cs (g.join d.preSet p.1)).isSome ∧
    (d'.pre p.1).isSome ∧ (d'.post p.1).isSome ∧ d.Keys d' := by
  have post : (merge d p.1 (g.next p.1)).postSet =
      Function.update d.postSet p.1 (g.join d.preSet p.1) := by
    rw [merge_postSet]
    congr 1
    exact Finset.union_eq_right.mpr (hd.joined p.1)
  rw [transfer_eq] at h
  obtain ⟨s,hs,rfl⟩ := Option.map_eq_some_iff.mp h
  rw [post,Function.update_self] at hs
  have eq := transferSet_eq hs
  rw [← equation_eq hp] at eq
  subst eq
  refine ⟨?_,?_,by rw [hs]; rfl,by simp,by simp,
    (merge_keys d _ _).trans (Dataflow.keys_update _ _ _ _ _)⟩
  · funext a
    have same := congrFun (merge_preSet d p.1 (g.next p.1)) a
    by_cases h : a=p.1
    · simp [Dataflow.preSet,h]
    · simpa [Dataflow.preSet,h] using same
  · rw [← post]
    funext a
    by_cases h : a=p.1
    · simp [Dataflow.postSet,h]
    · simp [Dataflow.postSet,h]

lemma Below.visit {d d' : Dataflow} {p : ℕ × Insn} (hp : p ∈ g.insns) (hd : g.Below d)
    (h : transfer (merge d p.1 (g.next p.1)) p.1 p.2.cs = some d') : g.Below d' := by
  obtain ⟨pre,post,-⟩ := visit_eq hp hd h
  constructor
  · rw [pre]
    exact hd.ascending.update equation_mono p.1
  · intro a
    have grow : g.join d.preSet a ⊆ g.join d'.preSet a := by
      rw [pre]
      exact join_mono (Fixpoint.le_update hd.ascending p.1) a
    rw [post]
    by_cases ha : a=p.1
    · subst ha
      rw [Function.update_self]
      exact grow
    · rw [Function.update_of_ne ha]
      exact (hd.joined a).trans grow

/-- What a sweep over `l` does: a sweep of round-robin iteration on `unprots_pre`, while
`unprots_post` takes in at least the sets the sweep started from. -/
structure Swept (g : FlowGraph) (l : Insns) (d d' : Dataflow) : Prop where
  below : g.Below d'
  pre : d'.preSet = Fixpoint.sweep g.equation (l.map Prod.fst) d.preSet
  grows : ∀ a, d.postSet a ⊆ d'.postSet a
  covers : ∀ p ∈ l, g.join d.preSet p.1 ⊆ d'.postSet p.1
  defined : ∀ p ∈ l, (transferSet p.2.cs (g.join d.preSet p.1)).isSome
  keys : d.Keys d'
  present : ∀ p ∈ l, (d'.pre p.1).isSome ∧ (d'.post p.1).isSome

lemma transferSet_isSome_anti {insn : CsInsn} {v w : Finset RegName} (h : v ⊆ w)
    (hw : (transferSet insn w).isSome) : (transferSet insn v).isSome := by
  rw [transferSet_isSome] at *
  intro r hr
  exact hw r (flow_mono insn h hr)

lemma sweep_spec {l : Insns} {d d' : Dataflow} (hl : ∀ p ∈ l, p ∈ g.insns) (hd : g.Below d)
    (h : sweep g.succs l d = some d') : g.Swept l d d' := by
  induction l generalizing d with
  | nil =>
    cases h
    exact ⟨hd,rfl,fun _ => Finset.Subset.refl _,by simp,by simp,fun _ => ⟨id,id⟩,by simp⟩
  | cons p l ih =>
    rw [sweep] at h
    obtain ⟨e,he,h⟩ := Option.bind_eq_some_iff.mp h
    have hp := hl p List.mem_cons_self
    obtain ⟨pre,post,defined,somePre,somePost,keys⟩ := visit_eq hp hd he
    have up : ∀ a, d.preSet a ⊆ e.preSet a := by
      rw [pre]
      exact Fixpoint.le_update hd.ascending p.1
    have grows : ∀ a, d.postSet a ⊆ e.postSet a := by
      intro a
      rw [post]
      by_cases ha : a=p.1
      · subst ha
        rw [Function.update_self]
        exact hd.joined p.1
      · rw [Function.update_of_ne ha]
    have rest := ih (fun q hq => hl q (List.mem_cons_of_mem p hq)) (hd.visit hp he) h
    refine ⟨rest.below,?_,fun a => (grows a).trans (rest.grows a),?_,?_,keys.trans rest.keys,?_⟩
    · rw [rest.pre,pre]
      rfl
    · intro q hq
      rcases List.mem_cons.mp hq with rfl | hq
      · refine Finset.Subset.trans ?_ (rest.grows q.1)
        rw [post,Function.update_self]
      · exact (join_mono up q.1).trans (rest.covers q hq)
    · intro q hq
      rcases List.mem_cons.mp hq with rfl | hq
      · exact defined
      · exact transferSet_isSome_anti (join_mono up q.1) (rest.defined q hq)
    · intro q hq
      rcases List.mem_cons.mp hq with rfl | hq
      · exact ⟨(rest.keys q.1).1 somePre,(rest.keys q.1).2 somePost⟩
      · exact rest.present q hq

/-- The sweep of the source, from the highest address down. -/
lemma sweep_reverse {d d' : Dataflow} (hd : g.Below d)
    (h : sweep g.succs g.insns.reverse d = some d') : g.Swept g.insns.reverse d d' :=
  sweep_spec (fun _ hp => List.mem_reverse.mp hp) hd h

/-- A sweep that the comparison of the snapshots calls unchanged has reached a solution. -/
lemma solves_of_unchanged {old new : Dataflow} (hold : g.Below old)
    (h : sweep g.succs g.insns.reverse old = some new) (hc : changed g.insns old new = false) :
    g.Solves new.preSet new.postSet := by
  have swept := sweep_reverse hold h
  have same : new.preSet = old.preSet := by
    funext a
    by_cases ha : a ∈ g.insns.map Prod.fst
    · obtain ⟨p,hp,rfl⟩ := List.mem_map.mp ha
      have keep := List.any_eq_false.mp hc p hp
      simp only [decide_eq_true_eq,not_or,not_not] at keep
      simp only [Dataflow.preSet,keep.1]
    · rw [swept.pre,Fixpoint.sweep_of_notMem]
      simpa using ha
  have fixed := Fixpoint.solves_of_sweep_eq equation_mono hold.ascending
    fun a => congrFun (swept.pre.symm.trans same) a
  intro p hp
  have hp' : p ∈ g.insns.reverse := List.mem_reverse.mpr hp
  have joined : new.postSet p.1 = g.join new.preSet p.1 := by
    apply Finset.Subset.antisymm (swept.below.joined p.1)
    rw [same]
    exact swept.covers p hp'
  refine ⟨joined,?_⟩
  obtain ⟨s,hs⟩ := Option.isSome_iff_exists.mp (swept.defined p hp')
  rw [joined,same,hs,transferSet_eq hs,← equation_eq hp]
  exact congrArg some (fixed p.1 (List.mem_map_of_mem hp'))

lemma dataflowAnalysis_solves {fuel : ℕ} {d d' : Dataflow} (hd : g.Below d)
    (h : dataflowAnalysis g.insns g.succs fuel d = some d') :
    g.Solves d'.preSet d'.postSet := by
  induction fuel generalizing d with
  | zero => cases h
  | succ fuel ih =>
    rw [dataflowAnalysis] at h
    obtain ⟨e,he,h⟩ := Option.bind_eq_some_iff.mp h
    cases hc : changed g.insns d e with
    | true =>
      rw [hc,if_pos rfl] at h
      exact ih (sweep_reverse hd he).below h
    | false =>
      rw [hc] at h
      cases h
      exact solves_of_unchanged hd he hc

lemma next_mem {p : ℕ × Insn} (hp : p ∈ g.insns) {s : ℕ} (hs : s ∈ g.next p.1) :
    s ∈ g.insns.map Prod.fst :=
  g.closed p hp s hs

lemma join_congr {x y : ℕ → Finset RegName} {a : ℕ} (h : ∀ s ∈ g.next a, x s = y s) :
    g.join x a = g.join y a := by
  unfold join
  apply Finset.biUnion_congr rfl
  intro s hs
  exact h s (List.mem_toFinset.mp hs)

/-- A sweep stays below every solution. Outside of the program the solution is arbitrary, so
it is compared after its values there are replaced. -/
lemma Swept.le {d d' : Dataflow} (h : g.Swept g.insns.reverse d d')
    {pre post : ℕ → Finset RegName} (hs : g.Solves pre post)
    (hle : ∀ a ∈ g.insns.map Prod.fst, d.preSet a ⊆ pre a) :
    ∀ a ∈ g.insns.map Prod.fst, d'.preSet a ⊆ pre a := by
  let y : ℕ → Finset RegName := fun a => if a ∈ g.insns.map Prod.fst then pre a else d.preSet a
  have inside : ∀ a ∈ g.insns.map Prod.fst, y a = pre a := fun a ha => if_pos ha
  have above : ∀ a, d.preSet a ⊆ y a := by
    intro a
    by_cases ha : a ∈ g.insns.map Prod.fst
    · rw [inside a ha]
      exact hle a ha
    · exact (if_neg ha : y a = _).symm.subset
  have solved : ∀ a ∈ g.insns.reverse.map Prod.fst, g.equation a y ⊆ y a := by
    intro a ha
    obtain ⟨p,hp,rfl⟩ := List.mem_map.mp ha
    have hp := List.mem_reverse.mp hp
    have joined : g.join y p.1 = g.join pre p.1 := join_congr fun s hn => inside s (next_mem hp hn)
    rw [inside _ (List.mem_map_of_mem hp),equation_eq hp,joined,← equation_eq hp,hs.fixed hp]
  intro a ha
  rw [h.pre,← inside a ha]
  exact Fixpoint.sweep_le equation_mono above solved a

lemma dataflowAnalysis_le {fuel : ℕ} {d d' : Dataflow} (hd : g.Below d)
    {pre post : ℕ → Finset RegName} (hs : g.Solves pre post)
    (hle : ∀ a ∈ g.insns.map Prod.fst, d.preSet a ⊆ pre a)
    (h : dataflowAnalysis g.insns g.succs fuel d = some d') :
    ∀ a ∈ g.insns.map Prod.fst, d'.preSet a ⊆ pre a := by
  induction fuel generalizing d with
  | zero => cases h
  | succ fuel ih =>
    rw [dataflowAnalysis] at h
    obtain ⟨e,he,h⟩ := Option.bind_eq_some_iff.mp h
    have swept := sweep_reverse hd he
    split_ifs at h
    · exact ih swept.below (swept.le hs hle) h
    · cases h
      exact swept.le hs hle

/-- The least solution of the dataflow equations. -/
structure Least (g : FlowGraph) (pre post : ℕ → Finset RegName) : Prop where
  solves : g.Solves pre post
  least : ∀ pre' post', g.Solves pre' post' →
    ∀ p ∈ g.insns, pre p.1 ⊆ pre' p.1 ∧ post p.1 ⊆ post' p.1

lemma least_of_returns {fuel : ℕ} {d : Dataflow}
    (h : dataflowAnalysis g.insns g.succs fuel {} = some d) : g.Least d.preSet d.postSet := by
  have solves := dataflowAnalysis_solves below_init h
  refine ⟨solves,?_⟩
  intro pre post hs p hp
  have le := dataflowAnalysis_le below_init hs
    (fun a _ => (Finset.empty_subset _ : (∅ : Finset RegName) ⊆ pre a)) h
  refine ⟨le p.1 (List.mem_map_of_mem hp),?_⟩
  rw [(solves p hp).1,(hs p hp).1]
  exact Finset.biUnion_mono fun s hn => le s (next_mem hp (List.mem_toFinset.mp hn))

section Forward

lemma equation_update {p : ℕ × Insn} (hp : p ∈ g.insns) {j : ℕ} (hj : j ∉ g.next p.1)
    (x : ℕ → Finset RegName) (v : Finset RegName) :
    g.equation p.1 (Function.update x j v) = g.equation p.1 x := by
  rw [equation_eq hp,equation_eq hp]
  congr 2
  apply join_congr
  intro s hs
  apply Function.update_of_ne
  rintro rfl
  exact hj hs

lemma sorted_reverse : (g.insns.reverse.map Prod.fst).Pairwise fun a b => b<a := by
  rw [List.map_reverse,List.pairwise_reverse]
  exact g.sorted

/-- Without backward edges one sweep solves the equations. -/
lemma Swept.fixed {d d' : Dataflow} (h : g.Swept g.insns.reverse d d') (hf : g.Forward) :
    ∀ a ∈ g.insns.reverse.map Prod.fst, g.equation a d'.preSet = d'.preSet a := by
  rw [h.pre]
  apply Fixpoint.sweep_solves
  · refine List.Pairwise.imp_of_mem ?_ (sorted_reverse (g := g))
    intro a b ha _ hab
    obtain ⟨p,hp,rfl⟩ := List.mem_map.mp ha
    have hp := List.mem_reverse.mp hp
    refine ⟨by omega,fun x v => equation_update hp ?_ x v⟩
    intro hb
    have := hf p hp b hb
    omega
  · intro a ha x v
    obtain ⟨p,hp,rfl⟩ := List.mem_map.mp ha
    have hp := List.mem_reverse.mp hp
    apply equation_update hp
    intro hb
    exact lt_irrefl _ (hf p hp _ hb)

/-- The second sweep then reports no change. -/
lemma second_unchanged {d e f : Dataflow} (hf : g.Forward) (hd : g.Below d)
    (he : sweep g.succs g.insns.reverse d = some e)
    (hs : sweep g.succs g.insns.reverse e = some f) : changed g.insns e f = false := by
  have first := sweep_reverse hd he
  have second := sweep_reverse first.below hs
  have same : f.preSet = e.preSet := by
    rw [second.pre]
    exact Fixpoint.sweep_eq_self (first.fixed hf)
  apply List.any_eq_false.mpr
  intro p hp
  have hp := List.mem_reverse.mpr hp
  obtain ⟨a,ha⟩ := Option.isSome_iff_exists.mp (first.present p hp).1
  obtain ⟨b,hb⟩ := Option.isSome_iff_exists.mp (second.present p hp).1
  have := congrFun same p.1
  simp only [Dataflow.preSet,ha,hb,Option.getD_some] at this
  simp [ha,hb,this,(first.present p hp).2,(second.present p hp).2]

lemma dataflowAnalysis_forward (hf : g.Forward) (fuel : ℕ) :
    dataflowAnalysis g.insns g.succs (fuel+2) {} = dataflowAnalysis g.insns g.succs 2 {} := by
  simp only [dataflowAnalysis]
  cases he : sweep g.succs g.insns.reverse {} with
  | none => rfl
  | some e =>
    cases hs : sweep g.succs g.insns.reverse e with
    | none => simp [hs]
    | some f => simp [hs,second_unchanged hf below_init he hs]

end Forward

section Matched

lemma subregs_matched {r s : RegName} (h : s ∈ (subregs r).getD []) : (subregs s).isSome := by
  cases s with
  | gpr w r => cases w <;> rfl
  | high r => rfl
  | flags => rfl
  | seg s => rfl
  | rip =>
    exfalso
    rcases r with ⟨w,r⟩ | r | _ | _ | s
    · cases w <;> cases r <;> simp [subregs,subregs.low] at h
    all_goals simp [subregs] at h

/-- Only matched names are in the sets. -/
def AllMatched (d : Dataflow) : Prop := ∀ a, ∀ r ∈ d.preSet a, (subregs r).isSome

lemma flow_subset (insn : CsInsn) (v : Finset RegName) :
    flow insn v ⊆ v ∪ (getUnprotOperands insn ++ insn.regsRead).toFinset := by
  intro r hr
  unfold flow at hr
  split_ifs at hr <;> simp at hr ⊢ <;> tauto

lemma visit_defined (hm : g.Matched) {d : Dataflow} {p : ℕ × Insn} (hp : p ∈ g.insns)
    (hd : g.Below d) (ha : AllMatched d) :
    ∃ d', transfer (merge d p.1 (g.next p.1)) p.1 p.2.cs = some d' ∧ AllMatched d' := by
  have post : (merge d p.1 (g.next p.1)).postSet p.1 = g.join d.preSet p.1 := by
    rw [merge_postSet,Function.update_self]
    exact Finset.union_eq_right.mpr (hd.joined p.1)
  have defined : (transferSet p.2.cs (g.join d.preSet p.1)).isSome := by
    rw [transferSet_isSome]
    intro r hr
    rcases Finset.mem_union.mp (flow_subset p.2.cs _ hr) with hr | hr
    · obtain ⟨s,-,hs⟩ := Finset.mem_biUnion.mp hr
      exact ha s r hs
    · exact hm p hp r (List.mem_toFinset.mp hr)
  obtain ⟨s,hs⟩ := Option.isSome_iff_exists.mp defined
  have run : ∃ d', transfer (merge d p.1 (g.next p.1)) p.1 p.2.cs = some d' := by
    rw [transfer_eq,post,hs]
    exact ⟨_,rfl⟩
  obtain ⟨d',h⟩ := run
  refine ⟨d',h,?_⟩
  obtain ⟨pre,-⟩ := visit_eq hp hd h
  intro a r hr
  rw [pre] at hr
  by_cases hap : a=p.1
  · subst hap
    rw [Function.update_self,equation_eq hp] at hr
    obtain ⟨s,-,hs⟩ := Finset.mem_biUnion.mp hr
    exact subregs_matched (List.mem_toFinset.mp hs)
  · rw [Function.update_of_ne hap] at hr
    exact ha a r hr

lemma sweep_defined (hm : g.Matched) {l : Insns} (hl : ∀ p ∈ l, p ∈ g.insns) {d : Dataflow}
    (hd : g.Below d) (ha : AllMatched d) :
    ∃ d', sweep g.succs l d = some d' ∧ AllMatched d' := by
  induction l generalizing d with
  | nil => exact ⟨d,rfl,ha⟩
  | cons p l ih =>
    have hp := hl p List.mem_cons_self
    obtain ⟨e,he,hae⟩ := visit_defined hm hp hd ha
    obtain ⟨d',hd',ha'⟩ := ih (fun q hq => hl q (List.mem_cons_of_mem p hq)) (hd.visit hp he) hae
    refine ⟨d',?_,ha'⟩
    rw [sweep]
    exact Option.bind_eq_some_iff.mpr ⟨e,he,hd'⟩

/-- A forward program whose register names are all matched is analysed in two sweeps. -/
lemma dataflowAnalysis_defined (hf : g.Forward) (hm : g.Matched) :
    ∃ d, dataflowAnalysis g.insns g.succs 2 {} = some d := by
  have hr : ∀ p ∈ g.insns.reverse, p ∈ g.insns := fun p hp => List.mem_reverse.mp hp
  have init : AllMatched {} := by
    intro a r hr
    exact absurd hr (Finset.notMem_empty r)
  obtain ⟨e,he,hae⟩ := sweep_defined hm hr below_init init
  obtain ⟨f,hf',-⟩ := sweep_defined hm hr (sweep_reverse below_init he).below hae
  have keep := second_unchanged hf below_init he hf'
  simp only [dataflowAnalysis,he,hf',keep,bind,Option.bind_some,pure]
  by_cases hc : changed g.insns {} e = true
  · exact ⟨f,by simp [hc]⟩
  · exact ⟨e,by simp [hc]⟩

end Matched

/-- If the analysis returns, it has computed the least solution of the dataflow equations. If
no edge goes backward, it reports a change after at most one sweep, so that the bound on the
rounds plays no role, and it does return when a pattern of `subregs_str` matches every
register that is read or transmitted. -/
theorem dataflowAnalysis_least (g : FlowGraph) :
    (∀ d, dataflowAnalysis g.insns g.succs 1001 {} = some d → g.Least d.preSet d.postSet) ∧
    (g.Forward → dataflowAnalysis g.insns g.succs 1001 {} = dataflowAnalysis g.insns g.succs 2 {} ∧
      (g.Matched → ∃ d, dataflowAnalysis g.insns g.succs 2 {} = some d)) := by
  refine ⟨fun d h => least_of_returns h,fun hf => ⟨?_,dataflowAnalysis_defined hf⟩⟩
  exact dataflowAnalysis_forward hf 999

/-- `mov rax,rbx` and a load through `rax`. -/
def moveLoad : FlowGraph where
  insns :=
    [(0,⟨[0x48,0x89,0xd8],fun _ => [],fun _ _ => 0,fun c _ => c,fun _ _ => false,
      { regsRead := [.gpr .w64 .B],regsWrite := [.gpr .w64 .A] },by simp⟩),
     (3,⟨[0x48,0x8b,0x08],fun _ => [],fun _ _ => 0,fun c _ => c,fun _ _ => false,
      { operands := [⟨true,true,some (.gpr .w64 .A),none⟩],regsRead := [.gpr .w64 .A]
        regsWrite := [.gpr .w64 .C] },by simp⟩)]
  succs := [(0,[3]),(3,[])]
  sorted := by decide
  closed := by decide

theorem dataflowAnalysis_least_moveLoad :
    ∃ d, dataflowAnalysis moveLoad.insns moveLoad.succs 1001 {} = some d ∧
      moveLoad.Least d.preSet d.postSet ∧ .gpr .w64 .B ∈ d.preSet 0 ∧ .high .B ∈ d.preSet 0 := by
  have hf : moveLoad.Forward := by unfold Forward; decide
  have hm : moveLoad.Matched := by unfold Matched; decide
  obtain ⟨least,forward⟩ := dataflowAnalysis_least moveLoad
  obtain ⟨eq,returns⟩ := forward hf
  obtain ⟨d,hd⟩ := returns hm
  have found : (dataflowAnalysis moveLoad.insns moveLoad.succs 2 {}).all (fun d =>
      decide (RegName.gpr .w64 .B ∈ d.preSet 0 ∧ RegName.high .B ∈ d.preSet 0)) = true := by
    decide +kernel
  rw [hd,Option.all_some,decide_eq_true_eq] at found
  exact ⟨d,eq.trans hd,least d (eq.trans hd),found⟩

/-- A load relative to the instruction pointer. -/
def ripLoad : FlowGraph where
  insns :=
    [(0,⟨[0x48,0x8b,0x05,0,0,0,0],fun _ => [],fun _ _ => 0,fun c _ => c,fun _ _ => false,
      { operands := [⟨true,true,some .rip,none⟩],regsWrite := [.gpr .w64 .A] },by simp⟩)]
  succs := [(0,[])]
  sorted := by decide
  closed := by decide

/-- The patterns of `subregs_str` leave out `rip`, so the analysis can fail on straight-line
code. -/
theorem dataflowAnalysis_not_total :
    ripLoad.Forward ∧ ∀ fuel, dataflowAnalysis ripLoad.insns ripLoad.succs fuel {} = none := by
  refine ⟨by unfold Forward; decide,?_⟩
  intro fuel
  cases fuel with
  | zero => rfl
  | succ fuel =>
    have fails : sweep ripLoad.succs ripLoad.insns.reverse {} = none := by decide +kernel
    rw [dataflowAnalysis,fails]
    rfl

end FlowGraph
end ProteanAmulet.CTSTracer
