import ProteanAmulet.Generator.TestCases
import Mathlib.Logic.Relation

/-! The graph of blocks that `generate_function` builds, and how it is laid out in the file: control
leaves a block through its terminators, first to last, or falls through to the block that is printed
next. -/
namespace ProteanAmulet.Generator
open Drawing

section Layout

/-- The labels that an instruction names. -/
def Instruction.labels (inst : Instruction) : List String :=
  inst.operands.filterMap fun
    | .label value => some value
    | _ => none

/-- Where control can go after the terminators, with the label that is printed next. Behind a
terminator that is no conditional branch nothing is executed. -/
def branchTargets (next : Option String) : List Instruction → List String
  | [] => next.toList
  | inst :: rest =>
    if inst.category = "BASE-COND_BR" then inst.labels ++ branchTargets next rest else inst.labels

variable (func : Function)

/-- The labels in the order in which they are printed. -/
def Function.labels : List String := func.allBb.map (·.name)

def Function.Edge (a b : String) : Prop := ∃ bb ∈ func.allBb, bb.name=a ∧ b ∈ bb.successors

/-- What a function is to be: its graph leads forward, from the entry to all blocks and from all
blocks to the exit, and the file has the same edges. -/
structure Function.WellLaidOut (maxSuccessors : ℕ) : Prop where
  names : func.labels.Nodup
  forward : ∀ (i : ℕ) (bb : BasicBlock), func.allBb[i]? = some bb → ∀ s ∈ bb.successors,
    ∃ j, i<j ∧ func.labels[j]? = some s
  successors : ∀ bb ∈ func.allBb, bb.successors.Nodup ∧ bb.successors.length ≤ maxSuccessors
  reachable : ∀ bb ∈ func.allBb, Relation.ReflTransGen func.Edge func.entry.name bb.name
  exits : ∀ bb ∈ func.allBb, Relation.ReflTransGen func.Edge bb.name func.exit.name
  acyclic : ∀ name, ¬Relation.TransGen func.Edge name name
  printed : ∀ (i : ℕ) (bb : BasicBlock), func.allBb[i]? = some bb → ∀ target,
    target ∈ branchTargets func.labels[i+1]? bb.terminators ↔ target ∈ bb.successors

end Layout

section Names

lemma bbName_toList (i : ℕ) : (bbName i).toList = ".bb_main.".toList ++ Nat.toDigits 10 i := by
  simp only [bbName,String.toList_append,Nat.toString_eq_repr,Nat.toList_repr]
  rfl

lemma bbName_injective : Function.Injective bbName := by
  intro i j h
  have digits := congrArg String.toList h
  rw [bbName_toList,bbName_toList,List.append_cancel_left_eq] at digits
  rw [← Nat.ofDigitChars_ten_toDigits (n := i),digits,Nat.ofDigitChars_ten_toDigits]

lemma bbName_ne {i : ℕ} : bbName i ≠ exitName ∧ bbName i ≠ entryName := by
  have digit (c : Char) (hc : c ∈ Nat.toDigits 10 i) : c.isDigit :=
    Nat.isDigit_of_mem_toDigits (by decide) (by decide) hc
  have tail {s : String} {l : List Char} (hs : s.toList = ".bb_main.".toList ++ 'e' :: l)
      (h : bbName i = s) : False := by
    rw [← h,bbName_toList,List.append_cancel_left_eq] at hs
    have := digit 'e' (hs ▸ List.mem_cons_self)
    exact absurd this (by decide)
  exact ⟨fun h => tail (l := "xit".toList) rfl h,fun h => tail (l := "ntry".toList) rfl h⟩

lemma entryName_ne_exitName : entryName ≠ exitName := by decide

end Names

section Graph
variable {conf : GeneratorConf} {instructions : List InstructionSpec}

/-- `max_successors`. -/
def maxSuccessors (instructions : List InstructionSpec) : ℕ :=
  if InstructionSet.hasConditionalBranch instructions then 2 else 1

/-- The label that is printed at a position, in a function of `n` nodes. -/
def labelAt (n : ℕ) : ℕ → String
  | 0 => entryName
  | i+1 => if i<n then bbName i else exitName

/-- The successors of the block at a position: always the next block, and in front of the last node
also one behind it. -/
def Successors (instructions : List InstructionSpec) (n k : ℕ) (l : List String) : Prop :=
  l = [labelAt n (k+1)] ∨ 0<k ∧ k<n ∧ maxSuccessors instructions = 2 ∧
    ∃ j, k+1<j ∧ j ≤ n+1 ∧ l = [labelAt n (k+1),labelAt n j]

lemma labelAt_succ {n i : ℕ} (h : i<n) : labelAt n (i+1) = bbName i := if_pos h
lemma labelAt_last (n : ℕ) : labelAt n (n+1) = exitName := if_neg (lt_irrefl n)

lemma labelAt_injective {n i j : ℕ} (hi : i ≤ n+1) (hj : j ≤ n+1) (h : labelAt n i = labelAt n j) :
    i=j := by
  have entry (k : ℕ) : entryName ≠ labelAt n (k+1) := by
    rw [labelAt]
    split_ifs
    · exact bbName_ne.2.symm
    · exact entryName_ne_exitName
  cases i with
  | zero =>
    cases j with
    | zero => rfl
    | succ j => exact absurd h (entry j)
  | succ i =>
    cases j with
    | zero => exact absurd h.symm (entry i)
    | succ j =>
      simp only [labelAt] at h
      split_ifs at h with h₁ h₂ h₂
      · rw [bbName_injective h]
      · exact absurd h bbName_ne.1
      · exact absurd h.symm bbName_ne.1
      · omega

/-- The options are the nodes behind the next one, and the exit. -/
lemma mem_options {n i : ℕ} {target : String}
    (h : target ∈ (List.range' (i+2) (n-(i+2))).map bbName ++ [exitName]) (hi : i+1<n) :
    ∃ j, i+2<j ∧ j ≤ n+1 ∧ target = labelAt n j := by
  rcases List.mem_append.mp h with node | exit
  · obtain ⟨m,hm,rfl⟩ := List.mem_map.mp node
    obtain ⟨low,high⟩ := List.mem_range'_1.mp hm
    exact ⟨m+1,by omega,by omega,(labelAt_succ (by omega)).symm⟩
  · obtain rfl := List.mem_singleton.mp exit
    exact ⟨n+1,by omega,le_rfl,(labelAt_last n).symm⟩

/-- Drawing the successors never fails. -/
lemma successors_shape {n i : ℕ} (hi : i<n) {E : GeneratorError → Prop} :
    Outcome (successors instructions n i) (Successors instructions n (i+1)) E := by
  unfold successors
  by_cases last : i+1=n
  · rw [if_pos last]
    refine .pure (.inl ?_)
    rw [last,labelAt_last]
  rw [if_neg last]
  have next : bbName (i+1) = labelAt n (i+1+1) := (labelAt_succ (by omega)).symm
  have bound : (if InstructionSet.hasConditionalBranch instructions then 2 else 1 : ℤ) =
      maxSuccessors instructions := by
    unfold maxSuccessors
    split_ifs <;> rfl
  have atMost : maxSuccessors instructions = 1 ∨ maxSuccessors instructions = 2 := by
    unfold maxSuccessors
    split_ifs <;> simp
  dsimp only
  rw [bound]
  refine (Outcome.randint_of_le (by omega)).bind fun drawn hd => ?_
  rw [if_neg (by omega)]
  -- one or two successors are drawn
  obtain one | two : drawn.toNat = 1 ∨ drawn.toNat = 2 := by omega
  · rw [one]
    exact .pure (.inl (by rw [next]))
  · rw [two]
    refine Outcome.bind (P := fun l => ∃ j, i+1+1<j ∧ j ≤ n+1 ∧ l = [labelAt n j]) ?_ ?_
    · refine (Outcome.choice_of_ne_nil (by simp)).bind fun target ht => .pure ?_
      obtain ⟨j,hj,hj',rfl⟩ := mem_options ht (by omega)
      exact ⟨j,hj,hj',rfl⟩
    · rintro l ⟨j,hj,hj',rfl⟩
      exact .pure (.inr ⟨by omega,by omega,by omega,j,hj,hj',by rw [next]⟩)

/-- The blocks of a function before its terminators are added. -/
structure Graph (instructions : List InstructionSpec) (n : ℕ) (func : Function) : Prop where
  positive : 0<n
  length : func.allBb.length = n+2
  blocks : ∀ (k : ℕ) (bb : BasicBlock), func.allBb[k]? = some bb → bb.name = labelAt n k ∧
    (k ≤ n → Successors instructions n k bb.successors) ∧ (k=n+1 → bb.successors = [])

/-- The blocks at all positions. -/
lemma allBb_getElem? (func : Function) {n : ℕ} (hn : func.nodes.length = n) (k : ℕ) :
    func.allBb[k]? = match k with
      | 0 => some func.entry
      | i+1 => if i<n then func.nodes[i]? else if i=n then some func.exit else none := by
  subst hn
  cases k with
  | zero => rfl
  | succ i =>
    rw [Function.allBb,List.cons_append,List.getElem?_cons_succ]
    dsimp only
    split_ifs with inside last
    · exact List.getElem?_append_left inside
    · subst last
      simp
    · rw [List.getElem?_append_right (by omega)]
      simp
      omega

lemma generateFunction_graph {E : GeneratorError → Prop} (h : 1 ≤ conf.minBbPerFunction)
    (h' : conf.minBbPerFunction ≤ conf.maxBbPerFunction) :
    Outcome (generateFunction conf instructions) (fun func => ∃ n, conf.minBbPerFunction ≤ n ∧
      n ≤ conf.maxBbPerFunction ∧ Graph instructions n func) E := by
  unfold generateFunction
  refine (Outcome.randint_of_le (by omega)).bind fun drawn hd => ?_
  dsimp only
  rw [if_neg (by omega)]
  generalize hn : drawn.toNat = n
  refine Outcome.bind (P := List.Forall₂ (fun i bb => bb.name = bbName i ∧
    Successors instructions n (i+1) bb.successors) (List.range n)) (.mapM fun i hi => ?_) ?_
  · exact (successors_shape (List.mem_range.mp hi)).bind fun l hl => .pure ⟨rfl,hl⟩
  intro nodes hnodes
  have length : nodes.length = n := by simpa using hnodes.length_eq.symm
  refine .pure ⟨n,by omega,by omega,by omega,by simp [Function.allBb,length],fun k bb hk => ?_⟩
  rw [allBb_getElem? _ length] at hk
  cases k with
  | zero =>
    cases hk
    exact ⟨rfl,fun _ => .inl (by rw [labelAt_succ (by omega)]),by omega⟩
  | succ i =>
    dsimp only at hk
    split_ifs at hk with inside last
    · obtain ⟨small,rfl⟩ := List.getElem?_eq_some_iff.mp hk
      obtain ⟨name,succs⟩ := List.Forall₂.get hnodes (i := i) (by simpa using inside) small
      simp only [List.get_eq_getElem,List.getElem_range] at name succs
      exact ⟨name.trans (labelAt_succ inside).symm,fun _ => succs,by omega⟩
    · cases hk
      subst last
      exact ⟨(labelAt_last i).symm,by omega,fun _ => rfl⟩

/-- The terminators that belong to the successors of a block. -/
def Terminated (instructions : List InstructionSpec) (bb : BasicBlock) : Prop :=
  match bb.successors with
  | [] => bb.terminators = []
  | [successor] =>
    bb.terminators = if successor = exitName then [] else [unconditionalJump successor]
  | [first,second] => ∃ spec ∈ instructions, spec.controlFlow ∧
    bb.terminators = [conditionalJump spec first,unconditionalJump second]
  | _ => False

/-- With a conditional branch in the instruction set, terminators can always be added. -/
lemma addTerminators_terminated {E : GeneratorError → Prop} {bb : BasicBlock}
    (h : bb.successors.length ≤ maxSuccessors instructions) :
    Outcome (addTerminators instructions bb) (fun bb' => bb'.name = bb.name ∧
      bb'.successors = bb.successors ∧ Terminated instructions bb') E := by
  unfold addTerminators
  refine Outcome.bind (P := fun ts => Terminated instructions { bb with terminators := ts }) ?_
    fun ts hts => .pure ⟨rfl,rfl,hts⟩
  unfold terminators Terminated
  rcases hs : bb.successors with _ | ⟨a,_ | ⟨b,_ | ⟨c,l⟩⟩⟩
  · exact .pure rfl
  · exact .pure rfl
  · have conditional : InstructionSet.hasConditionalBranch instructions := by
      by_contra none
      rw [hs,maxSuccessors,if_neg none] at h
      simp at h
    obtain ⟨spec,hspec,hb⟩ := List.any_eq_true.mp conditional
    have some : instructions.filter (·.controlFlow) ≠ [] :=
      List.ne_nil_of_mem (List.mem_filter.mpr ⟨hspec,(Bool.and_eq_true_iff.mp hb).1⟩)
    refine (Outcome.choice_of_ne_nil some).bind fun spec hspec => .pure ?_
    obtain ⟨mem,cf⟩ := List.mem_filter.mp hspec
    exact ⟨spec,mem,cf,rfl⟩
  · rw [hs,maxSuccessors] at h
    split_ifs at h <;> simp at h

lemma Successors.length_le {n k : ℕ} {l : List String} (h : Successors instructions n k l) :
    l.length ≤ maxSuccessors instructions := by
  have positive : 1 ≤ maxSuccessors instructions := by
    unfold maxSuccessors
    split_ifs <;> decide
  rcases h with rfl | ⟨-,-,two,j,-,-,rfl⟩
  · exact positive
  · rw [two]
    rfl

lemma Graph.length_le {n : ℕ} {func : Function} (h : Graph instructions n func) {bb : BasicBlock}
    (hb : bb ∈ func.allBb) : bb.successors.length ≤ maxSuccessors instructions := by
  obtain ⟨k,hk⟩ := List.mem_iff_getElem?.mp hb
  have small : k<n+2 := h.length ▸ (List.getElem?_eq_some_iff.mp hk).1
  obtain ⟨-,inner,last⟩ := h.blocks k bb hk
  by_cases hkn : k ≤ n
  · exact (inner hkn).length_le
  · rw [last (by omega)]
    exact Nat.zero_le _

lemma addTerminatorsInFunction_graph {E : GeneratorError → Prop} {n : ℕ} {func : Function}
    (h : Graph instructions n func) : Outcome (addTerminatorsInFunction instructions func)
      (fun func' => Graph instructions n func' ∧ ∀ bb ∈ func'.allBb, Terminated instructions bb)
      E := by
  have all : Outcome (addTerminatorsInFunction instructions func) (fun func' =>
      List.Forall₂ (fun bb bb' => bb'.name = bb.name ∧ bb'.successors = bb.successors ∧
        Terminated instructions bb') func.allBb func'.allBb) E := by
    have one (bb : BasicBlock) (hb : bb ∈ func.allBb) :=
      addTerminators_terminated (E := E) (h.length_le hb)
    refine (one func.entry (by simp [Function.allBb])).bind fun entry hentry => ?_
    refine (Outcome.mapM fun bb hb => one bb (by simp [Function.allBb,hb])).bind
      fun nodes hnodes => ?_
    refine (one func.exit (by simp [Function.allBb])).bind fun exit hexit => .pure ?_
    exact .cons hentry (List.rel_append hnodes (.cons hexit .nil))
  refine all.weaken fun func' blocks => ?_
  have length := blocks.length_eq
  refine ⟨⟨h.positive,by rw [← length,h.length],fun k bb hk => ?_⟩,fun bb hb => ?_⟩
  · obtain ⟨small,rfl⟩ := List.getElem?_eq_some_iff.mp hk
    obtain ⟨name,succs,-⟩ := blocks.get (i := k) (by omega) small
    have before := h.blocks k (func.allBb[k]) (List.getElem?_eq_getElem _)
    rw [List.get_eq_getElem,List.get_eq_getElem] at name succs
    rwa [name,succs]
  · obtain ⟨k,hk⟩ := List.mem_iff_getElem?.mp hb
    obtain ⟨small,rfl⟩ := List.getElem?_eq_some_iff.mp hk
    exact (blocks.get (i := k) (by omega) small).2.2

variable {n : ℕ} {func : Function}

lemma Graph.labels_getElem? (h : Graph instructions n func) (k : ℕ) :
    func.labels[k]? = if k<n+2 then some (labelAt n k) else none := by
  rw [Function.labels,List.getElem?_map]
  split_ifs with small
  · rw [List.getElem?_eq_getElem (h.length ▸ small)]
    exact congrArg some (h.blocks k _ (List.getElem?_eq_getElem _)).1
  · rw [List.getElem?_eq_none (by rw [h.length]; omega)]
    rfl

/-- Edges lead from a position to a later one. -/
lemma Graph.edge_iff (h : Graph instructions n func) {a b : String} :
    func.Edge a b ↔ ∃ k bb, k ≤ n ∧ func.allBb[k]? = some bb ∧ a = labelAt n k ∧
      b ∈ bb.successors := by
  constructor
  · rintro ⟨bb,hb,rfl,hs⟩
    obtain ⟨k,hk⟩ := List.mem_iff_getElem?.mp hb
    have small : k<n+2 := h.length ▸ (List.getElem?_eq_some_iff.mp hk).1
    obtain ⟨name,-,last⟩ := h.blocks k bb hk
    by_cases hkn : k ≤ n
    · exact ⟨k,bb,hkn,hk,name,hs⟩
    · rw [last (by omega)] at hs
      cases hs
  · rintro ⟨k,bb,hkn,hk,rfl,hs⟩
    exact ⟨bb,List.mem_of_getElem? hk,(h.blocks k bb hk).1,hs⟩

lemma Successors.forward {k : ℕ} {l : List String} (h : Successors instructions n k l)
    (hk : k ≤ n) {s : String} (hs : s ∈ l) : ∃ j, k<j ∧ j ≤ n+1 ∧ s = labelAt n j := by
  rcases h with rfl | ⟨-,-,-,j,hj,hj',rfl⟩
  · exact ⟨k+1,by omega,by omega,List.mem_singleton.mp hs⟩
  · rcases List.mem_cons.mp hs with rfl | second
    · exact ⟨k+1,by omega,by omega,rfl⟩
    · exact ⟨j,by omega,hj',List.mem_singleton.mp second⟩

lemma Successors.nodup {k : ℕ} {l : List String} (h : Successors instructions n k l)
    (hk : k ≤ n) : l.Nodup := by
  rcases h with rfl | ⟨-,-,-,j,hj,hj',rfl⟩
  · exact List.nodup_singleton _
  · have differ : labelAt n (k+1) ≠ labelAt n j := by
      intro same
      have := labelAt_injective (by omega) hj' same
      omega
    simpa using differ

lemma Graph.edge_next (h : Graph instructions n func) {k : ℕ} (hk : k ≤ n) :
    func.Edge (labelAt n k) (labelAt n (k+1)) := by
  have small : k<func.allBb.length := by rw [h.length]; omega
  have here := List.getElem?_eq_getElem small
  refine h.edge_iff.mpr ⟨k,_,hk,here,rfl,?_⟩
  rcases (h.blocks k _ here).2.1 hk with one | ⟨-,-,-,j,-,-,two⟩
  · rw [one]
    exact List.mem_singleton.mpr rfl
  · rw [two]
    exact List.mem_cons_self

/-- Any later position can be reached. -/
lemma Graph.reach (h : Graph instructions n func) {i j : ℕ} (hij : i ≤ j) (hj : j ≤ n+1) :
    Relation.ReflTransGen func.Edge (labelAt n i) (labelAt n j) := by
  induction j, hij using Nat.le_induction with
  | base => exact .refl
  | succ j hij ih => exact .tail (ih (by omega)) (h.edge_next (by omega))

lemma Graph.later (h : Graph instructions n func) {a b : String}
    (hab : Relation.TransGen func.Edge a b) :
    ∃ i j, i<j ∧ j ≤ n+1 ∧ a = labelAt n i ∧ b = labelAt n j := by
  have edge {a b : String} (hab : func.Edge a b) :
      ∃ i j, i<j ∧ j ≤ n+1 ∧ a = labelAt n i ∧ b = labelAt n j := by
    obtain ⟨k,bb,hk,hbb,rfl,hs⟩ := h.edge_iff.mp hab
    obtain ⟨j,hj,hj',rfl⟩ := ((h.blocks k bb hbb).2.1 hk).forward hk hs
    exact ⟨k,j,hj,hj',rfl,rfl⟩
  induction hab with
  | single hab => exact edge hab
  | tail _ hbc ih =>
    obtain ⟨i,j,hij,hj,rfl,rfl⟩ := ih
    obtain ⟨j',k,hjk,hk,same,rfl⟩ := edge hbc
    obtain rfl := labelAt_injective (by omega) (by omega) same
    exact ⟨i,k,by omega,hk,rfl,rfl⟩

/-- The terminators lead to the successors, where the next label is that of the next position. -/
lemma Graph.printed (h : Graph instructions n func) (ht : ∀ bb ∈ func.allBb, Terminated instructions bb)
    (hc : ∀ spec ∈ instructions, spec.controlFlow → spec.category = "BASE-COND_BR") {k : ℕ}
    {bb : BasicBlock} (hk : func.allBb[k]? = some bb) :
    branchTargets func.labels[k+1]? bb.terminators = bb.successors := by
  have terminated := ht bb (List.mem_of_getElem? hk)
  have small : k<n+2 := h.length ▸ (List.getElem?_eq_some_iff.mp hk).1
  obtain ⟨-,inner,last⟩ := h.blocks k bb hk
  rw [h.labels_getElem?]
  unfold Terminated at terminated
  by_cases hkn : k ≤ n
  · rcases inner hkn with one | ⟨-,-,-,j,-,-,two⟩
    · rw [one] at terminated ⊢
      dsimp only at terminated
      rw [terminated,if_pos (by omega)]
      split_ifs
      · rfl
      · rfl
    · rw [two] at terminated ⊢
      obtain ⟨spec,hspec,cf,terminators⟩ := terminated
      have category : (conditionalJump spec (labelAt n (k+1))).category = "BASE-COND_BR" :=
        hc spec hspec cf
      rw [terminators,branchTargets,if_pos category]
      rfl
  · have none := last (by omega)
    rw [none] at terminated ⊢
    rw [terminated,if_neg (by omega)]
    rfl

lemma Graph.labels (h : Graph instructions n func) :
    func.labels = (List.range (n+2)).map (labelAt n) := by
  apply List.ext_getElem?
  intro k
  rw [h.labels_getElem?,List.getElem?_map]
  split_ifs with small
  · rw [List.getElem?_range small]
    rfl
  · rw [List.getElem?_eq_none (by simpa using small)]
    rfl

lemma Graph.nodes_length (h : Graph instructions n func) : func.nodes.length = n := by
  simpa [Function.allBb] using h.length

theorem Graph.wellLaidOut (h : Graph instructions n func)
    (ht : ∀ bb ∈ func.allBb, Terminated instructions bb)
    (hc : ∀ spec ∈ instructions, spec.controlFlow → spec.category = "BASE-COND_BR") :
    func.WellLaidOut (maxSuccessors instructions) := by
  have position {bb : BasicBlock} (hb : bb ∈ func.allBb) :
      ∃ k, k ≤ n+1 ∧ func.allBb[k]? = some bb ∧ bb.name = labelAt n k := by
    obtain ⟨k,hk⟩ := List.mem_iff_getElem?.mp hb
    have small : k<n+2 := h.length ▸ (List.getElem?_eq_some_iff.mp hk).1
    exact ⟨k,by omega,hk,(h.blocks k bb hk).1⟩
  have entry : func.entry.name = labelAt n 0 := (h.blocks 0 func.entry rfl).1
  have exit : func.exit.name = labelAt n (n+1) := by
    refine (h.blocks (n+1) func.exit ?_).1
    rw [allBb_getElem? func h.nodes_length]
    simp
  refine ⟨?_,?_,?_,?_,?_,?_,?_⟩
  · rw [h.labels]
    refine List.nodup_range.map_on fun i hi j hj same => ?_
    rw [List.mem_range] at hi hj
    exact labelAt_injective (by omega) (by omega) same
  · intro k bb hk s hs
    obtain ⟨-,inner,last⟩ := h.blocks k bb hk
    have small : k<n+2 := h.length ▸ (List.getElem?_eq_some_iff.mp hk).1
    by_cases hkn : k ≤ n
    · obtain ⟨j,hj,hj',rfl⟩ := (inner hkn).forward hkn hs
      exact ⟨j,hj,by rw [h.labels_getElem?,if_pos (by omega)]⟩
    · rw [last (by omega)] at hs
      cases hs
  · intro bb hb
    refine ⟨?_,h.length_le hb⟩
    obtain ⟨k,hk,hbb,-⟩ := position hb
    obtain ⟨-,inner,last⟩ := h.blocks k bb hbb
    by_cases hkn : k ≤ n
    · exact (inner hkn).nodup hkn
    · rw [last (by omega)]
      exact List.nodup_nil
  · intro bb hb
    obtain ⟨k,hk,-,name⟩ := position hb
    rw [entry,name]
    exact h.reach (Nat.zero_le k) hk
  · intro bb hb
    obtain ⟨k,hk,-,name⟩ := position hb
    rw [exit,name]
    exact h.reach hk le_rfl
  · intro name cycle
    obtain ⟨i,j,hij,hj,rfl,same⟩ := h.later cycle
    have := labelAt_injective (by omega) hj same
    omega
  · intro k bb hk target
    rw [h.printed ht hc hk]

end Graph

section Supported
variable {conf : GeneratorConf} {categories : List String} {raw instructions : List InstructionSpec}

/-- What the instruction set keeps is of a supported category. -/
lemma InstructionSet.init_supported (h : InstructionSet.init conf categories raw = .ok instructions)
    (hg : conf.noGeneration = false) (hcat : categories ≠ []) : ∀ spec ∈ instructions,
      ∃ s ∈ raw, spec.controlFlow = s.controlFlow ∧ spec.category = s.category ∧
        s.category ∈ categories := by
  obtain ⟨reduced,hr,h⟩ := Except.bind_eq_ok.mp h
  cases h
  intro spec hs
  obtain ⟨all,hall,hr⟩ := Except.bind_eq_ok.mp hr
  cases hr
  obtain ⟨o,ho,ho'⟩ := List.mem_filterMap.mp (InstructionSet.dedup_subset _ hs)
  obtain rfl : o = some spec := ho'
  obtain ⟨s,hsraw,h⟩ := Except.exists_of_mapM hall _ ho
  obtain ⟨b,hb,h⟩ := Except.bind_eq_ok.mp h
  cases b with
  | false => cases h
  | true =>
    obtain ⟨ops,-,h⟩ := Except.bind_eq_ok.mp h
    obtain ⟨l,-,rfl⟩ := Option.map_eq_some_iff.mp (Except.ok.inj h)
    refine ⟨s,hsraw,rfl,rfl,?_⟩
    by_contra unsupported
    rw [InstructionSet.isSupported,if_neg (by simp [hg]),if_pos ⟨hcat,unsupported⟩] at hb
    cases hb

/-- For any number of nodes and all random choices, a function is built without an exception, and
its graph is well laid out. Of the categories with control flow only conditional branches are
supported. -/
theorem generateFunction_wellLaidOut
    (hi : InstructionSet.init conf categories raw = .ok instructions)
    (hg : conf.noGeneration = false) (hcat : categories ≠ [])
    (hs : ∀ spec ∈ raw, spec.controlFlow → spec.category ∈ categories →
      spec.category = "BASE-COND_BR")
    (h : 1 ≤ conf.minBbPerFunction) (h' : conf.minBbPerFunction ≤ conf.maxBbPerFunction) :
    Outcome (generateFunction conf instructions >>= addTerminatorsInFunction instructions)
      (fun func => conf.minBbPerFunction ≤ func.nodes.length ∧
        func.nodes.length ≤ conf.maxBbPerFunction ∧ func.WellLaidOut (maxSuccessors instructions))
      (fun _ => False) := by
  refine (generateFunction_graph h h').bind fun func ⟨n,low,high,graph⟩ => ?_
  refine (addTerminatorsInFunction_graph graph).weaken fun func' ⟨graph',terminated⟩ => ?_
  rw [graph'.nodes_length]
  refine ⟨low,high,graph'.wellLaidOut terminated fun spec hspec cf => ?_⟩
  obtain ⟨s,hsraw,flow,category,supported⟩ := InstructionSet.init_supported hi hg hcat spec hspec
  rw [category]
  exact hs s hsraw (flow ▸ cf) supported

/-- Four nodes, from a file with a conditional and an unconditional branch. -/
theorem generateFunction_wellLaidOut_jz :
    let conf : GeneratorConf := { minBbPerFunction := 4, maxBbPerFunction := 4 }
    let jz : InstructionSpec :=
      { name := "JZ", operands := [.label], implicitOperands := [.reg ["RIP"] 64 true true]
        category := "BASE-COND_BR", controlFlow := true }
    let jmp : InstructionSpec :=
      { name := "JMP", operands := [.label], implicitOperands := [.reg ["RIP"] 64 true true]
        category := "BASE-UNCOND_BR", controlFlow := true }
    InstructionSet.init conf ["BASE-COND_BR","BASE-NOP"] [jz,jmp] = .ok [jz] ∧
    maxSuccessors [jz] = 2 ∧
    Outcome (generateFunction conf [jz] >>= addTerminatorsInFunction [jz])
      (fun func => 4 ≤ func.nodes.length ∧ func.nodes.length ≤ 4 ∧ func.WellLaidOut 2)
      (fun _ => False) := by
  intro conf jz jmp
  have init : InstructionSet.init conf ["BASE-COND_BR","BASE-NOP"] [jz,jmp] = .ok [jz] := by
    decide +kernel
  exact ⟨init,by decide +kernel,generateFunction_wellLaidOut init rfl (by decide) (by decide)
    (by decide) (by decide)⟩

end Supported

end ProteanAmulet.Generator
