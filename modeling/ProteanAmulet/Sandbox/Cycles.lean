import Mathlib.Algebra.Order.BigOperators.Group.List
import Mathlib.Algebra.Order.Ring.Nat
import Mathlib.Data.List.Dedup
import Mathlib.Logic.Function.Iterate
import ProteanAmulet.Library.Graph

/-! The cycle removal of the sandbox pass. A function is a set of labelled blocks; what the pass does
not look at inside of instructions is left out. The strongly connected components come from LLVM and
are a parameter. -/
namespace ProteanAmulet.SandboxPass
open Relation

/-- A value of the function, or a constant. -/
inductive Operand where
  | value (name : ℕ)
  | constant
  deriving DecidableEq

structure Instruction where
  result : ℕ
  operands : List Operand
  isIntDivRem : Bool := false
  deriving DecidableEq

structure PHINode where
  result : ℕ
  incoming : List (ℕ × Operand)
  deriving DecidableEq

/-- The terminators: a return, an unconditional branch, and all others with their targets. -/
inductive Terminator where
  | ret (operands : List Operand)
  | br (target : ℕ)
  | other (operands : List Operand) (targets : List ℕ)
  deriving DecidableEq

namespace Terminator

def successors : Terminator → List ℕ
  | ret _ => []
  | br target => [target]
  | other _ targets => targets

def operands : Terminator → List Operand
  | ret os => os
  | br _ => []
  | other os _ => os

def isReturn : Terminator → Bool
  | ret _ => true
  | _ => false

end Terminator

structure BasicBlock where
  phis : List PHINode := []
  body : List Instruction := []
  terminator : Terminator

/-- A function with its blocks; the labels of the blocks are listed once. -/
structure Function where
  entry : ℕ
  labels : List ℕ
  block : ℕ → BasicBlock

namespace Function
variable (F : Function)

def successors (b : ℕ) : List ℕ := (F.block b).terminator.successors

def Edge (a b : ℕ) : Prop := b ∈ F.successors a

instance (a b : ℕ) : Decidable (F.Edge a b) := inferInstanceAs (Decidable (b ∈ F.successors a))

def Reaches : ℕ → ℕ → Prop := ReflTransGen F.Edge

/-- The block can be reached from the entry. -/
def Reachable (b : ℕ) : Prop := F.Reaches F.entry b

/-- A return can be reached from the block. -/
def Returns (b : ℕ) : Prop := ∃ r, (F.block r).terminator.isReturn ∧ F.Reaches b r

/-- Every block that can be reached belongs to the function. -/
def Closed : Prop := ∀ b, F.Reachable b → b ∈ F.labels

def setTerminator (b : ℕ) (t : Terminator) : Function :=
  { F with block := fun a => if a = b then { F.block b with terminator := t } else F.block a }

/-- The number of edges. -/
def edges : ℕ := (F.labels.map fun b => (F.successors b).length).sum

end Function

/-- `findCriticalEdge`; `none` is the fatal error. -/
def findCriticalEdge (F : Function) (SCC : List ℕ) : Option (ℕ × ℕ) :=
  SCC.findSome? fun b => ((F.successors b).find? (· ∉ SCC)).map fun s => (b,s)

/-- `isCyclicSCC`. -/
def isCyclicSCC (F : Function) (SCC : List ℕ) : Bool :=
  1<SCC.length || SCC.head?.any fun b => b ∈ F.successors b

/-- `removeCyclesInSCC`. -/
def removeCyclesInSCC (F : Function) (SCC : List ℕ) : Option Function :=
  (findCriticalEdge F SCC).map fun (src,dst) => F.setTerminator src (.br dst)

/-- Where `removeCyclesInFunction` is. -/
inductive Progress where
  | running (F : Function)
  | finished (F : Function)
  | fatal

/-- What `scc_begin` and `scc_end` enumerate. -/
structure SCCs (F : Function) (sccs : List (List ℕ)) : Prop where
  reachable : ∀ C ∈ sccs, ∀ a ∈ C, F.Reachable a
  strong : ∀ C ∈ sccs, ∀ a ∈ C, ∀ b, b ∈ C ↔ F.Reaches a b ∧ F.Reaches b a
  nodup : ∀ C ∈ sccs, C.Nodup
  nonempty : ∀ C ∈ sccs, C ≠ []
  cover : ∀ b, F.Reachable b → ∃ C ∈ sccs, b ∈ C

section Pass
variable (sccs : Function → List (List ℕ))

/-- One pass of the loop of `removeCyclesInFunction`, up to the next restart. -/
def restart : Progress → Progress
  | .running F =>
    match (sccs F).find? (isCyclicSCC F) with
    | none => .finished F
    | some SCC =>
      match removeCyclesInSCC F SCC with
      | none => .fatal
      | some F => .running F
  | p => p

/-- `removeCyclesInFunction` after `n` restarts. -/
def removeCyclesInFunction (F : Function) (n : ℕ) : Progress := (restart sccs)^[n] (.running F)

end Pass

section Step
variable {F : Function} {sccs : List (List ℕ)} {SCC : List ℕ} {src dst : ℕ}

@[simp] lemma successors_setTerminator (t : Terminator) (a b : ℕ) :
    (F.setTerminator b t).successors a = if a = b then t.successors else F.successors a := by
  by_cases h : a = b
  · simp [Function.successors,Function.setTerminator,h]
  · simp [Function.successors,Function.setTerminator,h]

lemma findCriticalEdge_some (h : findCriticalEdge F SCC = some (src,dst)) :
    src ∈ SCC ∧ dst ∉ SCC ∧ F.Edge src dst := by
  obtain ⟨b,hb,h⟩ := List.exists_of_findSome?_eq_some h
  obtain ⟨s,hs,h⟩ := Option.map_eq_some_iff.mp h
  cases h
  exact ⟨hb,by simpa using List.find?_some hs,List.mem_of_find?_eq_some hs⟩

lemma exists_criticalEdge {x y : ℕ} (hx : x ∈ SCC) (hy : y ∉ SCC) (h : F.Edge x y) :
    ∃ e, findCriticalEdge F SCC = some e := by
  rw [← Option.isSome_iff_exists,findCriticalEdge,List.findSome?_isSome_iff]
  refine ⟨x,hx,?_⟩
  rw [Option.isSome_map,List.find?_isSome]
  exact ⟨y,h,by simpa using hy⟩

/-- Every block of a cyclic component has a successor in it. -/
lemma exists_successor (h : SCCs F sccs) (hC : SCC ∈ sccs) (cyclic : isCyclicSCC F SCC) {a : ℕ}
    (ha : a ∈ SCC) : ∃ c ∈ SCC, F.Edge a c := by
  by_cases other : ∃ b ∈ SCC, a ≠ b
  · obtain ⟨b,hb,hne⟩ := other
    obtain ⟨there,back⟩ := (h.strong SCC hC a ha b).mp hb
    rcases there.cases_head with rfl | ⟨c,hac,hcb⟩
    · exact absurd rfl hne
    · exact ⟨c,(h.strong SCC hC a ha c).mpr ⟨.single hac,hcb.trans back⟩,hac⟩
  · have single : SCC = [a] := by
      match SCC,h.nodup SCC hC,ha,other with
      | [b], _, ha, _ => rw [List.mem_singleton.mp ha]
      | b :: c :: rest, nodup, _, other =>
        push Not at other
        have hb := other b (by simp)
        have hc := other c (by simp)
        simp [← hb,← hc] at nodup
    rw [single] at cyclic
    exact ⟨a,ha,by simpa [isCyclicSCC,Function.Edge] using cyclic⟩

lemma isReturn_successors {b : ℕ} (h : (F.block b).terminator.isReturn) : F.successors b = [] := by
  unfold Function.successors
  cases ht : (F.block b).terminator with
  | ret os => rfl
  | br t => simp [ht,Terminator.isReturn] at h
  | other os ts => simp [ht,Terminator.isReturn] at h

/-- The fatal error is not reached. -/
lemma exists_criticalEdge_of_returns (h : SCCs F sccs) (hC : SCC ∈ sccs)
    (cyclic : isCyclicSCC F SCC) (returns : ∀ b, F.Reachable b → F.Returns b) :
    ∃ e, findCriticalEdge F SCC = some e := by
  obtain ⟨a,ha⟩ := List.exists_mem_of_ne_nil SCC (h.nonempty SCC hC)
  obtain ⟨r,hr,walk⟩ := returns a (h.reachable SCC hC a ha)
  have outside : r ∉ SCC := by
    intro inside
    obtain ⟨c,_,edge⟩ := exists_successor h hC cyclic inside
    rw [Function.Edge,isReturn_successors hr] at edge
    cases edge
  obtain ⟨x,y,hx,hy,edge⟩ := Graph.exists_exit (C := (· ∈ SCC)) walk ha outside
  exact exists_criticalEdge hx hy edge

/-- There is no way back over a critical edge. -/
lemma criticalEdge_away (h : SCCs F sccs) (hC : SCC ∈ sccs)
    (he : findCriticalEdge F SCC = some (src,dst)) : ¬F.Reaches dst src := by
  obtain ⟨hs,hd,edge⟩ := findCriticalEdge_some he
  intro back
  exact hd ((h.strong SCC hC src hs dst).mpr ⟨.single edge,back⟩)

lemma edges_lt (h : SCCs F sccs) (hC : SCC ∈ sccs) (cyclic : isCyclicSCC F SCC)
    (he : findCriticalEdge F SCC = some (src,dst)) (hl : src ∈ F.labels) :
    (F.setTerminator src (.br dst)).edges<F.edges := by
  obtain ⟨hs,hd,edge⟩ := findCriticalEdge_some he
  obtain ⟨c,hc,edge'⟩ := exists_successor h hC cyclic hs
  have two : 1<(F.successors src).length := by
    have hne : c ≠ dst := by
      rintro rfl
      exact hd hc
    have pair : [c,dst] ⊆ F.successors src := by
      intro x hx
      rcases List.mem_pair.mp hx with rfl | rfl
      · exact edge'
      · exact edge
    have nodup : [c,dst].Nodup := by simpa using hne
    exact (List.subperm_of_subset nodup pair).length_le
  apply List.sum_lt_sum
  · intro b _
    rw [successors_setTerminator]
    split
    · subst b
      exact two.le
    · exact le_rfl
  · refine ⟨src,hl,?_⟩
    rw [successors_setTerminator,if_pos rfl]
    exact two

end Step

/-- What is left of the first function: fewer edges, and still a way to a return. -/
structure Reduces (F₀ F : Function) : Prop where
  entry : F.entry = F₀.entry
  labels : F.labels = F₀.labels
  edges : ∀ a b, F.Edge a b → F₀.Edge a b
  returns : ∀ b, F₀.Reachable b → F.Returns b

namespace Reduces
variable {F₀ F : Function} {sccs : List (List ℕ)} {SCC : List ℕ} {src dst : ℕ}

lemma refl (returns : ∀ b, F.Reachable b → F.Returns b) : Reduces F F :=
  ⟨rfl,rfl,fun _ _ => id,returns⟩

lemma reachable (h : Reduces F₀ F) {b : ℕ} (hb : F.Reachable b) : F₀.Reachable b := by
  unfold Function.Reachable at *
  rw [h.entry] at hb
  exact ReflTransGen.mono h.edges _ _ hb

lemma closed (h : Reduces F₀ F) (hF : F₀.Closed) : F.Closed := by
  intro b hb
  rw [h.labels]
  exact hF b (h.reachable hb)

/-- One rewrite. -/
lemma step (h : Reduces F₀ F) (hs : SCCs F sccs) (hC : SCC ∈ sccs)
    (he : findCriticalEdge F SCC = some (src,dst)) :
    Reduces F₀ (F.setTerminator src (.br dst)) := by
  obtain ⟨hsrc,_,edge⟩ := findCriticalEdge_some he
  have reachable : F₀.Reachable src := h.reachable (hs.reachable SCC hC src hsrc)
  refine ⟨h.entry,h.labels,?_,?_⟩
  · intro a b hab
    rw [Function.Edge,successors_setTerminator] at hab
    split at hab
    · subst a
      rw [List.mem_singleton.mp hab]
      exact h.edges _ _ edge
    · exact h.edges a b hab
  · intro b hb
    have keep : ∀ x y, x ≠ src → F.Edge x y → (F.setTerminator src (.br dst)).Edge x y := by
      intro x y hx hxy
      rw [Function.Edge,successors_setTerminator,if_neg hx]
      exact hxy
    have redirect : (F.setTerminator src (.br dst)).Edge src dst := by
      rw [Function.Edge,successors_setTerminator,if_pos rfl]
      exact List.mem_singleton.mpr rfl
    have target : F.Returns dst := h.returns dst (reachable.tail (h.edges _ _ edge))
    obtain ⟨r,hr,walk⟩ := Graph.reaches_of_redirect keep redirect (criticalEdge_away hs hC he)
      target (h.returns b hb)
    refine ⟨r,?_,walk⟩
    have hne : r ≠ src := by
      rintro rfl
      rw [Function.Edge,isReturn_successors hr] at edge
      cases edge
    simpa [Function.setTerminator,hne] using hr

end Reduces

/-- No block that can be reached is on a cycle. -/
def Acyclic (F : Function) : Prop := ∀ b, F.Reachable b → ¬TransGen F.Edge b b

lemma acyclic_of_sccs {F : Function} {sccs : List (List ℕ)} (h : SCCs F sccs)
    (none : ∀ C ∈ sccs, ¬isCyclicSCC F C) : Acyclic F := by
  intro b hb cycle
  obtain ⟨C,hC,hbC⟩ := h.cover b hb
  obtain ⟨c,hbc,hcb⟩ := TransGen.head'_iff.mp cycle
  have hc : c ∈ C := (h.strong C hC b hbC c).mpr ⟨.single hbc,hcb⟩
  apply none C hC
  match C,h.nonempty C hC,hbC,hc with
  | [a], _, hbC, hc =>
    rw [List.mem_singleton.mp hbC,List.mem_singleton.mp hc] at hbc
    simpa [isCyclicSCC,Function.Edge] using hbc
  | _ :: _ :: _, _, _, _ => simp [isCyclicSCC]

section Run
variable {sccs : Function → List (List ℕ)} {F₀ F : Function}

lemma restart_running (hs : SCCs F (sccs F)) (h : Reduces F₀ F) :
    (restart sccs (.running F) = .finished F ∧ Acyclic F) ∨
    ∃ F', restart sccs (.running F) = .running F' ∧ Reduces F₀ F' ∧
      (F.Closed → F'.edges<F.edges) := by
  cases hf : (sccs F).find? (isCyclicSCC F) with
  | none =>
    refine .inl ⟨by simp only [restart,hf],acyclic_of_sccs hs ?_⟩
    simpa using List.find?_eq_none.mp hf
  | some SCC =>
    have hC := List.mem_of_find?_eq_some hf
    have cyclic := List.find?_some hf
    obtain ⟨⟨src,dst⟩,he⟩ := exists_criticalEdge_of_returns hs hC cyclic
      fun b hb => h.returns b (h.reachable hb)
    refine .inr ⟨F.setTerminator src (.br dst),?_,h.step hs hC he,?_⟩
    · simp only [restart,hf,removeCyclesInSCC,he,Option.map_some]
    · intro closed
      have hsrc := (findCriticalEdge_some he).1
      exact edges_lt hs hC cyclic he (closed src (hs.reachable SCC hC src hsrc))

lemma exists_finished (hsccs : ∀ F : Function, F.Closed → SCCs F (sccs F)) (closed : F₀.Closed)
    (h : Reduces F₀ F) : ∃ n F', (restart sccs)^[n] (.running F) = .finished F' ∧
      Acyclic F' ∧ Reduces F₀ F' := by
  induction hm : F.edges using Nat.strongRecOn generalizing F with
  | _ m ih =>
    have hF := h.closed closed
    rcases restart_running (hsccs F hF) h with ⟨done,acyclic⟩ | ⟨F',next,h',fewer⟩
    · exact ⟨1,F,done,acyclic,h⟩
    · obtain ⟨n,F'',done,rest⟩ := ih F'.edges (hm ▸ fewer hF) h' rfl
      refine ⟨n+1,F'',?_,rest⟩
      rw [Function.iterate_succ_apply,next]
      exact done

/-- What holds after every restart. -/
def Sound (F₀ : Function) : Progress → Prop
  | .running F => Reduces F₀ F
  | .finished F => Acyclic F ∧ Reduces F₀ F
  | .fatal => False

lemma Sound.restart (hsccs : ∀ F : Function, F.Closed → SCCs F (sccs F)) (closed : F₀.Closed)
    {p : Progress} (h : Sound F₀ p) : Sound F₀ (SandboxPass.restart sccs p) := by
  match p,h with
  | .running F, h =>
    rcases restart_running (hsccs F (Reduces.closed h closed)) h with ⟨he,acyclic⟩ | ⟨F',he,h',_⟩
    · rw [he]
      exact ⟨acyclic,h⟩
    · rw [he]
      exact h'
  | .finished F, h => exact h

lemma sound_iterate (hsccs : ∀ F : Function, F.Closed → SCCs F (sccs F)) (closed : F₀.Closed)
    (returns : ∀ b, F₀.Reachable b → F₀.Returns b) (n : ℕ) :
    Sound F₀ (removeCyclesInFunction sccs F₀ n) := by
  induction n with
  | zero => exact Reduces.refl returns
  | succ n ih =>
    rw [removeCyclesInFunction,Function.iterate_succ_apply']
    exact ih.restart hsccs closed

end Run

/-- The cycle removal ends without the fatal error, in a function without cycles, and with a way to
a return from every block that could be reached. -/
theorem removeCyclesInFunction_correct (sccs : Function → List (List ℕ))
    (hsccs : ∀ F : Function, F.Closed → SCCs F (sccs F)) (F : Function) (closed : F.Closed)
    (returns : ∀ b, F.Reachable b → F.Returns b) :
    (∃ n F', removeCyclesInFunction sccs F n = .finished F' ∧ Acyclic F' ∧
      (∀ a b, F'.Edge a b → F.Edge a b) ∧ ∀ b, F.Reachable b → F'.Returns b) ∧
    ∀ n, removeCyclesInFunction sccs F n ≠ .fatal := by
  constructor
  · obtain ⟨n,F',done,acyclic,h⟩ := exists_finished hsccs closed (Reduces.refl returns)
    exact ⟨n,F',done,acyclic,h.edges,h.returns⟩
  · intro n hn
    have sound := sound_iterate hsccs closed returns n
    rw [hn] at sound
    exact sound

open Classical in
/-- The strongly connected components by their definition. -/
noncomputable def components (F : Function) : List (List ℕ) :=
  (F.labels.filter F.Reachable).map fun a =>
    F.labels.dedup.filter fun b => F.Reaches a b ∧ F.Reaches b a

open Classical in
lemma components_sccs {F : Function} (closed : F.Closed) : SCCs F (components F) := by
  have mem {C : List ℕ} (hC : C ∈ components F) : ∃ a, F.Reachable a ∧
      C.Nodup ∧ ∀ b, b ∈ C ↔ F.Reaches a b ∧ F.Reaches b a := by
    obtain ⟨a,ha,rfl⟩ := List.mem_map.mp hC
    have reachable : F.Reachable a := by simpa using (List.mem_filter.mp ha).2
    refine ⟨a,reachable,(List.nodup_dedup _).filter _,?_⟩
    intro b
    rw [List.mem_filter,List.mem_dedup,decide_eq_true_iff]
    exact ⟨And.right,fun h => ⟨closed b (reachable.trans h.1),h⟩⟩
  constructor
  · intro C hC a ha
    obtain ⟨c,hc,_,hm⟩ := mem hC
    exact hc.trans ((hm a).mp ha).1
  · intro C hC a ha b
    obtain ⟨c,hc,_,hm⟩ := mem hC
    obtain ⟨hca,hac⟩ := (hm a).mp ha
    rw [hm b]
    exact ⟨fun h => ⟨hac.trans h.1,h.2.trans hca⟩,fun h => ⟨hca.trans h.1,h.2.trans hac⟩⟩
  · intro C hC
    exact (mem hC).choose_spec.2.1
  · intro C hC
    obtain ⟨c,_,_,hm⟩ := mem hC
    exact List.ne_nil_of_mem ((hm c).mpr ⟨.refl,.refl⟩)
  · intro b hb
    have hl := closed b hb
    refine ⟨_,List.mem_map.mpr ⟨b,List.mem_filter.mpr ⟨hl,by simpa using hb⟩,rfl⟩,?_⟩
    rw [List.mem_filter,List.mem_dedup,decide_eq_true_iff]
    exact ⟨hl,.refl,.refl⟩

lemma closed_of_successors {F : Function} (entry : F.entry ∈ F.labels)
    (next : ∀ a ∈ F.labels, ∀ b ∈ F.successors a, b ∈ F.labels) : F.Closed := by
  intro b hb
  induction hb with
  | refl => exact entry
  | tail _ hab ih => exact next _ ih _ hab

/-- A loop of a single block. -/
def selfLoop : Function where
  entry := 0
  labels := [0,1,2]
  block
    | 0 => { terminator := .br 1 }
    | 1 => { terminator := .other [.constant] [1,2] }
    | _ => { terminator := .ret [] }

lemma selfLoop_closed : selfLoop.Closed := closed_of_successors (by decide) (by decide)

lemma selfLoop_returns {b : ℕ} (h : selfLoop.Reachable b) : selfLoop.Returns b := by
  have exit : selfLoop.Reaches 1 2 := .single (by decide)
  have cases : b = 0 ∨ b = 1 ∨ b = 2 := by simpa [selfLoop] using selfLoop_closed b h
  rcases cases with rfl | rfl | rfl
  · exact ⟨2,rfl,.head (by decide) exit⟩
  · exact ⟨2,rfl,exit⟩
  · exact ⟨2,rfl,.refl⟩

theorem removeCyclesInFunction_correct_selfLoop :
    ∃ n F', removeCyclesInFunction components selfLoop n = .finished F' ∧ Acyclic F' ∧
      (∀ a b, F'.Edge a b → selfLoop.Edge a b) ∧ ∀ b, selfLoop.Reachable b → F'.Returns b :=
  (removeCyclesInFunction_correct components (fun _ => components_sccs) selfLoop
    selfLoop_closed fun _ => selfLoop_returns).1

end ProteanAmulet.SandboxPass
