import ProteanAmulet.Sandbox.Dominance
import ProteanAmulet.Sandbox.Cycles

/-! The cycle removal on functions in SSA form. It erases edges, so that definitions dominate what they
dominated, but it leaves the entries that PHI nodes have for these edges. -/
namespace ProteanAmulet.LLVM
open Relation
variable {O : Type}

/-- What the cycle removal looks at. -/
def Terminator.graph : Terminator O → SandboxPass.Terminator
  | ret _ => .ret []
  | br target => .br target
  | condBr _ ifTrue ifFalse => .other [] [ifTrue,ifFalse]
  | other _ _ targets => .other [] targets

namespace Function
variable (F : Function O)

def graph : SandboxPass.Function where
  entry := F.entry
  labels := F.labels
  block b := { terminator := (F.block b).terminator.graph }

def setTerminator (b : ℕ) (T : Terminator O) : Function O :=
  F.setBlock b { F.block b with terminator := T }

/-- `removeCyclesInSCC`. -/
def removeCyclesInSCC (SCC : List ℕ) : Option (Function O) :=
  (SandboxPass.findCriticalEdge F.graph SCC).map fun (src,dst) => F.setTerminator src (.br dst)

/-- No block with PHI nodes that can still be reached loses an edge, when `src` is sent to `dst`. -/
def KeepsPhis (src dst : ℕ) : Prop :=
  ∀ t ∈ F.successors src, (F.setTerminator src (.br dst)).Reachable t → (F.block t).phis ≠ [] →
    t = dst ∧ (F.successors src).count t = 1

end Function

/-- Where `removeCyclesInFunction` is. -/
inductive Progress (O : Type) where
  | running (F : Function O)
  | finished (F : Function O)
  | fatal

def Progress.graph : Progress O → SandboxPass.Progress
  | running F => .running F.graph
  | finished F => .finished F.graph
  | fatal => .fatal

def Progress.WellFormed : Progress O → Prop
  | running F => F.WellFormed
  | finished F => F.WellFormed
  | fatal => False

section Pass
variable (sccs : SandboxPass.Function → List (List ℕ))

/-- One pass of the loop of `removeCyclesInFunction`, up to the next restart. -/
def restart : Progress O → Progress O
  | .running F =>
    match (sccs F.graph).find? (SandboxPass.isCyclicSCC F.graph) with
    | none => .finished F
    | some SCC =>
      match F.removeCyclesInSCC SCC with
      | none => .fatal
      | some F => .running F
  | p => p

/-- `removeCyclesInFunction` after `n` restarts. -/
def removeCyclesInFunction (F : Function O) (n : ℕ) : Progress O := (restart sccs)^[n] (.running F)

/-- The next rewrite takes no edge away from PHI nodes. -/
def Progress.KeepsPhis : Progress O → Prop
  | running F => ∀ SCC src dst, (sccs F.graph).find? (SandboxPass.isCyclicSCC F.graph) = some SCC →
      SandboxPass.findCriticalEdge F.graph SCC = some (src,dst) → F.KeepsPhis src dst
  | _ => True

end Pass

section Graph
variable {F : Function O} {sccs : SandboxPass.Function → List (List ℕ)}

lemma Terminator.graph_successors (T : Terminator O) : T.graph.successors = T.successors := by
  cases T <;> rfl

lemma graph_successors (F : Function O) (b : ℕ) : F.graph.successors b = F.successors b :=
  (F.block b).terminator.graph_successors

lemma graph_edge {a b : ℕ} : F.graph.Edge a b ↔ F.Edge a b := by
  rw [SandboxPass.Function.Edge,graph_successors,Function.Edge]

lemma graph_reachable {b : ℕ} : F.graph.Reachable b ↔ F.Reachable b := by
  have edges : F.graph.Edge = F.Edge := by
    funext a b
    exact propext graph_edge
  rw [SandboxPass.Function.Reachable,SandboxPass.Function.Reaches,edges]
  rfl

lemma setTerminator_self (F : Function O) (b : ℕ) (T : Terminator O) :
    (F.setTerminator b T).block b = { F.block b with terminator := T } :=
  Function.update_self ..

lemma setTerminator_other {a b : ℕ} (h : a ≠ b) (T : Terminator O) :
    (F.setTerminator b T).block a = F.block a :=
  Function.update_of_ne h ..

lemma graph_setTerminator (src dst : ℕ) :
    (F.setTerminator src (.br dst)).graph = F.graph.setTerminator src (.br dst) := by
  rw [Function.graph,SandboxPass.Function.setTerminator]
  congr 1
  funext a
  by_cases same : a = src
  · rw [if_pos same,same,setTerminator_self]
    rfl
  · rw [if_neg same,setTerminator_other same]
    rfl

lemma graph_restart (p : Progress O) : (restart sccs p).graph = SandboxPass.restart sccs p.graph := by
  cases p with
  | running F =>
    rw [restart,Progress.graph,SandboxPass.restart]
    cases (sccs F.graph).find? (SandboxPass.isCyclicSCC F.graph) with
    | none => rfl
    | some SCC =>
      dsimp only
      rw [Function.removeCyclesInSCC,SandboxPass.removeCyclesInSCC]
      cases SandboxPass.findCriticalEdge F.graph SCC with
      | none => rfl
      | some edge => exact congrArg SandboxPass.Progress.running (graph_setTerminator edge.1 edge.2)
  | finished F => rfl
  | fatal => rfl

lemma graph_iterate (n : ℕ) (p : Progress O) :
    ((restart sccs)^[n] p).graph = (SandboxPass.restart sccs)^[n] p.graph := by
  induction n generalizing p with
  | zero => rfl
  | succ n ih => rw [Function.iterate_succ_apply,Function.iterate_succ_apply,ih,graph_restart]

end Graph

section Step
variable {F : Function O} {src dst : ℕ}

lemma successors_setTerminator (F : Function O) (b : ℕ) (T : Terminator O) (a : ℕ) :
    (F.setTerminator b T).successors a = if a = b then T.successors else F.successors a := by
  rw [Function.successors]
  by_cases same : a = b
  · rw [if_pos same,same,setTerminator_self]
  · rw [if_neg same,setTerminator_other same]
    rfl

lemma phis_setTerminator (b : ℕ) (T : Terminator O) (a : ℕ) :
    ((F.setTerminator b T).block a).phis = (F.block a).phis ∧
      ((F.setTerminator b T).block a).body = (F.block a).body := by
  by_cases same : a = b
  · rw [same,setTerminator_self]
    exact ⟨rfl,rfl⟩
  · rw [setTerminator_other same]
    exact ⟨rfl,rfl⟩

lemma defs_setTerminator (b : ℕ) (T : Terminator O) (a : ℕ) :
    (F.setTerminator b T).defs a = F.defs a := by
  rw [Function.defs,Function.defs,(phis_setTerminator b T a).1,(phis_setTerminator b T a).2]

/-- An operand of the terminator that is still there. -/
lemma terminator_setTerminator {a : ℕ} {o : Operand}
    (h : o ∈ ((F.setTerminator src (.br dst)).block a).terminator.operands) :
    o ∈ (F.block a).terminator.operands := by
  by_cases same : a = src
  · rw [same,setTerminator_self] at h
    cases h
  · rwa [setTerminator_other same] at h

section Redirect
variable (edge : F.Edge src dst)
include edge

/-- No edge is new. -/
lemma edge_of_setTerminator {a b : ℕ} (h : (F.setTerminator src (.br dst)).Edge a b) :
    F.Edge a b := by
  rw [Function.Edge,successors_setTerminator] at h
  split_ifs at h with same
  · rw [same,List.mem_singleton.mp h]
    exact edge
  · exact h

lemma reachable_of_setTerminator {b : ℕ} (h : (F.setTerminator src (.br dst)).Reachable b) :
    F.Reachable b :=
  ReflTransGen.mono (fun _ _ => edge_of_setTerminator edge) _ _ h

lemma available_setTerminator {b i x : ℕ} (h : F.Available b i x) :
    (F.setTerminator src (.br dst)).Available b i x := by
  rw [Function.Available,(phis_setTerminator src _ b).1,(phis_setTerminator src _ b).2]
  refine h.imp_right (Or.imp_right (Or.imp_right ?_))
  rintro ⟨d,hd,hne,dominates,hx⟩
  refine ⟨d,hd,hne,fun avoids => dominates ⟨avoids.1,?_⟩,?_⟩
  · exact ReflTransGen.mono (fun _ _ h => ⟨edge_of_setTerminator edge h.1,h.2⟩) _ _ avoids.2
  · rwa [defs_setTerminator]

lemma valid_setTerminator (valid : F.Valid) : (F.setTerminator src (.br dst)).Valid := by
  constructor
  case distinct => exact valid.distinct
  case entry => exact valid.entry
  case closed => exact fun b hb t ht => valid.closed b hb t (edge_of_setTerminator edge ht)
  case labels => exact valid.labels
  case incoming =>
    intro b hb phi hphi
    rw [(phis_setTerminator src _ b).1] at hphi
    exact valid.incoming b hb phi hphi
  case names =>
    intro b hb x hx
    rw [defs_setTerminator] at hx
    exact valid.names b hb x hx
  case used =>
    intro b hb x hx
    refine valid.used b hb x ?_
    rw [Function.uses,(phis_setTerminator src _ b).1,(phis_setTerminator src _ b).2] at hx
    exact (List.mem_append.mp hx).elim (List.mem_append_left _)
      fun h => List.mem_append_right _ (terminator_setTerminator h)
  case args => exact valid.args
  case nodup =>
    intro b hb
    rw [defs_setTerminator]
    exact valid.nodup b hb
  case unique =>
    intro b hb c hc x hx hx'
    rw [defs_setTerminator] at hx hx'
    exact valid.unique b hb c hc x hx hx'
  case apart =>
    intro b hb x hx
    rw [defs_setTerminator] at hx
    exact valid.apart b hb x hx

/-- SSA form is kept where no PHI node loses an edge. -/
lemma wellFormed_setTerminator (wf : F.WellFormed) (keeps : F.KeepsPhis src dst) :
    (F.setTerminator src (.br dst)).WellFormed := by
  have reachable {b : ℕ} := reachable_of_setTerminator (b := b) edge
  refine ⟨valid_setTerminator edge wf.toValid,?_,?_,?_,?_⟩
  · intro b hb phi hphi a
    rw [(phis_setTerminator src _ b).1] at hphi
    rw [wf.complete b (reachable hb) phi hphi a,successors_setTerminator]
    by_cases same : a = src
    · rw [if_pos same,same]
      by_cases target : b ∈ F.successors src
      · obtain ⟨rfl,count⟩ := keeps b target hb (List.ne_nil_of_mem hphi)
        rw [count]
        simp [Terminator.successors,Function.setTerminator,Function.setBlock]
      · have other : dst ≠ b := by
          rintro rfl
          exact target edge
        rw [List.count_eq_zero.mpr target]
        simp [Terminator.successors,other]
    · rw [if_neg same]
      rfl
  · intro b hb i I hI x hx
    rw [(phis_setTerminator src _ b).2] at hI
    exact available_setTerminator edge (wf.bodyUses b (reachable hb) i I hI x hx)
  · intro b hb x hx
    rw [(phis_setTerminator src _ b).2]
    exact available_setTerminator edge
      (wf.terminatorUses b (reachable hb) x (terminator_setTerminator hx))
  · intro b hb phi hphi e he source x hx
    rw [(phis_setTerminator src _ b).1] at hphi
    rw [(phis_setTerminator src _ e.1).2]
    exact available_setTerminator edge
      (wf.phiUses b (reachable hb) phi hphi e he (reachable source) x hx)

/-- Where SSA form is kept, no PHI node has lost an edge. -/
lemma keepsPhis_of_wellFormed (wf : F.WellFormed) (here : src ∈ F.labels)
    (wf' : (F.setTerminator src (.br dst)).WellFormed) : F.KeepsPhis src dst := by
  intro t ht reachable hphis
  obtain ⟨phi,hphi⟩ := List.exists_mem_of_ne_nil _ hphis
  have old := wf.complete t (reachable_of_setTerminator edge reachable) phi hphi src
  have new := wf'.complete t reachable phi (by rwa [(phis_setTerminator src _ t).1]) src
  rw [if_pos here] at old
  rw [if_pos (show src ∈ (F.setTerminator src (.br dst)).labels from here),old,
    successors_setTerminator,if_pos rfl] at new
  have positive : 0<(F.successors src).count t := List.count_pos_iff.mpr ht
  rw [new] at positive
  have same : t = dst := List.mem_singleton.mp (List.count_pos_iff.mp positive)
  refine ⟨same,?_⟩
  rw [new,same]
  exact List.count_singleton_self ..

end Redirect

end Step

section Run
variable {F G : Function O} {sccs : SandboxPass.Function → List (List ℕ)}

lemma Function.Valid.graph_closed (valid : F.Valid) : F.graph.Closed :=
  fun _ hb => valid.reachable_mem (graph_reachable.mp hb)

/-- What a restart makes of a function. -/
lemma restart_cases (alive : restart sccs (.running F) ≠ .fatal) :
    (restart sccs (.running F) = .finished F ∧
      (sccs F.graph).find? (SandboxPass.isCyclicSCC F.graph) = none) ∨
    ∃ SCC src dst, restart sccs (.running F) = .running (F.setTerminator src (.br dst)) ∧
      (sccs F.graph).find? (SandboxPass.isCyclicSCC F.graph) = some SCC ∧
      SandboxPass.findCriticalEdge F.graph SCC = some (src,dst) ∧
      src ∈ SCC ∧ dst ∉ SCC ∧ F.Edge src dst := by
  cases hf : (sccs F.graph).find? (SandboxPass.isCyclicSCC F.graph) with
  | none =>
    refine .inl ⟨?_,rfl⟩
    simp only [restart,hf]
  | some SCC =>
    cases he : SandboxPass.findCriticalEdge F.graph SCC with
    | none =>
      refine absurd ?_ alive
      simp only [restart,hf,Function.removeCyclesInSCC,he,Option.map_none]
    | some critical =>
      obtain ⟨src,dst⟩ := critical
      obtain ⟨hsrc,hdst,edge⟩ := SandboxPass.findCriticalEdge_some he
      refine .inr ⟨SCC,src,dst,?_,rfl,he,hsrc,hdst,graph_edge.mp edge⟩
      simp only [restart,hf,Function.removeCyclesInSCC,he,Option.map_some]

lemma wellFormed_restart (hsccs : ∀ F : SandboxPass.Function, F.Closed → SandboxPass.SCCs F (sccs F))
    {p : Progress O} (wf : p.WellFormed) (alive : restart sccs p ≠ .fatal) :
    (restart sccs p).WellFormed ↔ p.KeepsPhis sccs := by
  cases p with
  | running F =>
    have valid : F.Valid := Function.WellFormed.toValid wf
    rcases restart_cases alive with ⟨next,hf⟩ | ⟨SCC,src,dst,next,hf,he,hsrc,_,edge⟩
    · rw [next]
      refine iff_of_true wf fun SCC src dst h => ?_
      rw [hf] at h
      cases h
    · rw [next]
      constructor
      · intro wf' SCC' src' dst' hf' he'
        rw [hf] at hf'
        cases hf'
        rw [he] at he'
        cases he'
        have reachable := (hsccs F.graph valid.graph_closed).reachable SCC
          (List.mem_of_find?_eq_some hf) src hsrc
        exact keepsPhis_of_wellFormed edge wf (valid.graph_closed src reachable) wf'
      · intro keeps
        exact wellFormed_setTerminator edge wf (keeps SCC src dst hf he)
  | finished F => exact iff_of_true wf trivial
  | fatal => exact absurd rfl alive

section Returns
variable (hsccs : ∀ F : SandboxPass.Function, F.Closed → SandboxPass.SCCs F (sccs F)) (valid : F.Valid)
  (returns : ∀ b, F.graph.Reachable b → F.graph.Returns b)
include hsccs valid returns

lemma removeCyclesInFunction_ne_fatal (n : ℕ) : removeCyclesInFunction sccs F n ≠ .fatal := by
  intro fatal
  have sound := SandboxPass.sound_iterate hsccs valid.graph_closed returns n
  have graph : (removeCyclesInFunction sccs F n).graph =
      SandboxPass.removeCyclesInFunction sccs F.graph n := graph_iterate n (.running F)
  rw [← graph,fatal] at sound
  exact sound

lemma exists_removeCyclesInFunction : ∃ n F', removeCyclesInFunction sccs F n = .finished F' ∧
    SandboxPass.Acyclic F'.graph ∧ SandboxPass.Reduces F.graph F'.graph := by
  obtain ⟨n,G,done,acyclic,reduces⟩ :=
    SandboxPass.exists_finished hsccs valid.graph_closed (SandboxPass.Reduces.refl returns)
  have graph : (removeCyclesInFunction sccs F n).graph = .finished G :=
    (graph_iterate n (.running F)).trans done
  cases h : removeCyclesInFunction sccs F n with
  | finished F' =>
    rw [h] at graph
    cases graph
    exact ⟨n,F',h,acyclic,reduces⟩
  | running F' =>
    rw [h] at graph
    cases graph
  | fatal =>
    rw [h] at graph
    cases graph

end Returns

end Run

/-- A run of the sandbox pass stays in SSA form as long as its rewrites take no edge away from PHI nodes,
and then ends in SSA form. -/
theorem sandboxPass_wellFormed (sccs : SandboxPass.Function → List (List ℕ))
    (hsccs : ∀ F : SandboxPass.Function, F.Closed → SandboxPass.SCCs F (sccs F)) (F : Function O)
    (wf : F.WellFormed) (returns : ∀ b, F.graph.Reachable b → F.graph.Returns b) :
    ((∀ n, (removeCyclesInFunction sccs F n).WellFormed) ↔
      ∀ n, (removeCyclesInFunction sccs F n).KeepsPhis sccs) ∧
    ∃ n F', removeCyclesInFunction sccs F n = .finished F' ∧
      ((∀ n, (removeCyclesInFunction sccs F n).KeepsPhis sccs) → F'.maskDivs.WellFormed) := by
  have alive := removeCyclesInFunction_ne_fatal hsccs wf.toValid returns
  have next (n : ℕ) : removeCyclesInFunction sccs F (n+1) =
      restart sccs (removeCyclesInFunction sccs F n) := Function.iterate_succ_apply' ..
  have step {n : ℕ} (h : (removeCyclesInFunction sccs F n).WellFormed) :
      (removeCyclesInFunction sccs F (n+1)).WellFormed ↔
        (removeCyclesInFunction sccs F n).KeepsPhis sccs := by
    have going := alive (n+1)
    rw [next] at going ⊢
    exact wellFormed_restart hsccs h going
  have run (keeps : ∀ n, (removeCyclesInFunction sccs F n).KeepsPhis sccs) (n : ℕ) :
      (removeCyclesInFunction sccs F n).WellFormed := by
    induction n with
    | zero => exact wf
    | succ n ih => exact (step ih).mpr (keeps n)
  refine ⟨⟨fun h n => (step (h n)).mp (h (n+1)),run⟩,?_⟩
  obtain ⟨n,F',done,_⟩ := exists_removeCyclesInFunction hsccs wf.toValid returns
  refine ⟨n,F',done,fun keeps => maskDivs_wellFormed ?_⟩
  have last := run keeps n
  rw [done] at last
  exact last

/-- What the cycle removal leaves of a function: all but terminators, which become branches to one of
their targets. -/
structure Kept (F G : Function O) : Prop where
  entry : G.entry = F.entry
  labels : G.labels = F.labels
  phis : ∀ b, (G.block b).phis = (F.block b).phis
  body : ∀ b, (G.block b).body = (F.block b).body
  terminator : ∀ b, (G.block b).terminator = (F.block b).terminator ∨
    ∃ t ∈ F.successors b, (G.block b).terminator = .br t

namespace Kept
variable {F G : Function O}

lemma refl (F : Function O) : Kept F F := ⟨rfl,rfl,fun _ => rfl,fun _ => rfl,fun _ => .inl rfl⟩

lemma edge (h : Kept F G) {a b : ℕ} (he : G.Edge a b) : F.Edge a b := by
  rw [Function.Edge,Function.successors] at he
  rcases h.terminator a with same | ⟨t,ht,same⟩
  · rwa [same] at he
  · rw [same] at he
    rw [List.mem_singleton.mp he]
    exact ht

lemma setTerminator (h : Kept F G) {src dst : ℕ} (he : G.Edge src dst) :
    Kept F (G.setTerminator src (.br dst)) := by
  refine ⟨h.entry,h.labels,?_,?_,?_⟩
  · exact fun b => (phis_setTerminator src _ b).1.trans (h.phis b)
  · exact fun b => (phis_setTerminator src _ b).2.trans (h.body b)
  · intro b
    by_cases same : b = src
    · rw [same,setTerminator_self]
      exact .inr ⟨dst,h.edge he,rfl⟩
    · rw [setTerminator_other same]
      exact h.terminator b

end Kept

def Progress.Kept (F : Function O) : Progress O → Prop
  | running G => LLVM.Kept F G
  | finished G => LLVM.Kept F G
  | fatal => True

lemma kept_restart {sccs : SandboxPass.Function → List (List ℕ)} {F : Function O} {p : Progress O}
    (alive : restart sccs p ≠ .fatal) (h : p.Kept F) : (restart sccs p).Kept F := by
  cases p with
  | running G =>
    rcases restart_cases alive with ⟨next,_⟩ | ⟨_,_,_,next,_,_,_,_,edge⟩
    · rw [next]
      exact h
    · rw [next]
      exact Kept.setTerminator h edge
  | finished G => exact h
  | fatal => trivial

lemma kept_removeCyclesInFunction {sccs : SandboxPass.Function → List (List ℕ)} {F : Function O}
    (alive : ∀ n, removeCyclesInFunction sccs F n ≠ .fatal) (n : ℕ) :
    (removeCyclesInFunction sccs F n).Kept F := by
  induction n with
  | zero => exact Kept.refl F
  | succ n ih =>
    have going := alive (n+1)
    rw [removeCyclesInFunction,Function.iterate_succ_apply'] at going ⊢
    exact kept_restart going ih

section Loop

/-- A loop of a single block, with a PHI node in one of the blocks. -/
def loop (target : ℕ) (incoming : List (ℕ × ℕ)) : Function Empty where
  args := [0]
  entry := 0
  labels := [0,1,2]
  block b := {
    phis := if b = target then [⟨1,incoming.map fun e => (e.1,.constant e.2)⟩] else []
    terminator := match b with
      | 0 => .br 1
      | 1 => .condBr (.value 0) 1 2
      | _ => .ret [] }
  nextLabel := 3
  nextName := 2

variable {target : ℕ} {incoming : List (ℕ × ℕ)}

lemma mem_loop_labels {b : ℕ} : b ∈ (loop target incoming).labels ↔ b = 0 ∨ b = 1 ∨ b = 2 := by
  simp [loop]

lemma mem_loop_phis {b : ℕ} {phi : PHINode} (h : phi ∈ ((loop target incoming).block b).phis) :
    b = target ∧ phi = ⟨1,incoming.map fun e => (e.1,.constant e.2)⟩ := by
  simpa [loop] using h

lemma mem_loop_defs {b x : ℕ} (h : x ∈ (loop target incoming).defs b) : b = target ∧ x = 1 := by
  simpa [Function.defs,loop,eq_comm] using h

/-- Only the argument is used. -/
lemma loop_terminator {b x : ℕ}
    (h : .value x ∈ ((loop target incoming).block b).terminator.operands) : x = 0 := by
  match b with
  | 0 => simp [loop,Terminator.operands] at h
  | 1 => simpa [loop,Terminator.operands] using h
  | b+2 => simp [loop,Terminator.operands] at h

lemma loop_valid (sources : ∀ e ∈ incoming, e.1<3) : (loop target incoming).Valid := by
  constructor
  case distinct => simp [loop]
  case entry => simp [loop]
  case closed =>
    intro b hb
    rcases mem_loop_labels.mp hb with rfl | rfl | rfl <;>
      simp [loop,Function.successors,Terminator.successors]
  case labels => simp [loop]
  case incoming =>
    intro b hb phi hphi e he
    rw [(mem_loop_phis hphi).2] at he
    obtain ⟨e',he',rfl⟩ := List.mem_map.mp he
    exact sources e' he'
  case names =>
    intro b hb x hx
    rw [(mem_loop_defs hx).2]
    exact Nat.lt_succ_self 1
  case used =>
    intro b hb x hx
    rcases List.mem_append.mp hx with hx | hx
    · simp only [loop,List.flatMap_nil,List.append_nil,List.mem_flatMap] at hx
      obtain ⟨phi,hphi,hx⟩ := hx
      rw [(mem_loop_phis hphi).2] at hx
      simp at hx
    · rw [loop_terminator hx]
      exact Nat.zero_lt_two
  case args => simp [loop]
  case nodup =>
    intro b hb
    simp only [Function.defs,loop,List.map_nil,List.append_nil]
    split_ifs <;> simp
  case unique =>
    intro b hb c hc x hx hx'
    exact (mem_loop_defs hx).1.trans (mem_loop_defs hx').1.symm
  case apart =>
    intro b hb x hx
    rw [(mem_loop_defs hx).2]
    simp [loop]

lemma loop_wellFormed (sources : ∀ e ∈ incoming, e.1<3)
    (complete : (loop target incoming).Complete target
      ⟨1,incoming.map fun e => (e.1,.constant e.2)⟩) : (loop target incoming).WellFormed := by
  refine ⟨loop_valid sources,?_,?_,?_,?_⟩
  · intro b _ phi hphi
    obtain ⟨rfl,rfl⟩ := mem_loop_phis hphi
    exact complete
  · intro b _ i I hI
    cases hI
  · intro b _ x hx
    rw [loop_terminator hx]
    exact .inl List.mem_cons_self
  · intro b _ phi hphi e he _ x hx
    rw [(mem_loop_phis hphi).2] at he
    obtain ⟨e',_,rfl⟩ := List.mem_map.mp he
    cases hx

lemma loop_returns (sources : ∀ e ∈ incoming, e.1<3) (b : ℕ)
    (h : (loop target incoming).graph.Reachable b) : (loop target incoming).graph.Returns b := by
  have enter : (loop target incoming).graph.Edge 0 1 := List.mem_cons_self
  have exit : (loop target incoming).graph.Reaches 1 2 :=
    .single (List.mem_cons_of_mem _ List.mem_cons_self)
  have label : b ∈ (loop target incoming).labels := (loop_valid sources).graph_closed b h
  rcases mem_loop_labels.mp label with rfl | rfl | rfl
  · exact ⟨2,rfl,.head enter exit⟩
  · exact ⟨2,rfl,exit⟩
  · exact ⟨2,rfl,.refl⟩

lemma loop_successors_zero : (loop target incoming).successors 0 = [1] := rfl

lemma loop_successors_one : (loop target incoming).successors 1 = [1,2] := rfl

lemma loop_alive (sources : ∀ e ∈ incoming, e.1<3) (n : ℕ) :
    removeCyclesInFunction SandboxPass.components (loop target incoming) n ≠ .fatal :=
  removeCyclesInFunction_ne_fatal (fun _ => SandboxPass.components_sccs) (loop_valid sources)
    (loop_returns sources) n

/-- The PHI node of the exit keeps its entry. -/
def exitPhi : Function Empty := loop 2 [(1,0)]

lemma exitPhi_complete : exitPhi.Complete 2 ⟨1,[(1,.constant 0)]⟩ := by
  intro a
  match a with
  | 0 => rfl
  | 1 => rfl
  | 2 => rfl
  | a+3 => simp [exitPhi,loop]

lemma exitPhi_wellFormed : exitPhi.WellFormed := loop_wellFormed (by decide) exitPhi_complete

lemma exitPhi_kept {G : Function Empty} (kept : Kept exitPhi G) :
    (Progress.running G).KeepsPhis SandboxPass.components := by
  intro SCC src dst _ he t ht _ hphis
  obtain ⟨hsrc,hdst,edge⟩ := SandboxPass.findCriticalEdge_some he
  obtain ⟨phi,hphi⟩ := List.exists_mem_of_ne_nil _ hphis
  rw [kept.phis t] at hphi
  obtain ⟨rfl,-⟩ := mem_loop_phis hphi
  -- Only the loop has an edge to the exit, and its other edge is inside of the component.
  have source : src = 1 := by
    have old := kept.edge ht
    match src with
    | 0 => simp [Function.Edge,exitPhi,loop_successors_zero] at old
    | 1 => rfl
    | src+2 => cases old
  subst source
  have target : dst = 1 ∨ dst = 2 := by
    have old := kept.edge (graph_edge.mp edge)
    simpa [Function.Edge,exitPhi,loop_successors_one] using old
  refine ⟨(target.resolve_left fun same => hdst (same ▸ hsrc)).symm,?_⟩
  rw [Function.successors] at ht ⊢
  rcases kept.terminator 1 with same | ⟨t,_,same⟩
  · rw [same]
    rfl
  · rw [same] at ht ⊢
    rw [List.mem_singleton.mp ht]
    exact List.count_singleton_self ..

lemma exitPhi_keepsPhis (n : ℕ) :
    (removeCyclesInFunction SandboxPass.components exitPhi n).KeepsPhis SandboxPass.components := by
  have kept : (removeCyclesInFunction SandboxPass.components exitPhi n).Kept exitPhi :=
    kept_removeCyclesInFunction (loop_alive (by decide)) n
  cases h : removeCyclesInFunction SandboxPass.components exitPhi n with
  | running G =>
    rw [h] at kept
    exact exitPhi_kept kept
  | finished G => trivial
  | fatal => trivial

theorem sandboxPass_wellFormed_exitPhi : ∃ n F',
    removeCyclesInFunction SandboxPass.components exitPhi n = .finished F' ∧ F'.maskDivs.WellFormed := by
  obtain ⟨_,n,F',done,wf⟩ := sandboxPass_wellFormed SandboxPass.components
    (fun _ => SandboxPass.components_sccs) exitPhi exitPhi_wellFormed (loop_returns (by decide))
  exact ⟨n,F',done,wf exitPhi_keepsPhis⟩

/-- The PHI node of the loop loses the entry of the loop. -/
def loopPhi : Function Empty := loop 1 [(0,0),(1,1)]

lemma loopPhi_complete : loopPhi.Complete 1 ⟨1,[(0,.constant 0),(1,.constant 1)]⟩ := by
  intro a
  match a with
  | 0 => rfl
  | 1 => rfl
  | 2 => rfl
  | a+3 => simp [loopPhi,loop]

lemma loopPhi_kept {G : Function Empty} (kept : Kept loopPhi G) (acyclic : SandboxPass.Acyclic G.graph)
    (returns : G.graph.Returns 0) : ¬G.WellFormed := by
  intro wf
  obtain ⟨r,hr,path⟩ := returns
  have reachable : G.Reachable 1 := by
    rw [Function.Reachable,kept.entry]
    rcases path.cases_head with rfl | ⟨b,edge,_⟩
    · change (G.block 0).terminator.graph.isReturn = true at hr
      rcases kept.terminator 0 with same | ⟨t,_,same⟩
      · rw [same] at hr
        cases hr
      · rw [same] at hr
        cases hr
    · have old := kept.edge (graph_edge.mp edge)
      rw [Function.Edge,loopPhi,loop_successors_zero] at old
      rw [List.mem_singleton.mp old] at edge
      exact .single (graph_edge.mp edge)
  have lost : 1 ∉ G.successors 1 := by
    intro edge
    exact acyclic 1 (graph_reachable.mpr reachable) (.single (graph_edge.mpr edge))
  have complete := wf.complete 1 reachable ⟨1,[(0,.constant 0),(1,.constant 1)]⟩
    (kept.phis 1 ▸ List.mem_cons_self) 1
  rw [List.count_eq_zero.mpr lost,ite_self] at complete
  cases complete

lemma Kept.divs_eq_nil {target : ℕ} {incoming : List (ℕ × ℕ)} {G : Function Empty}
    (kept : Kept (loop target incoming) G) : G.divs = [] := by
  rw [Function.divs,List.flatMap_eq_nil_iff]
  intro b _
  rw [kept.body]
  rfl

theorem not_sandboxPass_wellFormed : loopPhi.WellFormed ∧
    (∀ b, loopPhi.graph.Reachable b → loopPhi.graph.Returns b) ∧
    ∃ n F', removeCyclesInFunction SandboxPass.components loopPhi n = .finished F' ∧
      ¬F'.maskDivs.WellFormed := by
  have wf : loopPhi.WellFormed := loop_wellFormed (by decide) loopPhi_complete
  have returns : ∀ b, loopPhi.graph.Reachable b → loopPhi.graph.Returns b := loop_returns (by decide)
  refine ⟨wf,returns,?_⟩
  obtain ⟨n,F',done,acyclic,reduces⟩ := exists_removeCyclesInFunction
    (fun _ => SandboxPass.components_sccs) wf.toValid returns
  have kept : (removeCyclesInFunction SandboxPass.components loopPhi n).Kept loopPhi :=
    kept_removeCyclesInFunction (loop_alive (by decide)) n
  rw [done] at kept
  refine ⟨n,F',done,?_⟩
  rw [Function.maskDivs,Kept.divs_eq_nil kept]
  exact loopPhi_kept kept acyclic (reduces.returns 0 .refl)

end Loop

end ProteanAmulet.LLVM
