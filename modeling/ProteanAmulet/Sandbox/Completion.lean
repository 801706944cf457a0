import Mathlib.Data.Finset.Card
import Mathlib.Data.Fintype.Basic
import ProteanAmulet.Sandbox.Confinement

/-! The sandbox pass with its cycle removal. A function without cycles ends, so the function that the
pass leaves ends too, whatever it is called with. -/
namespace ProteanAmulet.LLVM
open Simulation Relation
variable {O M : Type}

section Acyclic
variable {meaning : Meaning O M} {F : Function O} {guarded : ℕ → Bool}

/-- A step goes on in its block, or along an edge. -/
lemma next_cases {s t : State M} (h : Next (step meaning F guarded) s t) :
    (t.block = s.block ∧ s.pc<(F.block s.block).body.length ∧ t.pc = s.pc+1) ∨
      F.Edge s.block t.block := by
  rw [Next,step] at h
  cases hI : (F.block s.block).body[s.pc]? with
  | some I =>
    rw [hI] at h
    dsimp only at h
    split at h
    · cases h
      exact .inl ⟨rfl,(List.getElem?_eq_some_iff.mp hI).1,rfl⟩
    · cases h
  | none =>
    rw [hI] at h
    dsimp only at h
    split at h
    · rename_i target hT
      cases h
      exact .inr (Terminator.exec_mem hT)
    · cases h

/-- No block that can be reached is on a cycle. -/
def Function.Acyclic (F : Function O) : Prop := ∀ b, F.Reachable b → ¬TransGen F.Edge b b

open Classical in
/-- The blocks that a block leads to. -/
noncomputable def Function.behind (F : Function O) (b : ℕ) : Finset ℕ :=
  F.labels.toFinset.filter fun c => TransGen F.Edge b c

variable (valid : F.Valid) (acyclic : F.Acyclic)
include valid acyclic

open Classical in
lemma behind_lt {b c : ℕ} (hb : F.Reachable b) (edge : F.Edge b c) :
    (F.behind c).card<(F.behind b).card := by
  have hc : F.Reachable c := hb.tail edge
  have fewer : F.behind c ⊆ F.behind b := by
    intro d hd
    obtain ⟨mem,walk⟩ := Finset.mem_filter.mp hd
    exact Finset.mem_filter.mpr ⟨mem,.head edge walk⟩
  have here : c ∈ F.behind b :=
    Finset.mem_filter.mpr ⟨List.mem_toFinset.mpr (valid.reachable_mem hc),.single edge⟩
  apply Finset.card_lt_card
  rw [Finset.ssubset_iff_of_subset fewer]
  exact ⟨c,here,fun again => acyclic c hc (Finset.mem_filter.mp again).2⟩

/-- The blocks ahead become fewer, and inside of a block the instructions. -/
lemma acc_step {s : State M} (hs : F.Reachable s.block) :
    Acc (fun y x => Next (step meaning F guarded) x y) s := by
  induction hm : (F.behind s.block).card using Nat.strongRecOn generalizing s with
  | _ m inner =>
    induction hk : (F.block s.block).body.length-s.pc using Nat.strongRecOn generalizing s with
    | _ k rest =>
      constructor
      intro t ht
      rcases next_cases ht with ⟨same,hlt,hpc⟩ | edge
      · have shorter : (F.block t.block).body.length-t.pc<k := by
          rw [same]
          omega
        refine rest _ shorter ?_ ?_ rfl
        · rwa [same]
        · rwa [same]
      · have fewer := behind_lt valid acyclic hs edge
        rw [hm] at fewer
        exact inner _ fewer (hs.tail edge) rfl

/-- A function without cycles ends. -/
lemma ends_of_acyclic (args : ℕ → ℕ) (memory : M) :
    ∃ o, Ends (step meaning F guarded) (init F args memory) o :=
  exists_ends (acc_step valid acyclic .refl)

end Acyclic

section Restarts
variable {sccs : SandboxPass.Function → List (List ℕ)} {F : Function O} {P : Function O → Prop}

/-- The function that the cycle removal has got to has a property. -/
def Progress.Holds (P : Function O → Prop) : Progress O → Prop
  | running F => P F
  | finished F => P F
  | fatal => True

variable (keeps : ∀ {G : Function O} {src dst : ℕ}, G.Edge src dst → P G →
  P (G.setTerminator src (.br dst)))
include keeps

lemma holds_restart {p : Progress O} (alive : restart sccs p ≠ .fatal) (h : p.Holds P) :
    (restart sccs p).Holds P := by
  cases p with
  | running G =>
    rcases restart_cases alive with ⟨next,_⟩ | ⟨_,_,_,next,_,_,_,_,edge⟩
    · rw [next]
      exact h
    · rw [next]
      exact keeps edge h
  | finished G => exact h
  | fatal => trivial

/-- What a rewrite of the cycle removal keeps holds at its end. -/
lemma holds_removeCyclesInFunction (alive : ∀ n, removeCyclesInFunction sccs F n ≠ .fatal) (h : P F)
    (n : ℕ) : (removeCyclesInFunction sccs F n).Holds P := by
  induction n with
  | zero => exact h
  | succ n ih =>
    have going := alive (n+1)
    rw [removeCyclesInFunction,Function.iterate_succ_apply'] at going ⊢
    exact holds_restart keeps going ih

end Restarts

/-- What `runOnFunction` needs of a function, and what the cycle removal keeps. -/
structure Admitted (accesses : O → Bool) (args : List ℕ) (F : Function (AccessOp O)) : Prop where
  valid : F.Valid
  unentered : F.Unentered
  args_eq : F.args = args
  handled : F.handled accesses

lemma handled_setTerminator {accesses : O → Bool} {F : Function (AccessOp O)} {src dst : ℕ}
    (h : F.handled accesses) : (F.setTerminator src (.br dst)).handled accesses := by
  rw [Function.handled,List.all_eq_true] at h ⊢
  intro b hb
  have old := h b hb
  by_cases same : b = src
  · rw [same,setTerminator_self]
    rw [same] at old
    dsimp only
    rw [Bool.and_true]
    exact (Bool.and_eq_true_iff.mp old).1
  · rw [setTerminator_other same]
    exact old

lemma Admitted.setTerminator {accesses : O → Bool} {args : List ℕ} {F : Function (AccessOp O)}
    {src dst : ℕ} (edge : F.Edge src dst) (h : Admitted accesses args F) :
    Admitted accesses args (F.setTerminator src (.br dst)) where
  valid := valid_setTerminator edge h.valid
  unentered b hb enters := h.unentered b hb (edge_of_setTerminator edge enters)
  args_eq := h.args_eq
  handled := handled_setTerminator h.handled

/-- A masked pointer is at most the mask away from the base. -/
lemma Inside.offset {base mask : ℕ} {memory : M × List ℕ} (h : Inside base mask memory) :
    ∀ a ∈ memory.2, ∃ offset ≤ mask, a = (base+offset) % 2^64 := by
  intro a ha
  obtain ⟨p,rfl⟩ := h a ha
  exact ⟨p % 2^64 &&& mask,Nat.and_le_right,by rw [masked,Nat.add_comm]⟩

/-- `runOnFunction` as a whole. It comes to an end. The function that it leaves ends on every call, with
the outcome that its pointers are masked and its divisions by zero give zero, and accesses nothing but
the sandbox. -/
theorem runOnFunction_safe (sccs : SandboxPass.Function → List (List ℕ))
    (hsccs : ∀ F : SandboxPass.Function, F.Closed → SandboxPass.SCCs F (sccs F))
    {accesses : O → Bool} {base mask : ℕ} {rest : List ℕ} {F : Function (AccessOp O)}
    (admitted : Admitted accesses (base :: mask :: rest) F)
    (returns : ∀ b, F.graph.Reachable b → F.graph.Returns b) :
    ∃ n F' G, removeCyclesInFunction sccs F n = .finished F' ∧ F'.sandbox accesses = some G ∧
      ∀ (meaning : Meaning O M) (args : ℕ → ℕ) (memory : M),
        (∃ o, Ends (step meaning.logged G fun _ => false) (init G args (memory,[])) o ∧
          Ends (step (meaning.sandboxed (args base % 2^64) (args mask % 2^64)) F' fun _ => true)
            (init F' args (memory,[])) o) ∧
        ∀ s, ReflTransGen (Next (step meaning.logged G fun _ => false))
          (init G args (memory,[])) s → ∀ a ∈ s.memory.2, ∃ offset ≤ args mask % 2^64,
            a = (args base % 2^64+offset) % 2^64 := by
  obtain ⟨n,F',done,acyclic,-⟩ := exists_removeCyclesInFunction hsccs admitted.valid returns
  have kept := holds_removeCyclesInFunction Admitted.setTerminator
    (removeCyclesInFunction_ne_fatal hsccs admitted.valid returns) admitted n
  rw [done] at kept
  have kept : Admitted accesses (base :: mask :: rest) F' := kept
  have sandboxed : ∃ G, F'.sandbox accesses = some G := by
    rw [Function.sandbox,kept.args_eq]
    dsimp only
    rw [if_pos kept.handled]
    exact ⟨_,rfl⟩
  obtain ⟨G,hG⟩ := sandboxed
  have straight : F'.Acyclic := by
    intro b hb cycle
    refine acyclic b (graph_reachable.mpr hb) ?_
    exact TransGen.mono (fun _ _ => graph_edge.mpr) _ _ cycle
  refine ⟨n,F',G,done,hG,fun meaning args memory => ?_⟩
  have start : F'.sandboxBase args = args base % 2^64 := by
    simp [Function.sandboxBase,kept.args_eq]
  have size : F'.sandboxMask args = args mask % 2^64 := by
    simp [Function.sandboxMask,kept.args_eq]
  rw [← start,← size]
  refine ⟨?_,fun s hs => ?_⟩
  · have final : ∃ o, Ends (step (meaning.sandboxed (F'.sandboxBase args) (F'.sandboxMask args)) F'
        fun _ => true) (init F' args (memory,[])) o := ends_of_acyclic kept.valid straight args _
    obtain ⟨o,ends⟩ := final
    exact ⟨o,(sandbox_ends_iff kept.valid kept.unentered hG meaning args _ o).mpr ends,ends⟩
  · exact (sandbox_confined kept.valid kept.unentered hG meaning args memory hs).offset

lemma polling_admitted : Admitted (fun _ => false) [0,1] polling where
  valid := polling_valid
  unentered := polling_unentered
  args_eq := rfl
  handled := by decide

lemma polling_returns {b : ℕ} (h : polling.graph.Reachable b) : polling.graph.Returns b := by
  have inside := polling_valid.reachable_mem (graph_reachable.mp h)
  have last : polling.graph.Returns 2 := ⟨2,rfl,.refl⟩
  have step {a c : ℕ} (edge : polling.graph.Edge a c) (hc : polling.graph.Returns c) :
      polling.graph.Returns a := by
    obtain ⟨r,hr,walk⟩ := hc
    exact ⟨r,hr,.head edge walk⟩
  have second : polling.graph.Returns 1 := step (by decide) last
  simp only [polling,List.mem_cons,List.not_mem_nil,or_false] at inside
  rcases inside with rfl | rfl | rfl
  · exact step (by decide) second
  · exact second
  · exact last

theorem runOnFunction_safe_polling : ∃ n F' G,
    removeCyclesInFunction SandboxPass.components polling n = .finished F' ∧
      F'.sandbox (fun _ => false) = some G ∧
      ∀ (meaning : Meaning Unit Unit) (args : ℕ → ℕ) (memory : Unit),
        (∃ o, Ends (step meaning.logged G fun _ => false) (init G args (memory,[])) o ∧
          Ends (step (meaning.sandboxed (args 0 % 2^64) (args 1 % 2^64)) F' fun _ => true)
            (init F' args (memory,[])) o) ∧
        ∀ s, ReflTransGen (Next (step meaning.logged G fun _ => false))
          (init G args (memory,[])) s → ∀ a ∈ s.memory.2, ∃ offset ≤ args 1 % 2^64,
            a = (args 0 % 2^64+offset) % 2^64 :=
  runOnFunction_safe SandboxPass.components (fun _ => SandboxPass.components_sccs) polling_admitted
    fun _ => polling_returns

end ProteanAmulet.LLVM
