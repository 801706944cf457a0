import ProteanAmulet.Sandbox.Traps

/-! Functions whose blocks do the same with more instructions. Every instruction is replaced by some that
end in its effect; others stand in front of the first block and in front of the terminators. -/
namespace ProteanAmulet.LLVM
open Simulation Relation
variable {O M : Type}

/-- Instructions one after the other; `none` is a trap. -/
def execBody (meaning : Meaning O M) (guarded : ℕ → Bool) :
    List (Instruction O) → (ℕ → ℕ) → M → Option ((ℕ → ℕ) × M)
  | [], values, memory => some (values,memory)
  | I :: body, values, memory => do
    let (v,memory) ← I.operation.exec meaning (guarded I.result) values memory
    execBody meaning guarded body (Function.update values I.result v) memory

section Bodies
variable {meaning : Meaning O M} {guarded : ℕ → Bool} {G : Function O} {b : ℕ}
  {l post : List (Instruction O)} {values values' : ℕ → ℕ} {memory memory' : M}

/-- A stretch of a block is run to its end. -/
lemma reaches_execBody {pre : List (Instruction O)} (hb : (G.block b).body = pre ++ l ++ post)
    (h : execBody meaning guarded l values memory = some (values',memory')) :
    ReflTransGen (Next (step meaning G guarded)) ⟨b,pre.length,values,memory⟩
      ⟨b,pre.length+l.length,values',memory'⟩ := by
  induction l generalizing pre values memory with
  | nil =>
    cases h
    exact .refl
  | cons I l ih =>
    obtain ⟨⟨v,memory₁⟩,hI,h⟩ := Option.bind_eq_some_iff.mp h
    have here : (G.block b).body[pre.length]? = some I := by
      rw [hb]
      simp
    have next : Next (step meaning G guarded) ⟨b,pre.length,values,memory⟩
        ⟨b,pre.length+1,Function.update values I.result v,memory₁⟩ := by
      rw [Next,step]
      dsimp only
      rw [here]
      dsimp only
      rw [hI]
    have split : (G.block b).body = (pre ++ [I]) ++ l ++ post := by
      rw [hb]
      simp
    have rest := ih split h
    rw [List.length_append,List.length_singleton] at rest
    rw [List.length_cons,Nat.add_comm l.length,← Nat.add_assoc]
    exact .head next rest

end Bodies

/-- The values of two functions agree on the names of the first one, and the others are good. -/
structure Keeps (F : Function O) (Good : (ℕ → ℕ) → Prop) (values values' : ℕ → ℕ) : Prop where
  old : ∀ x<F.nextName, values' x = values x
  good : Good values'

section Pieces
variable (meaning meaning' : Meaning O M) (guarded : ℕ → Bool) (F : Function O)
  (Good : (ℕ → ℕ) → Prop)

/-- The instructions do what `I` does. -/
structure Piece (I : Instruction O) (l : List (Instruction O)) : Prop where
  nonempty : l ≠ []
  runs : ∀ values values' memory v memory₁, Keeps F Good values values' →
    I.operation.exec meaning (guarded I.result) values memory = some (v,memory₁) →
    ∃ values₁, execBody meaning' guarded l values' memory = some (values₁,memory₁) ∧
      Keeps F Good (Function.update values I.result v) values₁
  traps : ∀ values values' memory, Keeps F Good values values' →
    I.operation.exec meaning (guarded I.result) values memory = none →
    ∃ J rest, l = J :: rest ∧ J.operation.exec meaning' (guarded J.result) values' memory = none

/-- The instructions have no effect. -/
def Idle (l : List (Instruction O)) : Prop :=
  ∀ values values' memory, Keeps F Good values values' →
    ∃ values₁, execBody meaning' guarded l values' memory = some (values₁,memory) ∧
      Keeps F Good values values₁

/-- The second body does what the first one does. -/
def Expands (body body' : List (Instruction O)) : Prop :=
  ∃ pieces rest, body' = pieces.flatten ++ rest ∧ Idle meaning' guarded F Good rest ∧
    List.Forall₂ (Piece meaning meaning' guarded F Good) body pieces

/-- `G` does what `F` does. Its first block has other instructions in front, which lead from the values
of a call to good ones. -/
structure Expansion (G : Function O) (values : ℕ → ℕ) : Prop where
  entry : G.entry = F.entry
  unentered : ∀ b ∈ F.labels, F.entry ∉ F.successors b
  target : meaning'.target = meaning.target
  stable : ∀ v w, (∀ x, F.nextName ≤ x → w x = v x) → Good v → Good w
  phis : ∀ b ∈ F.labels, (G.block b).phis = (F.block b).phis
  terminator : ∀ b ∈ F.labels, (G.block b).terminator = (F.block b).terminator
  inner : ∀ b ∈ F.labels, b ≠ F.entry →
    Expands meaning meaning' guarded F Good (F.block b).body (G.block b).body
  first : ∃ lead rest, (G.block F.entry).body = lead ++ rest ∧
    Expands meaning meaning' guarded F Good (F.block F.entry).body rest ∧
    ∀ memory : M, ∃ values', execBody meaning' guarded lead values memory = some (values',memory) ∧
      Keeps F Good values values'

end Pieces

/-- A state of a function and one of its expansion, in front of the instructions for the same place. -/
structure Ahead (meaning meaning' : Meaning O M) (guarded : ℕ → Bool) (F G : Function O)
    (Good : (ℕ → ℕ) → Prop) (s s' : State M) : Prop where
  mem : s.block ∈ F.labels
  block : s'.block = s.block
  memory : s'.memory = s.memory
  values : Keeps F Good s.values s'.values
  code : ∃ before rest, (G.block s.block).body = before ++ rest ∧ s'.pc = before.length ∧
    Expands meaning meaning' guarded F Good ((F.block s.block).body.drop s.pc) rest

section Expansions
variable {meaning meaning' : Meaning O M} {guarded : ℕ → Bool} {F G : Function O}
  {Good : (ℕ → ℕ) → Prop} {values values' values₀ : ℕ → ℕ} {memory : M} {s s' : State M}

lemma Keeps.eval (h : Keeps F Good values values') {o : Operand}
    (ho : ∀ x, o = .value x → x<F.nextName) : o.eval values' = o.eval values := by
  cases o with
  | value x => exact h.old x (ho x rfl)
  | constant bits => rfl

lemma Keeps.evals (h : Keeps F Good values values') {os : List Operand}
    (ho : ∀ x, .value x ∈ os → x<F.nextName) : os.map (·.eval values') = os.map (·.eval values) :=
  List.map_congr_left fun _ hmem => h.eval fun x hx => ho x (hx ▸ hmem)

/-- An instruction that is not touched. -/
lemma Keeps.operation (h : Keeps F Good values values') (meaning : Meaning O M) (memory : M)
    {op : Operation O} (ho : ∀ x, .value x ∈ op.operands → x<F.nextName) (guarded : Bool) :
    op.exec meaning guarded values' memory = op.exec meaning guarded values memory := by
  cases op with
  | div d width dividend divisor =>
    have first := h.eval (o := dividend) fun x hx => ho x (by simp [Operation.operands,hx])
    have second := h.eval (o := divisor) fun x hx => ho x (by simp [Operation.operands,hx])
    simp only [Operation.exec,first,second]
  | icmpEq width lhs rhs =>
    have first := h.eval (o := lhs) fun x hx => ho x (by simp [Operation.operands,hx])
    have second := h.eval (o := rhs) fun x hx => ho x (by simp [Operation.operands,hx])
    simp only [Operation.exec,first,second]
  | other opcode operands =>
    have all : operands.map (·.eval values') = operands.map (·.eval values) := h.evals ho
    simp only [Operation.exec,all]

lemma Keeps.terminator (h : Keeps F Good values values') (target : meaning'.target = meaning.target)
    (memory : M) {T : Terminator O} (hT : ∀ x, .value x ∈ T.operands → x<F.nextName) :
    T.exec meaning' values' memory = T.exec meaning values memory := by
  cases T with
  | ret operands =>
    have all : operands.map (·.eval values') = operands.map (·.eval values) := h.evals hT
    simp only [Terminator.exec,all]
  | br target => rfl
  | condBr condition ifTrue ifFalse =>
    have same := h.eval (o := condition) fun x hx => hT x (by simp [Terminator.operands,hx])
    simp only [Terminator.exec,same]
  | other opcode operands targets =>
    have all : operands.map (·.eval values') = operands.map (·.eval values) := h.evals hT
    simp only [Terminator.exec,all,target]

lemma Keeps.phi (h : Keeps F Good values values') {phi : PHINode} {source : ℕ}
    (hphi : ∀ e ∈ phi.incoming, ∀ x, e.2 = .value x → x<F.nextName) :
    phi.eval source values' = phi.eval source values := by
  rw [PHINode.eval,PHINode.eval]
  cases he : phi.incoming.find? (·.1 = source) with
  | none => rfl
  | some e => exact h.eval (hphi e (List.mem_of_find?_eq_some he))

/-- The PHI nodes of a block that is entered. -/
lemma Keeps.enter (h : Keeps F Good s.values s'.values) (valid : F.Valid)
    (stable : ∀ v w, (∀ x, F.nextName ≤ x → w x = v x) → Good v → Good w)
    (block : s'.block = s.block) {target : ℕ} (ht : target ∈ F.labels)
    (phis : (G.block target).phis = (F.block target).phis) :
    Keeps F Good (s.enter F target).values (s'.enter G target).values := by
  have used : ∀ phi ∈ (F.block target).phis, ∀ e ∈ phi.incoming, ∀ x, e.2 = .value x →
      x<F.nextName := by
    intro phi hphi e he x hx
    refine valid.used target ht x (List.mem_append_left _ (List.mem_append_left _ ?_))
    exact List.mem_flatMap.mpr ⟨phi,hphi,List.mem_map.mpr ⟨e,he,hx⟩⟩
  refine ⟨fun x hx => ?_,stable s'.values _ (fun x hx => ?_) h.good⟩
  · simp only [State.enter,phis]
    cases hfind : (F.block target).phis.find? (·.result = x) with
    | none => exact h.old x hx
    | some phi =>
      rw [block]
      exact h.phi (used phi (List.mem_of_find?_eq_some hfind))
  · simp only [State.enter,phis]
    cases hfind : (F.block target).phis.find? (·.result = x) with
    | none => rfl
    | some phi =>
      have result : phi.result = x := by simpa using List.find?_some hfind
      have named := valid.names target ht phi.result
        (List.mem_append_left _ (List.mem_map.mpr ⟨phi,List.mem_of_find?_eq_some hfind,rfl⟩))
      omega

/-- Both values are set. -/
lemma Keeps.update (h : Keeps F Good values values')
    (stable : ∀ v w, (∀ x, F.nextName ≤ x → w x = v x) → Good v → Good w) {x : ℕ}
    (hx : x<F.nextName) (v : ℕ) :
    Keeps F Good (Function.update values x v) (Function.update values' x v) where
  old y hy := by
    by_cases same : y = x
    · simp [same]
    · simp [same,h.old y hy]
  good := by
    refine stable values' _ (fun y hy => Function.update_of_ne ?_ _ _) h.good
    omega

/-- A new value is set. -/
lemma Keeps.extend (h : Keeps F Good values values') {x v : ℕ} (hx : F.nextName ≤ x)
    (good : Good (Function.update values' x v)) : Keeps F Good values (Function.update values' x v) where
  old y hy := by
    rw [Function.update_of_ne (by omega),h.old y hy]
  good := good

/-- An instruction that means the same stays. -/
lemma Piece.same (stable : ∀ v w, (∀ x, F.nextName ≤ x → w x = v x) → Good v → Good w)
    {I : Instruction O} (hI : I.result<F.nextName)
    (used : ∀ x, .value x ∈ I.operation.operands → x<F.nextName)
    (means : ∀ values memory, I.operation.exec meaning' (guarded I.result) values memory =
      I.operation.exec meaning (guarded I.result) values memory) :
    Piece meaning meaning' guarded F Good I [I] where
  nonempty := List.cons_ne_nil _ _
  runs values values' memory v memory₁ keeps h := by
    refine ⟨Function.update values' I.result v,?_,keeps.update stable hI v⟩
    simp only [execBody,keeps.operation meaning' memory used,means,h]
    rfl
  traps values values' memory keeps h :=
    ⟨I,[],rfl,by rw [keeps.operation meaning' memory used,means,h]⟩

lemma step_instruction {I : Instruction O} (hI : (F.block s.block).body[s.pc]? = some I) :
    step meaning F guarded s = match I.operation.exec meaning (guarded I.result) s.values s.memory with
      | some (v,memory) =>
        .running { s with pc := s.pc+1, values := Function.update s.values I.result v, memory }
      | none => .stopped .trapped := by
  rw [step]
  exact hI ▸ rfl

lemma step_terminator (hI : (F.block s.block).body[s.pc]? = none) :
    step meaning F guarded s = match (F.block s.block).terminator.exec meaning s.values s.memory with
      | .running target => .running (s.enter F target)
      | .stopped exit => .stopped exit := by
  rw [step]
  exact hI ▸ rfl

namespace Ahead

/-- The instructions that stand for the next one. -/
lemma piece (rel : Ahead meaning meaning' guarded F G Good s s') {I : Instruction O}
    (hI : (F.block s.block).body[s.pc]? = some I) : ∃ before l rest, s'.pc = before.length ∧
      (G.block s'.block).body = before ++ l ++ rest ∧ Piece meaning meaning' guarded F Good I l ∧
      Expands meaning meaning' guarded F Good ((F.block s.block).body.drop (s.pc+1)) rest := by
  obtain ⟨before,_,hbody,hpc,pieces,tail,rfl,idle,hpieces⟩ := rel.code
  have split : (F.block s.block).body.drop s.pc = I :: (F.block s.block).body.drop (s.pc+1) := by
    obtain ⟨hlt,rfl⟩ := List.getElem?_eq_some_iff.mp hI
    exact List.drop_eq_getElem_cons hlt
  rw [split] at hpieces
  obtain ⟨l,pieces',piece,hrest,rfl⟩ := List.forall₂_cons_left_iff.mp hpieces
  refine ⟨before,l,pieces'.flatten ++ tail,hpc,?_,piece,pieces',tail,rfl,idle,hrest⟩
  rw [rel.block,hbody]
  simp

/-- Where the next instruction traps, those that stand for it do. -/
lemma trapped (rel : Ahead meaning meaning' guarded F G Good s s') {I : Instruction O}
    (hI : (F.block s.block).body[s.pc]? = some I)
    (hex : I.operation.exec meaning (guarded I.result) s.values s.memory = none) :
    step meaning' G guarded s' = .stopped .trapped := by
  obtain ⟨before,l,rest,hpc,here,piece,-⟩ := rel.piece hI
  obtain ⟨J,l,rfl,trap⟩ := piece.traps _ _ _ rel.values hex
  have next : (G.block s'.block).body[s'.pc]? = some J := by
    rw [here,hpc]
    simp
  rw [step_instruction next,rel.memory,trap]

/-- Otherwise they are run. -/
lemma instruction (rel : Ahead meaning meaning' guarded F G Good s s') {I : Instruction O}
    (hI : (F.block s.block).body[s.pc]? = some I) {v : ℕ} {memory₁ : M}
    (hex : I.operation.exec meaning (guarded I.result) s.values s.memory = some (v,memory₁)) :
    ∃ t', TransGen (Next (step meaning' G guarded)) s' t' ∧ Ahead meaning meaning' guarded F G Good
      ⟨s.block,s.pc+1,Function.update s.values I.result v,memory₁⟩ t' := by
  obtain ⟨before,l,rest,hpc,here,piece,later⟩ := rel.piece hI
  obtain ⟨values₁,hrun,keeps⟩ := piece.runs _ _ _ _ _ rel.values hex
  have reached := reaches_execBody here hrun
  have start : (⟨s'.block,before.length,s'.values,s.memory⟩ : State M) = s' := by
    rw [← hpc,← rel.memory]
  rw [start] at reached
  refine ⟨⟨s'.block,before.length+l.length,values₁,memory₁⟩,?_,rel.mem,rel.block,rfl,keeps,
    before ++ l,rest,by rw [← rel.block]; exact here,by simp,later⟩
  rcases reflTransGen_iff_eq_or_transGen.mp reached with same | steps
  · have positive := List.length_pos_iff.mpr piece.nonempty
    have pcs := congrArg State.pc same
    dsimp only at pcs
    omega
  · exact steps

/-- Behind the last instruction, those in front of the terminator are run. -/
lemma finishes (rel : Ahead meaning meaning' guarded F G Good s s')
    (hI : (F.block s.block).body[s.pc]? = none) : ∃ u,
      ReflTransGen (Next (step meaning' G guarded)) s' u ∧ u.block = s.block ∧ u.memory = s.memory ∧
      Keeps F Good s.values u.values ∧ (G.block u.block).body[u.pc]? = none := by
  obtain ⟨before,_,hbody,hpc,pieces,tail,rfl,idle,hpieces⟩ := rel.code
  rw [List.drop_eq_nil_of_le (List.getElem?_eq_none_iff.mp hI)] at hpieces
  cases hpieces
  obtain ⟨values₁,hrun,keeps⟩ := idle _ _ s.memory rel.values
  have whole : (G.block s.block).body = before ++ tail ++ [] := by
    rw [hbody]
    simp
  have reached := reaches_execBody whole hrun
  have start : (⟨s.block,before.length,s'.values,s.memory⟩ : State M) = s' := by
    rw [← hpc,← rel.memory,← rel.block]
  rw [start] at reached
  refine ⟨_,reached,rfl,rfl,keeps,?_⟩
  dsimp only
  rw [whole]
  simp

end Ahead

namespace Expansion
variable (h : Expansion meaning meaning' guarded F Good G values₀) (valid : F.Valid)
include h

lemma ahead_init (valid : F.Valid) (memory : M) (hvalues : (init F values memory).values = values₀)
    (hG : G.args = F.args) :
    ∃ s', ReflTransGen (Next (step meaning' G guarded)) (init G values memory) s' ∧
      s'.memory = memory ∧
      Ahead meaning meaning' guarded F G Good (init F values memory) s' := by
  obtain ⟨lead,rest,hbody,expands,runs⟩ := h.first
  obtain ⟨values₁,hrun,keeps⟩ := runs memory
  have same : (init G values memory).values = values₀ := by
    rw [← hvalues]
    simp only [init,hG]
  have here : (G.block F.entry).body = [] ++ lead ++ rest := hbody
  have reached := reaches_execBody here hrun
  refine ⟨⟨F.entry,lead.length,values₁,memory⟩,?_,rfl,valid.entry,rfl,rfl,?_,lead,rest,hbody,rfl,expands⟩
  · have start : init G values memory = ⟨F.entry,0,values₀,memory⟩ := by
      rw [← same,← h.entry]
      rfl
    rw [start]
    simpa using reached
  · rw [hvalues]
    exact keeps

include valid

/-- A terminator does the same in both functions. -/
lemma step_jump (rel : Ahead meaning meaning' guarded F G Good s s')
    (hI : (F.block s.block).body[s.pc]? = none) : ∃ u,
      ReflTransGen (Next (step meaning' G guarded)) s' u ∧ u.block = s.block ∧ u.memory = s.memory ∧
      Keeps F Good s.values u.values ∧
      step meaning' G guarded u =
        match (F.block s.block).terminator.exec meaning s.values s.memory with
        | .running target => .running (u.enter G target)
        | .stopped exit => .stopped exit := by
  obtain ⟨u,reached,block,memory,keeps,last⟩ := rel.finishes hI
  refine ⟨u,reached,block,memory,keeps,?_⟩
  rw [step_terminator last,block,memory,h.terminator _ rel.mem,
    keeps.terminator h.target s.memory (valid.used_terminator rel.mem)]

lemma step_ahead (rel : Ahead meaning meaning' guarded F G Good s s') :
    (∀ t, step meaning F guarded s = .running t →
      ∃ t', TransGen (Next (step meaning' G guarded)) s' t' ∧
        Ahead meaning meaning' guarded F G Good t t') ∧
    ∀ o, step meaning F guarded s = .stopped o →
      ∃ t', ReflTransGen (Next (step meaning' G guarded)) s' t' ∧ t'.memory = s.memory ∧
        step meaning' G guarded t' = .stopped o := by
  cases hI : (F.block s.block).body[s.pc]? with
  | some I =>
    rw [step_instruction hI]
    cases hex : I.operation.exec meaning (guarded I.result) s.values s.memory with
    | none =>
      refine ⟨fun t ht => (by cases ht),fun o ho => ?_⟩
      cases ho
      exact ⟨s',.refl,rel.memory,rel.trapped hI hex⟩
    | some r =>
      refine ⟨fun t ht => ?_,fun o ho => (by cases ho)⟩
      cases ht
      exact rel.instruction hI hex
  | none =>
    obtain ⟨u,reached,block,memory,keeps,jump⟩ := h.step_jump valid rel hI
    rw [step_terminator hI]
    cases hT : (F.block s.block).terminator.exec meaning s.values s.memory with
    | stopped exit =>
      rw [hT] at jump
      refine ⟨fun t ht => (by cases ht),fun o ho => ?_⟩
      cases ho
      exact ⟨u,reached,memory,jump⟩
    | running target =>
      rw [hT] at jump
      refine ⟨fun t ht => ?_,fun o ho => (by cases ho)⟩
      cases ht
      have successor := Terminator.exec_mem hT
      have inside := valid.closed _ rel.mem target successor
      have inner : target ≠ F.entry := fun same => h.unentered _ rel.mem (same ▸ successor)
      refine ⟨_,TransGen.tail' reached jump,inside,rfl,memory,?_,[],_,rfl,rfl,
        h.inner target inside inner⟩
      exact keeps.enter valid h.stable block inside (h.phis target inside)

lemma simulates : Simulates (step meaning F guarded) (step meaning' G guarded)
    (Ahead meaning meaning' guarded F G Good) where
  running s s' t rel ht := (h.step_ahead valid rel).1 t ht
  stopped s s' o rel ho := by
    obtain ⟨t',ht',-,hstop⟩ := (h.step_ahead valid rel).2 o ho
    exact ⟨t',ht',hstop⟩

/-- Both functions have the same outcomes. -/
lemma ends_iff (hvalues : (init F values memory).values = values₀) (hG : G.args = F.args)
    {o : Exit M} : Ends (step meaning' G guarded) (init G values memory) o ↔
      Ends (step meaning F guarded) (init F values memory) o := by
  obtain ⟨s',hs',-,rel⟩ := h.ahead_init valid memory hvalues hG
  rw [(h.simulates valid).ends_iff rel]
  exact ⟨fun ends => ends.along hs',fun ends => ends.after hs'⟩

/-- What holds of the memory all along the runs of the function holds along those of its expansion. -/
lemma always {P : M → Prop} (hvalues : (init F values memory).values = values₀)
    (hG : G.args = F.args)
    (lost : ∀ x y, Next (step meaning' G guarded) x y → P y.memory → P x.memory)
    (all : ∀ s, ReflTransGen (Next (step meaning F guarded)) (init F values memory) s → P s.memory)
    {x : State M} (hx : ReflTransGen (Next (step meaning' G guarded)) (init G values memory) x) :
    P x.memory := by
  obtain ⟨s',hs',-,rel⟩ := h.ahead_init valid memory hvalues hG
  have later : ∀ {y}, ReflTransGen (Next (step meaning' G guarded)) s' y → P y.memory := by
    intro y hy
    refine (h.simulates valid).always (P := fun s => P s.memory) lost ?_ ?_ rel hy
    · intro t t' ht hrel
      rw [hrel.memory]
      exact all t ht
    · intro t t' o ht hrel ho
      obtain ⟨u,hu,same,hstop⟩ := (h.step_ahead valid hrel).2 o ho
      refine ⟨u,hu,hstop,?_⟩
      rw [same]
      exact all t ht
  rcases ReflTransGen.total_of_right_unique (rightUnique_next _) hx hs' with before | after
  · exact sticky (P := fun s => P s.memory) lost before (later .refl)
  · exact later after

end Expansion

end Expansions

end ProteanAmulet.LLVM
