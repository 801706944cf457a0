import ProteanAmulet.Generator.Reading
import ProteanAmulet.Postprocessor

/-! When the candidates that `add_fences` builds can be parsed again. A fence is no terminator, so
that it must not stand behind the terminators of a block. -/
namespace ProteanAmulet.Postprocessor
open Generator Generator.X86Generator Drawing Text

/-- The instruction set has fences, and they are as in the manual: without operands. -/
structure HasLfence (instructions : List InstructionSpec) : Prop where
  mem : ∃ spec ∈ instructions, spec.name = "LFENCE"
  plain : ∀ spec ∈ instructions, spec.name = "LFENCE" →
    spec.operands = [] ∧ spec.implicitOperands = [] ∧ spec.controlFlow = false

section Fence
variable {conf : GeneratorConf} {instructions : List InstructionSpec} {li : ℕ}

lemma strip_fence : strip fence = "LFENCE".toList := by decide

lemma matchingSpecs_nil {specs : List InstructionSpec} (h : ∀ spec ∈ specs, spec.operands = []) :
    matchingSpecs conf li [] specs = .ok specs := by
  induction specs with
  | nil => rfl
  | cons spec specs ih =>
    have here : matchSpec conf li [] spec = .ok true := by
      rw [matchSpec,h spec List.mem_cons_self]
      rfl
    rw [matchingSpecs,here]
    change (matchingSpecs conf li [] specs >>= fun rest => .ok (spec :: rest)) = _
    rw [ih fun s hs => h s (List.mem_cons_of_mem _ hs)]
    rfl

lemma findSpec_fence (h : HasLfence instructions) : ∃ spec ∈ instructions, spec.name = "LFENCE" ∧
    findSpec conf instructions "LFENCE".toList li = .ok (spec,[]) := by
  have key : findName [] (words "LFENCE".toList) = ("LFENCE".toList,some "LFENCE".toList) := by
    decide +kernel
  have raw : operandsRaw "LFENCE".toList "LFENCE".toList = [] := by decide +kernel
  have named (spec : InstructionSpec) : spec ∈ specsFor instructions (some "LFENCE".toList) →
      spec ∈ instructions ∧ spec.name = "LFENCE" := by
    intro hs
    obtain ⟨mem,name⟩ := List.mem_filter.mp hs
    exact ⟨mem,String.toList_inj.mp (Option.some.inj (of_decide_eq_true name))⟩
  obtain ⟨spec,mem,name⟩ := h.mem
  have some : spec ∈ specsFor instructions (some "LFENCE".toList) :=
    List.mem_filter.mpr ⟨mem,by rw [name]; exact decide_eq_true rfl⟩
  have matching : matchingSpecs conf li [] (specsFor instructions (.some "LFENCE".toList)) = _ :=
    matchingSpecs_nil fun spec hs => (h.plain spec (named spec hs).1 (named spec hs).2).1
  generalize hspecs : specsFor instructions (.some "LFENCE".toList) = specs at *
  have found : ∃ first rest, (if 1<specs.length ∧ specs.filter (·.hasMagicValue) ≠ [] then
      specs.filter (·.hasMagicValue) else specs) = first :: rest ∧ first ∈ specs := by
    split_ifs with magic
    · obtain ⟨first,rest,eq⟩ := List.exists_cons_of_ne_nil magic.2
      exact ⟨first,rest,eq,(List.mem_filter.mp (eq ▸ List.mem_cons_self)).1⟩
    · obtain ⟨first,rest,eq⟩ := List.exists_cons_of_ne_nil (List.ne_nil_of_mem some)
      exact ⟨first,rest,eq,eq ▸ List.mem_cons_self⟩
  obtain ⟨first,rest,eq,hfirst⟩ := found
  refine ⟨first,(named first hfirst).1,(named first hfirst).2,?_⟩
  unfold findSpec
  rw [key]
  dsimp only
  rw [hspecs,if_neg (List.ne_nil_of_mem some),raw]
  refine Except.bind_eq_ok.mpr ⟨specs,matching,?_⟩
  rw [eq]
  rfl

lemma parseInstruction_fence (h : HasLfence instructions) (li : ℕ) :
    Always (parseInstruction conf instructions "LFENCE".toList li)
      fun inst => isTerminator inst = false := by
  obtain ⟨spec,mem,name,found⟩ : ∃ spec ∈ instructions, spec.name = "LFENCE" ∧
      findSpec conf instructions "LFENCE".toList li = .ok (spec,[]) := findSpec_fence h
  obtain ⟨operands,implicit,flow⟩ := h.plain spec mem name
  have plain : isProtectPrefix "LFENCE".toList = false := by decide +kernel
  unfold parseInstruction
  rw [plain,if_neg Bool.false_ne_true,found]
  refine Drawing.Outcome.bind (P := fun p => p = (spec,[])) (.pure rfl) ?_
  rintro _ rfl
  dsimp only
  rw [operands,implicit]
  refine Drawing.Outcome.bind (P := fun _ => True) (.pure trivial) fun ops _ => ?_
  refine Drawing.Outcome.bind (P := fun _ => True) (.pure trivial) fun p _ => .pure ?_
  simp [isTerminator,Instruction.fromSpec,flow]

end Fence

section Blocked
variable {conf : GeneratorConf} {instructions : List InstructionSpec} {names : List (List Char)}

lemma parseLine_fence_blocked (hl : HasLfence instructions) {s : SecondPass}
    (hs : s.terminatorsStarted) (li : ℕ) (t : Stream' ℕ) (r : SecondPass × Stream' ℕ) :
    parseLine conf instructions names s li "LFENCE".toList t ≠ .ok r := by
  intro h
  have text : isTrivial "LFENCE".toList ≠ true := by decide
  have label : isLabel "LFENCE".toList ≠ true := by decide
  obtain ⟨s',t'⟩ := r
  cases parseLine_step h with
  | skip trivial => exact text trivial
  | label _ l _ => exact label l
  | terminator _ _ parsed terminator =>
    have plain : isTerminator _ = false := Drawing.Outcome.ok (parseInstruction_fence hl li) parsed
    rw [plain] at terminator
    cases terminator
  | instruction _ _ _ _ free =>
    rw [hs] at free
    cases free

/-- A file with a fence behind a terminator is rejected. -/
theorem secondPass_blocked (hl : HasLfence instructions) {ph : X86Generator.Phase} {l rest : List Line}
    {s : SecondPass} (hs : s.InPhase ph)
    (hb : Phase.after conf instructions ph l = .body true) (li : ℕ) (t : Stream' ℕ)
    (r : SecondPass × Stream' ℕ) :
    secondPass conf instructions names s li (l ++ fence :: rest) t ≠ .ok r := by
  induction l generalizing ph s li t with
  | nil =>
    obtain rfl : ph = .body true := hb
    obtain ⟨started,terminators⟩ := hs
    intro h
    rw [List.nil_append,secondPass,started] at h
    rw [strip_fence] at h
    obtain ⟨s',t',hp,-⟩ := bind_eq_ok.mp h
    exact parseLine_fence_blocked hl terminators li t _ hp
  | cons raw l ih =>
    intro h
    rw [List.cons_append,secondPass] at h
    change Phase.after conf instructions (ph.next conf instructions raw) l = _ at hb
    cases ph with
    | header =>
      rw [hs.1,Bool.not_false,if_pos rfl] at h
      exact ih hs.header hb (li+1) t h
    | body b =>
      obtain ⟨started,-⟩ := id hs
      rw [started,Bool.not_true,if_neg Bool.false_ne_true] at h
      by_cases exit : strip raw = testCaseExit
      · rw [Phase.next,if_pos exit,Phase.after_footer] at hb
        cases hb
      · rw [if_neg exit] at h
        obtain ⟨s',t',hp,h'⟩ := bind_eq_ok.mp h
        exact ih ((parseLine_step hp).inPhase hs exit) hb (li+1) t' h'
    | footer =>
      rw [show Phase.next conf instructions raw .footer = .footer from rfl,Phase.after_footer] at hb
      cases hb

end Blocked

section Count

/-- Adding an instruction to a block adds to the instructions that are counted. -/
lemma length_inMemory_modify (blocks : List ParsedBlock) (i : ℕ) (f : ParsedBlock → ParsedBlock)
    (inst : ℕ × Generator.Instruction) (hf : ∀ bb, ((f bb).instructions ++ (f bb).terminators).Perm
      (inst :: (bb.instructions ++ bb.terminators))) :
    (inMemory (blocks.modify i f)).length = (inMemory blocks).length +
      if i<blocks.length ∧ inst.2.name ≠ ".byte 0x36" then 1 else 0 := by
  induction blocks generalizing i with
  | nil => simp [inMemory]
  | cons bb blocks ih =>
    have split (bb : ParsedBlock) (l : List ParsedBlock) : (inMemory (bb :: l)).length =
        ((bb.instructions ++ bb.terminators).filter fun p => p.2.name ≠ ".byte 0x36").length +
          (inMemory l).length := by
      rw [inMemory,List.flatMap_cons,List.filter_append,List.length_append]
      rfl
    cases i with
    | zero =>
      rw [List.modify_zero_cons,split,split,((hf bb).filter _).length_eq,List.filter_cons]
      by_cases h : inst.2.name = ".byte 0x36" <;> simp [h]
      omega
    | succ i =>
      rw [List.modify_succ_cons,split,split,ih]
      simp [Nat.add_assoc]

lemma length_insertTerminator (s : SecondPass) (li : ℕ) (inst : Generator.Instruction) :
    (inMemory (s.insertTerminator li inst).blocks).length = (inMemory s.blocks).length +
      if s.current<s.blocks.length ∧ inst.name ≠ ".byte 0x36" then 1 else 0 := by
  refine length_inMemory_modify s.blocks s.current _ (li,inst) fun bb => ?_
  rw [← List.append_assoc]
  exact List.perm_append_singleton _ _

lemma length_insertAfter (s : SecondPass) (li : ℕ) (inst : Generator.Instruction) :
    (inMemory (s.insertAfter li inst).blocks).length = (inMemory s.blocks).length +
      if s.current<s.blocks.length ∧ inst.name ≠ ".byte 0x36" then 1 else 0 := by
  refine length_inMemory_modify s.blocks s.current _ (li,inst) fun bb => ?_
  rw [List.append_assoc]
  exact List.perm_middle

lemma forall₂_modify {α β : Type*} {R : α → β → Prop} {a : List α} {b : List β}
    (h : List.Forall₂ R a b) {f : α → α} {g : β → β} (hfg : ∀ x y, R x y → R (f x) (g y)) (i : ℕ) :
    List.Forall₂ R (a.modify i f) (b.modify i g) := by
  induction h generalizing i with
  | nil => simp
  | cons hxy hl ih =>
    cases i with
    | zero => exact .cons (hfg _ _ hxy) hl
    | succ i => exact .cons hxy (ih i)

end Count

/-- The second pass over a file and over the file with fences, `k` of them in its blocks. -/
structure Sim (k : ℕ) (s s' : SecondPass) : Prop where
  started : s'.started = s.started
  current : s'.current = s.current
  terminatorsStarted : s'.terminatorsStarted = s.terminatorsStarted
  blocks : List.Forall₂ (fun bb bb' =>
    List.Forall₂ (fun x y => SameText x.2 y.2) bb.terminators bb'.terminators) s.blocks s'.blocks
  count : (inMemory s'.blocks).length ≤ (inMemory s.blocks).length+k

section Simulation
variable {conf : GeneratorConf} {instructions : List InstructionSpec} {names : List (List Char)}
  {k : ℕ} {s s' : SecondPass}

lemma Sim.insertTerminator (h : Sim k s s') {inst inst' : Generator.Instruction} (hi : SameText inst inst')
    (li li' : ℕ) : Sim k (s.insertTerminator li inst) (s'.insertTerminator li' inst') where
  started := h.started
  current := h.current
  terminatorsStarted := rfl
  blocks := by
    rw [SecondPass.insertTerminator,SecondPass.insertTerminator,h.current]
    exact forall₂_modify h.blocks (fun bb bb' hb => List.rel_append hb (.cons hi .nil)) _
  count := by
    have length := h.blocks.length_eq
    have count := h.count
    rw [length_insertTerminator,length_insertTerminator,h.current,hi.name,← length]
    omega

lemma Sim.insertAfter (h : Sim k s s') {inst inst' : Generator.Instruction} (hi : SameText inst inst')
    (li li' : ℕ) : Sim k (s.insertAfter li inst) (s'.insertAfter li' inst') where
  started := h.started
  current := h.current
  terminatorsStarted := h.terminatorsStarted
  blocks := by
    rw [SecondPass.insertAfter,SecondPass.insertAfter,h.current]
    refine forall₂_modify h.blocks ?_ _
    exact fun bb bb' hb => hb
  count := by
    have length := h.blocks.length_eq
    have count := h.count
    rw [length_insertAfter,length_insertAfter,h.current,hi.name,← length]
    omega

/-- A fence in a block is one more instruction. -/
lemma Sim.fence (h : Sim k s s') (li : ℕ) (inst : Generator.Instruction) :
    Sim (k+1) s (s'.insertAfter li inst) where
  started := h.started
  current := h.current
  terminatorsStarted := h.terminatorsStarted
  blocks := by
    have unchanged := forall₂_modify h.blocks (f := id) (g := fun bb =>
      { bb with instructions := bb.instructions ++ [(li,inst)] }) (fun bb bb' hb => hb) s'.current
    rwa [List.modify_id] at unchanged
  count := by
    have count := h.count
    rw [length_insertAfter]
    split_ifs <;> omega

/-- A line that the file has been read past is read past again. -/
lemma parseLine_sim (h : Sim k s s') {li : ℕ} {line : List Char} {s₁ : SecondPass}
    (step : LineStep conf instructions names s li line s₁) (li' : ℕ) :
    Always (parseLine conf instructions names s' li' line) (Sim k s₁) := by
  cases step with
  | skip trivial =>
    rw [parseLine_trivial names s' li' trivial]
    exact .pure h
  | label text label found =>
    rw [parseLine_label names s' li' text label,selectBlock,found]
    exact .pure ⟨h.started,rfl,rfl,h.blocks,h.count⟩
  | terminator text label parsed terminator =>
    rw [parseLine_instruction names s' li' text label]
    refine (parseInstruction_always parsed li').bind fun inst' same => ?_
    rw [same.isTerminator,if_pos terminator]
    exact .pure (h.insertTerminator same _ _)
  | instruction text label parsed terminator free =>
    rw [parseLine_instruction names s' li' text label]
    refine (parseInstruction_always parsed li').bind fun inst' same => ?_
    rw [same.isTerminator,terminator,if_neg Bool.false_ne_true,h.terminatorsStarted,free,
      if_neg Bool.false_ne_true]
    exact .pure (h.insertAfter same _ _)

lemma parseLine_fence (hl : HasLfence instructions) (h : Sim k s s')
    (free : s.terminatorsStarted = false) (li : ℕ) :
    Always (parseLine conf instructions names s' li "LFENCE".toList) (Sim (k+1) s) := by
  rw [parseLine_instruction names s' li (by decide) (by decide)]
  refine (parseInstruction_fence hl li).bind fun inst plain => ?_
  rw [plain,if_neg Bool.false_ne_true,h.terminatorsStarted,free,if_neg Bool.false_ne_true]
  exact .pure (h.fence li inst)

end Simulation

/-- Fences inserted where the parser allows them: behind the header, and not behind terminators. -/
inductive FencedAt (conf : GeneratorConf) (instructions : List InstructionSpec) :
    X86Generator.Phase → List Line → List Line → Prop
  | nil {ph : X86Generator.Phase} : FencedAt conf instructions ph [] []
  | keep {ph : X86Generator.Phase} (raw : Line) {a b : List Line}
    (rest : FencedAt conf instructions (ph.next conf instructions raw) a b) :
    FencedAt conf instructions ph (raw :: a) (raw :: b)
  | insert {ph : X86Generator.Phase} {a b : List Line} (header : ph ≠ .header) (free : ph ≠ .body true)
    (rest : FencedAt conf instructions ph a b) : FencedAt conf instructions ph a (fence :: b)

section Accepted
variable {conf : GeneratorConf} {instructions : List InstructionSpec} {names : List (List Char)}
  {ph : X86Generator.Phase} {a b : List Line}

lemma FencedAt.length_le (h : FencedAt conf instructions ph a b) : a.length ≤ b.length := by
  induction h with
  | nil => exact le_rfl
  | keep raw rest ih => exact Nat.succ_le_succ ih
  | insert header free rest ih => exact Nat.le_succ_of_le ih

/-- The second pass accepts such fences, whatever is drawn. -/
lemma secondPass_fences (hl : HasLfence instructions) (h : FencedAt conf instructions ph a b)
    (hph : ph ≠ .footer) {k : ℕ} {s s' s₁ : SecondPass} (hs : s.InPhase ph) (sim : Sim k s s')
    {li : ℕ} (li' : ℕ) {t t₁ : Stream' ℕ}
    (ok : secondPass conf instructions names s li a t = .ok (s₁,t₁)) :
    Always (secondPass conf instructions names s' li' b)
      fun s₁' => Sim (k+(b.length-a.length)) s₁ s₁' := by
  induction h generalizing s s' k li li' t with
  | nil =>
    cases ok
    exact .pure sim
  | @keep ph raw a b rest ih =>
    rw [secondPass] at ok ⊢
    rw [sim.started]
    have length : (raw :: b).length-(raw :: a).length = b.length-a.length := by simp
    rw [length]
    cases ph with
    | header =>
      rw [hs.1,Bool.not_false,if_pos rfl] at ok ⊢
      have sim' : Sim k { s with started := strip raw = testCaseEnter }
          { s' with started := strip raw = testCaseEnter } :=
        ⟨rfl,sim.current,sim.terminatorsStarted,sim.blocks,sim.count⟩
      refine ih ?_ hs.header sim' (li'+1) ok
      rw [Phase.next]
      split_ifs <;> simp
    | body b =>
      rw [hs.1,Bool.not_true,if_neg Bool.false_ne_true] at ok ⊢
      by_cases exit : strip raw = testCaseExit
      · rw [if_pos exit] at ok ⊢
        cases ok
        exact .pure ⟨sim.started,sim.current,sim.terminatorsStarted,sim.blocks,
          le_trans sim.count (by omega)⟩
      · rw [if_neg exit] at ok ⊢
        obtain ⟨s₂,t₂,hp,ok'⟩ := bind_eq_ok.mp ok
        have step := parseLine_step hp
        refine (parseLine_sim sim step li').bind fun s₂' sim₂ => ?_
        refine ih ?_ (step.inPhase hs exit) sim₂ (li'+1) ok'
        rw [Phase.next,if_neg exit]
        split_ifs <;> simp
    | footer => exact absurd rfl hph
  | @insert ph a b header free rest ih =>
    cases ph with
    | header => exact absurd rfl header
    | footer => exact absurd rfl hph
    | body started =>
      obtain rfl : started = false := by
        cases started
        · rfl
        · exact absurd rfl free
      have more := rest.length_le
      have length : k+((fence :: b).length-a.length) = k+1+(b.length-a.length) := by
        rw [List.length_cons]
        omega
      rw [length,secondPass,sim.started,hs.1,Bool.not_true,if_neg Bool.false_ne_true,strip_fence,
        if_neg (by decide)]
      refine (parseLine_fence hl sim hs.2 li').bind fun s₂' sim₂ => ?_
      exact ih (by simp) hs sim₂ (li'+1) ok

/-- The first pass does not see fences. -/
lemma firstPass_fences (h : FencedAt conf instructions ph a b) (hph : ph ≠ .footer)
    {s : FirstPass} (hs : s.started = true ↔ ph ≠ .header) : firstPass s b = firstPass s a := by
  induction h generalizing s with
  | nil => rfl
  | @keep ph raw a b rest ih =>
    rw [firstPass,firstPass]
    cases text : isTrivial (strip raw) with
    | true =>
      have enter : strip raw ≠ testCaseEnter := by
        intro enter
        rw [enter] at text
        exact absurd text (by decide)
      have exit : strip raw ≠ testCaseExit := by
        intro exit
        rw [exit] at text
        exact absurd text (by decide)
      have same : ph.next conf instructions raw = ph := by
        cases ph with
        | header => rw [Phase.next,if_neg enter]
        | body started => rw [Phase.next,if_neg exit,text,if_pos rfl]
        | footer => rfl
      rw [if_pos rfl,if_pos rfl]
      exact ih (same.symm ▸ hph) (same.symm ▸ hs)
    | false =>
      rw [if_neg Bool.false_ne_true,if_neg Bool.false_ne_true]
      cases ph with
      | header =>
        have before : s.started = false := by simpa using hs
        rw [before,Bool.not_false,if_pos rfl,if_pos rfl]
        apply ih
        · rw [Phase.next]
          split_ifs <;> simp
        · by_cases enter : strip raw = testCaseEnter <;> simp [Phase.next,enter]
      | body started =>
        have behind : s.started = true := hs.mpr (by simp)
        rw [behind,Bool.not_true,if_neg Bool.false_ne_true,if_neg Bool.false_ne_true]
        by_cases exit : strip raw = testCaseExit
        · rw [if_pos exit,if_pos exit]
        · rw [if_neg exit,if_neg exit]
          apply ih
          · rw [Phase.next,if_neg exit]
            split_ifs <;> simp
          · rw [Phase.next,if_neg exit]
            split_ifs <;> simp
      | footer => exact absurd rfl hph
  | @insert ph a b header free rest ih =>
    have behind : s.started = true := hs.mpr header
    have unseen : addLabel s.functions "LFENCE".toList = s.functions := rfl
    rw [← ih hph hs,firstPass,strip_fence,if_neg (by decide),if_neg (by simp [behind]),
      if_neg (by decide),unseen]

lemma flatMap_operands {l l' : List (ℕ × Generator.Instruction)}
    (h : List.Forall₂ (fun x y => SameText x.2 y.2) l l') :
    (l'.flatMap fun t => t.2.operands) = l.flatMap fun t => t.2.operands := by
  induction h with
  | nil => rfl
  | cons same _ ih => rw [List.flatMap_cons,List.flatMap_cons,same.operands,ih]

lemma connectFrom_sim {n i : ℕ} {blocks blocks' connected : List ParsedBlock}
    (sim : List.Forall₂ (fun bb bb' =>
      List.Forall₂ (fun x y => SameText x.2 y.2) bb.terminators bb'.terminators) blocks blocks')
    (h : connectFrom names n i blocks = .ok connected) :
    ∃ connected', connectFrom names n i blocks' = .ok connected' := by
  induction sim generalizing i connected with
  | nil => exact ⟨[],rfl⟩
  | @cons bb bb' blocks blocks' hb _ ih =>
    obtain ⟨c,hc,h⟩ := Except.bind_eq_ok.mp h
    obtain ⟨rest,hr,-⟩ := Except.bind_eq_ok.mp h
    obtain ⟨taken,ht,-⟩ := Except.bind_eq_ok.mp hc
    obtain ⟨rest',hr'⟩ := ih hr
    have connected' : ∃ c', connect names n i bb' = .ok c' := by
      rw [connect,flatMap_operands hb,ht]
      exact ⟨_,rfl⟩
    obtain ⟨c',hc'⟩ := connected'
    exact ⟨c' :: rest',Except.bind_eq_ok.mpr ⟨c',hc',Except.bind_eq_ok.mpr ⟨rest',hr',rfl⟩⟩⟩

lemma sim_refl (s : SecondPass) : Sim 0 s s where
  started := rfl
  current := rfl
  terminatorsStarted := rfl
  blocks := List.forall₂_same.mpr fun _ _ => List.forall₂_same.mpr fun _ _ => ⟨rfl,rfl,rfl,rfl⟩
  count := le_rfl

/-- A file with such fences is parsed, and has at most as many more instructions. -/
lemma parseText_fences (hl : HasLfence instructions)
    (h : FencedAt conf instructions .header a b) {t t' : Stream' ℕ} {tc : ParsedTestCase}
    (ok : parseText conf instructions a t = .ok (tc,t')) :
    Always (parseText conf instructions b) fun tc' =>
      tc'.numPrologueInstructions = tc.numPrologueInstructions ∧
      (inMemory tc'.blocks).length ≤ (inMemory tc.blocks).length+(b.length-a.length) := by
  obtain ⟨started,functions,prologue,second,hs,hc⟩ := parseText_eq_ok.mp ok
  have first : firstPass {} b = firstPass {} a := firstPass_fences h (by simp) (by simp)
  have sim := secondPass_fences hl h (by simp) (s := emptyBlocks (blockNames tc.functions))
    ⟨rfl,rfl⟩ (sim_refl _) 0 hs
  refine always_iff.mpr fun t₀ => ?_
  obtain ⟨second',t₁,hs',hsim⟩ := always_iff.mp sim t₀
  obtain ⟨blocks',hc'⟩ := connectFrom_sim hsim.blocks hc
  refine ⟨⟨tc.functions,blocks',tc.numPrologueInstructions⟩,t₁,parseText_eq_ok.mpr ?_,rfl,?_⟩
  · rw [first]
    exact ⟨started,functions,prologue,second',hs',hc'⟩
  · rw [inMemory_connectFrom hc,inMemory_connectFrom hc']
    have count := hsim.count
    omega

variable {assemble : List Line → Option (List ℕ)}

/-- Fences that the parser allows are accepted, if the assembler turns each of them into one more
instruction. -/
theorem parseExistingTestCase_fences (hl : HasLfence instructions)
    (h : FencedAt conf instructions .header a b)
    (ha : ∀ addressList, assemble a = some addressList → ∃ addressList', assemble b =
      some addressList' ∧ addressList'.length = addressList.length+(b.length-a.length))
    {t : Stream' ℕ} {r : (ParsedTestCase × List (ℕ × Mapped)) × Stream' ℕ}
    (ok : parseExistingTestCase assemble conf instructions a t = .ok r) :
    Always (parseExistingTestCase assemble conf instructions b) fun _ => True := by
  obtain ⟨tc,t₁,text,ok⟩ := bind_eq_ok.mp ok
  cases assembled : assemble a with
  | none =>
    rw [assembled] at ok
    cases ok
  | some addressList =>
    rw [assembled] at ok
    obtain ⟨pairs,t₂,mapped,-⟩ := bind_eq_ok.mp ok
    obtain ⟨mapped,-⟩ := lift_eq_ok.mp mapped
    obtain ⟨addressList',assembled',length⟩ := ha addressList assembled
    refine (parseText_fences hl h text).bind fun tc' ⟨prologue,count⟩ => ?_
    rw [assembled']
    have enough := mapAddresses_ok_iff.mp ⟨pairs,mapped⟩
    have nonempty := List.length_pos_iff.mpr enough.2
    obtain ⟨pairs',mapped'⟩ : ∃ pairs', mapAddresses tc' addressList' = .ok pairs' := by
      refine mapAddresses_ok_iff.mpr ⟨by omega,?_⟩
      rw [← List.length_pos_iff]
      omega
    dsimp only
    rw [mapped']
    exact Drawing.Outcome.bind (P := fun _ => True) (.pure trivial) fun _ _ => .pure trivial

end Accepted

/-- No line that is probed, behind the last header, stands behind a terminator of its block. -/
def FenceSafe (conf : GeneratorConf) (instructions : List InstructionSpec) (file : List Line) :
    Prop :=
  ∀ l raw rest, file = l ++ raw :: rest → (∃ r ∈ l, strip r = testCaseEnter) →
    (∀ r ∈ rest, strip r ≠ testCaseEnter) → ¬isPreserved (strip raw) →
      Phase.after conf instructions .header l ≠ .body true

/-- The assembler takes every fence behind the header for one more instruction. -/
def AssemblesFences (assemble : List Line → Option (List ℕ)) (file : List Line) : Prop :=
  ∀ fenced, WithFences file fenced → ∀ addressList, assemble file = some addressList →
    ∃ addressList', assemble fenced = some addressList' ∧
      addressList'.length = addressList.length+(fenced.length-file.length)

section Phases
variable {conf : GeneratorConf} {instructions : List InstructionSpec} {ph : X86Generator.Phase}

lemma after_append (ph : X86Generator.Phase) (l l' : List Line) :
    Phase.after conf instructions ph (l ++ l') =
      Phase.after conf instructions (Phase.after conf instructions ph l) l' :=
  List.foldl_append

lemma next_ne_header (raw : Line) (h : ph ≠ .header) : ph.next conf instructions raw ≠ .header := by
  cases ph with
  | header => exact absurd rfl h
  | body started =>
    rw [Phase.next]
    split_ifs <;> simp
  | footer => exact h

/-- Behind the header the second pass is never in front of it again. -/
lemma after_ne_header (l : List Line) (h : ph ≠ .header) :
    Phase.after conf instructions ph l ≠ .header := by
  induction l generalizing ph with
  | nil => exact h
  | cons raw l ih => exact ih (next_ne_header raw h)

lemma after_header (before l : List Line) {header : Line} (h : strip header = testCaseEnter) :
    Phase.after conf instructions .header (before ++ header :: l) ≠ .header := by
  rw [after_append]
  refine after_ne_header l ?_
  cases Phase.after conf instructions .header before with
  | header =>
    change (if strip header = testCaseEnter then Phase.body false else .header) ≠ .header
    rw [if_pos h]
    simp
  | body started => exact next_ne_header header (by simp)
  | footer => exact next_ne_header header (by simp)

/-- Lines in front are kept. -/
lemma FencedAt.append (l : List Line) {a b : List Line}
    (h : FencedAt conf instructions (Phase.after conf instructions ph l) a b) :
    FencedAt conf instructions ph (l ++ a) (l ++ b) := by
  induction l generalizing ph with
  | nil => exact h
  | cons raw l ih => exact .keep raw (ih h)

lemma FencedAt.fenced {a b : List Line} (h : FencedAt conf instructions ph a b) : Fenced a b := by
  induction h with
  | nil => exact .nil
  | keep raw _ ih => exact .keep raw ih
  | insert _ _ _ ih => exact .insert ih

lemma Fenced.append (l : List Line) {a b : List Line} (h : Fenced a b) :
    Fenced (l ++ a) (l ++ b) := by
  induction l with
  | nil => exact h
  | cons raw l ih => exact .keep raw ih

/-- What `push_fence` does, where it is safe. -/
lemma modifies_pushFence_safe (conf : GeneratorConf) (instructions : List InstructionSpec) :
    Modifies pushFence (fun l _ => Phase.after conf instructions .header l ≠ .header ∧
        Phase.after conf instructions .header l ≠ .body true)
      (fun l => FencedAt conf instructions (Phase.after conf instructions .header l)) where
  nil _ := .nil
  keep l raw _ _ h := by
    rw [after_append] at h
    exact .keep raw h
  change l raw _ b h allowed := by
    rw [after_append] at h
    exact ⟨_,pushFence_at l b raw,.insert allowed.1 allowed.2 (.keep raw h)⟩

end Phases

section Results
variable {conf : GeneratorConf} {instructions : List InstructionSpec} {file : List Line}
  {assemble : List Line → Option (List ℕ)}

/-- Where all fences are safe, `add_fences` never fails. -/
lemma addFences_of_safe (hl : HasLfence instructions) (ha : AssemblesFences assemble file)
    {t : Stream' ℕ} {r : (ParsedTestCase × List (ℕ × Mapped)) × Stream' ℕ}
    (accepted : parseExistingTestCase assemble conf instructions file t = .ok r)
    (safe : FenceSafe conf instructions file) {violates : List Line → Bool} (hv : violates file)
    {fuel : ℕ} (hf : file.length<fuel) :
    Always (addFences (parseExistingTestCase assemble conf instructions) violates fuel file)
      fun _ => True := by
  obtain ⟨before,header,after,split⟩ := exists_split_of_accepted accepted
  refine (probeTestCase_file (modifies_pushFence_safe conf instructions) split ?_ ?_ hv
    hf).weaken fun _ _ => trivial
  · intro todo raw done htodo probed
    refine ⟨after_header before todo split.header,safe _ raw done ?_ ?_ ?_ probed⟩
    · rw [split.eq,htodo]
      simp
    · exact ⟨header,by simp,split.header⟩
    · exact fun r hr => split.last r (by rw [htodo]; simp [hr])
  · intro todo a b htodo h
    have whole : file = before ++ header :: todo ++ a := by
      rw [split.eq,htodo]
      simp
    have fences := h.append (before ++ header :: todo)
    rw [← whole] at fences
    refine parseExistingTestCase_fences hl fences (ha _ ?_) accepted
    refine ⟨before,header,after,todo ++ b,split,by simp,?_⟩
    rw [htodo]
    exact h.fenced.append todo

/-- A loop that keeps no change has been at every line behind the header. -/
lemma probe_back {parse : List Line → Gen (ParsedTestCase × List (ℕ × Mapped))} {l : List Line}
    (todo : List Line) {done : List Line} (hfile : file = l ++ todo ++ done)
    (other : ∀ raw ∈ todo, strip raw ≠ testCaseEnter) {fuel : ℕ} {t : Stream' ℕ}
    {r : Option (List Line) × Stream' ℕ}
    (ok : probe parse (fun lines => lines = file) pushFence (fuel+todo.length) file
      (l ++ todo).length t = .ok r) :
    ∃ t' r', probe parse (fun lines => lines = file) pushFence fuel file l.length t' = .ok r' := by
  induction todo using List.reverseRecOn generalizing done t r with
  | nil =>
    rw [List.append_nil] at ok
    exact ⟨t,r,ok⟩
  | append_singleton todo raw ih =>
    have hfile' : file = l ++ todo ++ raw :: done := by
      rw [hfile]
      simp
    have length : ((l ++ (todo ++ [raw])).length : ℤ) = (l ++ todo).length+1 := by
      simp
      omega
    have next {t₁ : Stream' ℕ} {r₁ : Option (List Line) × Stream' ℕ}
        (ok : probe parse (fun lines => lines = file) pushFence (fuel+todo.length) file
          (l ++ todo).length t₁ = .ok r₁) :=
      ih hfile' (fun raw h => other raw (List.mem_append_left _ h)) ok
    have longer : pushFence file (l ++ todo).length ≠ file := by
      rw [hfile',pushFence_at]
      intro same
      simpa using congrArg List.length same
    have turn := probe_at parse (fun lines => lines = file) pushFence (l ++ todo) done raw
      (fuel+todo.length)
    have dropped : ¬decide (pushFence file (l ++ todo).length = file) = true := by
      rwa [decide_eq_true_iff]
    rw [← hfile',if_neg (other raw (by simp)),if_neg dropped] at turn
    rw [length,List.length_append,List.length_singleton,← Nat.add_assoc,turn] at ok
    split_ifs at ok with preserved
    · exact next ok
    · obtain ⟨_,_,_,ok⟩ := bind_eq_ok.mp ok
      exact next ok

/-- A fence that is not safe makes `add_fences` fail, when it comes to it. -/
lemma safe_of_addFences (hl : HasLfence instructions) {t : Stream' ℕ}
    {r : Option (List Line × ParsedTestCase × List (ℕ × Mapped)) × Stream' ℕ}
    (ok : addFences (parseExistingTestCase assemble conf instructions) (fun lines => lines = file)
      (file.length+1) file t = .ok r) : FenceSafe conf instructions file := by
  intro l raw rest hfile header last probed behind
  have other : strip raw ≠ testCaseEnter := by
    intro enter
    rw [enter] at probed
    exact probed (by decide)
  obtain ⟨_,_,ok,-⟩ := bind_eq_ok.mp ok
  have fuel : file.length+1 = l.length+2+rest.length := by
    rw [hfile,List.length_append,List.length_cons]
    omega
  have hfile' : file = l ++ [raw] ++ rest ++ [] := by
    rw [hfile]
    simp
  rw [fuel] at ok
  have end_ : (file.length : ℤ) = (l ++ [raw] ++ rest).length := by
    rw [hfile']
    simp
  rw [end_] at ok
  obtain ⟨t₁,r₁,ok⟩ := probe_back rest hfile' last ok
  have turn := probe_at (parseExistingTestCase assemble conf instructions) (fun lines => lines = file)
    pushFence l rest raw (l.length+1)
  have length : ((l ++ [raw]).length : ℤ) = l.length+1 := by simp
  rw [if_neg other,if_neg probed,pushFence_at,← hfile] at turn
  rw [length,turn] at ok
  obtain ⟨_,_,parsed,-⟩ := bind_eq_ok.mp ok
  obtain ⟨tc,_,text,-⟩ := bind_eq_ok.mp parsed
  obtain ⟨-,-,-,second,hs,-⟩ := parseText_eq_ok.mp text
  have inPhase : (emptyBlocks (blockNames tc.functions)).InPhase .header := ⟨rfl,rfl⟩
  exact secondPass_blocked hl inPhase behind 0 _ _ hs

/-- The candidates of `add_fences` are all parsed, whatever the violation depends on, exactly if no
line that is probed stands behind a terminator of its block. -/
theorem addFences_parses_iff (hl : HasLfence instructions) (ha : AssemblesFences assemble file)
    (accepted : ∃ t r, parseExistingTestCase assemble conf instructions file t = .ok r) :
    (∀ violates : List Line → Bool, violates file → ∀ fuel > file.length,
      Always (addFences (parseExistingTestCase assemble conf instructions) violates fuel file)
        fun _ => True) ↔ FenceSafe conf instructions file := by
  obtain ⟨t,r,accepted⟩ := accepted
  constructor
  · intro h
    have never := h (fun lines => lines = file) (decide_eq_true rfl) (file.length+1) (by omega)
    obtain ⟨_,_,ok,-⟩ := always_iff.mp never t
    exact safe_of_addFences hl ok
  · exact fun safe violates hv fuel hf => addFences_of_safe hl ha accepted safe hv hf

end Results

section Jumps

/-- An assembler for files in which all lines but labels are instructions. -/
def assembleLines (file : List Line) : Option (List ℕ) :=
  some (List.range (file.countP fun raw => raw.head? ≠ some '.'))

lemma Fenced.countP {a b : List Line} (h : Fenced a b) :
    a.length ≤ b.length ∧ (b.countP fun raw => raw.head? ≠ some '.') =
      (a.countP fun raw => raw.head? ≠ some '.')+(b.length-a.length) := by
  induction h with
  | nil => exact ⟨le_rfl,rfl⟩
  | keep raw _ ih =>
    rw [List.countP_cons,List.countP_cons,List.length_cons,List.length_cons]
    omega
  | @insert a b _ ih =>
    rw [List.countP_cons,if_pos (by decide),List.length_cons]
    omega

lemma assembleLines_fences (file : List Line) : AssemblesFences assembleLines file := by
  rintro _ ⟨before,header,after,after',split,rfl,h⟩ addressList ha
  cases ha
  have whole := (h.append (before ++ [header])).countP
  rw [List.append_assoc,List.append_assoc,List.singleton_append,List.singleton_append,
    ← split.eq] at whole
  refine ⟨_,rfl,?_⟩
  rw [List.length_range,List.length_range,whole.2]

def lfenceSpec : InstructionSpec :=
  { name := "LFENCE", operands := [], implicitOperands := [], category := "SSE2-MISC" }
def jzSpec : InstructionSpec :=
  { name := "JZ", operands := [.label], implicitOperands := [.reg ["RIP"] 64 true true]
    category := "BASE-COND_BR", controlFlow := true }
def jmpSpec : InstructionSpec :=
  { name := "JMP", operands := [.label], implicitOperands := [.reg ["RIP"] 64 true true]
    category := "BASE-UNCOND_BR", controlFlow := true }

lemma hasLfence_jumps : HasLfence [lfenceSpec,jzSpec,jmpSpec] where
  mem := ⟨lfenceSpec,by simp,rfl⟩
  plain := by decide

/-- A block with the given jumps to the exit. -/
def jumpsToExit (jumps : List Line) : List Line :=
  [".test_case_enter:\n".toList,".function_main:\n".toList] ++ jumps ++
    [".bb_main.exit:\n".toList,".test_case_exit:\n".toList]

lemma accepted_of_isSome {assemble : List Line → Option (List ℕ)} {conf : GeneratorConf}
    {instructions : List InstructionSpec} {file : List Line}
    (h : (parseExistingTestCase assemble conf instructions file fun _ => 0).toOption.isSome) :
    ∃ t r, parseExistingTestCase assemble conf instructions file t = .ok r := by
  cases ok : parseExistingTestCase assemble conf instructions file fun _ => 0 with
  | error e =>
    rw [ok] at h
    cases h
  | ok r => exact ⟨_,r,ok⟩

lemma fenceSafe_of_places {conf : GeneratorConf} {instructions : List InstructionSpec}
    {file : List Line} (h : ∀ i<file.length, ¬isPreserved (strip (file.getD i [])) →
      Phase.after conf instructions .header (file.take i) ≠ .body true) :
    FenceSafe conf instructions file := by
  rintro l raw rest rfl - - probed
  have line : (l ++ raw :: rest).getD l.length [] = raw := by simp
  have here := h l.length (by simp)
  rw [line,List.take_left] at here
  exact here probed

/-- A fence in front of the only jump of a block. -/
theorem addFences_parses_jmp :
    let file := jumpsToExit ["JMP .bb_main.exit\n".toList]
    ∀ violates : List Line → Bool, violates file → ∀ fuel > file.length,
      Always (addFences (parseExistingTestCase assembleLines {} [lfenceSpec,jzSpec,jmpSpec])
        violates fuel file) fun _ => True := by
  intro file
  refine (addFences_parses_iff hasLfence_jumps (assembleLines_fences file)
    (accepted_of_isSome (by decide +kernel))).mpr (fenceSafe_of_places ?_)
  decide +kernel

/-- A fence in front of the second jump of a block is rejected. -/
theorem addFences_not_parses_jz_jmp :
    let file := jumpsToExit ["JZ .bb_main.exit\n".toList,"JMP .bb_main.exit\n".toList]
    let instructions := [lfenceSpec,jzSpec,jmpSpec]
    HasLfence instructions ∧ AssemblesFences assembleLines file ∧
    (∃ t r, parseExistingTestCase assembleLines {} instructions file t = .ok r) ∧
    ¬∀ violates : List Line → Bool, violates file → ∀ fuel > file.length,
      Always (addFences (parseExistingTestCase assembleLines {} instructions) violates fuel file)
        fun _ => True := by
  intro file instructions
  refine ⟨hasLfence_jumps,assembleLines_fences file,accepted_of_isSome (by decide +kernel),?_⟩
  intro h
  obtain ⟨_,_,ok,-⟩ := always_iff.mp (h (fun lines => lines = file) (decide_eq_true rfl)
    (file.length+1) (by omega)) fun _ => 0
  have safe := safe_of_addFences hasLfence_jumps ok
  exact safe (file.take 3) "JMP .bb_main.exit\n".toList (file.drop 4) (by decide +kernel)
    ⟨".test_case_enter:\n".toList,by decide +kernel,by decide +kernel⟩ (by decide +kernel)
    (by decide +kernel) (by decide +kernel)

end Jumps

end ProteanAmulet.Postprocessor
