import ProteanAmulet.Cts.Fixpoint

/-! Register aliasing in the CTS analysis. The sets hold names and are closed under
sub-registers, but definitions are looked up and removed under their exact names. -/
namespace ProteanAmulet

/-- The registers of the processor that names stand for parts of. -/
inductive Cell where
  | gpr (r : Gpr)
  | flags
  | rip
  | seg (s : Seg)
  deriving DecidableEq, Repr

namespace RegName

def cell : RegName → Cell
  | .gpr _ r => .gpr r
  | .high r => .gpr r
  | .flags => .flags
  | .rip => .rip
  | .seg s => .seg s

/-- The first bit that the name stands for, and the first one after it. -/
def range : RegName → ℕ × ℕ
  | .gpr .w32 _ => (0,32)
  | .gpr .w16 _ => (0,16)
  | .gpr .w8 _ => (0,8)
  | .high _ => (8,16)
  | .seg _ => (0,16)
  | _ => (0,64)

/-- The bits that a write under the name changes: 32-bit writes clear the upper half. -/
def writeRange : RegName → ℕ × ℕ
  | .gpr .w32 _ => (0,64)
  | r => r.range

/-- The bit belongs to the register. -/
def Holds (r : RegName) (b : Cell × ℕ) : Prop :=
  b.1=r.cell ∧ r.range.1 ≤ b.2 ∧ b.2<r.range.2

/-- A write under the name changes the bit. -/
def Changes (r : RegName) (b : Cell × ℕ) : Prop :=
  b.1=r.cell ∧ r.writeRange.1 ≤ b.2 ∧ b.2<r.writeRange.2

lemma Holds.changes {r : RegName} {b : Cell × ℕ} (h : r.Holds b) : r.Changes b := by
  obtain ⟨cell,lo,hi⟩ := h
  refine ⟨cell,?_⟩
  unfold writeRange
  split
  · simp only [range] at lo hi
    omega
  · exact ⟨lo,hi⟩

end RegName

namespace CTSTracer

/-- The instruction writes the bit. -/
def Writes (insn : CsInsn) (b : Cell × ℕ) : Prop := ∃ w ∈ insn.regsWrite, w.Changes b

/-- The instruction writes a part of the register. -/
def Touches (insn : CsInsn) (r : RegName) : Prop := ∃ b, r.Holds b ∧ Writes insn b

/-- The instruction writes all of the register. -/
def Overwrites (insn : CsInsn) (r : RegName) : Prop := ∀ b, r.Holds b → Writes insn b

/-- `s` is `r` or one of its sub-registers. -/
def Within (s r : RegName) : Prop := s ∈ (subregs r).getD []

instance (s r : RegName) : Decidable (Within s r) := inferInstanceAs (Decidable (s ∈ _))

lemma Within.trans {r s t : RegName} (h : Within r s) (h' : Within s t) : Within r t := by
  have table : ∀ t ∈ allRegNames, ∀ s ∈ (subregs t).getD [], ∀ r ∈ (subregs s).getD [],
      r ∈ (subregs t).getD [] := by decide +kernel
  exact table t (mem_allRegNames t) s h' r h

lemma within_self {r : RegName} (h : (subregs r).isSome) : Within r r := by
  have table : ∀ r ∈ allRegNames, (subregs r).isSome → r ∈ (subregs r).getD [] := by
    decide +kernel
  exact table r (mem_allRegNames r) h

lemma Within.self {r s : RegName} (h : Within r s) : Within r r :=
  within_self (FlowGraph.subregs_matched h)

lemma mem_spread {s : Finset RegName} {r : RegName} : r ∈ spread s ↔ ∃ g ∈ s, Within r g := by
  simp [spread,Within]

lemma mem_flow {insn : CsInsn} {v : Finset RegName} {r : RegName} :
    r ∈ flow insn v ↔ (r ∈ v ∧ r ∉ insn.regsWrite) ∨ r ∈ getUnprotOperands insn ∨
      (∃ w ∈ insn.regsWrite, w ∈ v) ∧ r ∈ insn.regsRead := by
  unfold flow
  by_cases h : (insn.regsWrite.any fun x => decide (x ∈ v)) = true
  · rw [if_pos h]
    simp only [List.any_eq_true,decide_eq_true_eq] at h
    simp [h]
  · rw [if_neg h]
    simp only [List.any_eq_true,decide_eq_true_eq] at h
    simp [h]

namespace FlowGraph

/-- The names that are in use at an address: some path transmits one that contains it, or
reads one to compute a name in use, before it is written under exactly that name. -/
inductive Used (g : FlowGraph) : ℕ → RegName → Prop
  | transmitted {p r s} (hp : p ∈ g.insns) (hs : s ∈ getUnprotOperands p.2.cs)
      (hr : Within r s) : Used g p.1 r
  | read {p a w r s} (hp : p ∈ g.insns) (ha : a ∈ g.next p.1) (hw : w ∈ p.2.cs.regsWrite)
      (later : Used g a w) (hs : s ∈ p.2.cs.regsRead) (hr : Within r s) : Used g p.1 r
  | kept {p a r s} (hp : p ∈ g.insns) (ha : a ∈ g.next p.1) (later : Used g a s)
      (hw : s ∉ p.2.cs.regsWrite) (hr : Within r s) : Used g p.1 r

/-- In use after the instruction. -/
def UsedAfter (g : FlowGraph) (p : ℕ × Insn) (r : RegName) : Prop :=
  ∃ a ∈ g.next p.1, g.Used a r

variable {g : FlowGraph}

/-- What membership means in a solution of the equations. -/
lemma Solves.mem_iff {pre post : ℕ → Finset RegName} (h : g.Solves pre post) {p : ℕ × Insn}
    (hp : p ∈ g.insns) (r : RegName) :
    r ∈ pre p.1 ↔ (∃ s ∈ getUnprotOperands p.2.cs, Within r s) ∨
      ((∃ w ∈ p.2.cs.regsWrite, w ∈ post p.1) ∧ ∃ s ∈ p.2.cs.regsRead, Within r s) ∨
      ∃ s ∈ post p.1, s ∉ p.2.cs.regsWrite ∧ Within r s := by
  rw [transferSet_eq (h p hp).2,mem_spread]
  simp only [mem_flow]
  constructor
  · rintro ⟨s,⟨hs,hw⟩ | hs | ⟨hw,hs⟩,hr⟩
    · exact Or.inr (Or.inr ⟨s,hs,hw,hr⟩)
    · exact Or.inl ⟨s,hs,hr⟩
    · exact Or.inr (Or.inl ⟨hw,s,hs,hr⟩)
  · rintro (⟨s,hs,hr⟩ | ⟨hw,s,hs,hr⟩ | ⟨s,hs,hw,hr⟩)
    · exact ⟨s,Or.inr (Or.inl hs),hr⟩
    · exact ⟨s,Or.inr (Or.inr ⟨hw,hs⟩),hr⟩
    · exact ⟨s,Or.inl ⟨hs,hw⟩,hr⟩

lemma mem_join {pre : ℕ → Finset RegName} {a : ℕ} {r : RegName} :
    r ∈ g.join pre a ↔ ∃ b ∈ g.next a, r ∈ pre b := by
  simp [join]

lemma Solves.mem_post {pre post : ℕ → Finset RegName} (h : g.Solves pre post) {p : ℕ × Insn}
    (hp : p ∈ g.insns) {r : RegName} : r ∈ post p.1 ↔ ∃ a ∈ g.next p.1, r ∈ pre a := by
  rw [(h p hp).1,mem_join]

/-- Every solution holds all names in use. -/
lemma Used.mem {pre post : ℕ → Finset RegName} (hs : g.Solves pre post) {a : ℕ} {r : RegName}
    (h : g.Used a r) : r ∈ pre a := by
  induction h with
  | transmitted hp hu hr => exact (hs.mem_iff hp _).mpr (Or.inl ⟨_,hu,hr⟩)
  | read hp ha hw _ hu hr ih =>
    exact (hs.mem_iff hp _).mpr (Or.inr (Or.inl ⟨⟨_,hw,(hs.mem_post hp).mpr ⟨_,ha,ih⟩⟩,_,hu,hr⟩))
  | kept hp ha _ hw hr ih =>
    exact (hs.mem_iff hp _).mpr (Or.inr (Or.inr ⟨_,(hs.mem_post hp).mpr ⟨_,ha,ih⟩,hw,hr⟩))

open Classical in
/-- The names in use, as a set. -/
noncomputable def usedSet (g : FlowGraph) (a : ℕ) : Finset RegName :=
  allRegNames.toFinset.filter fun r => g.Used a r

lemma mem_usedSet {a : ℕ} {r : RegName} : r ∈ g.usedSet a ↔ g.Used a r := by
  simp [usedSet,mem_allRegNames]

/-- The names in use at an instruction satisfy its equation. -/
lemma spread_usedSet {p : ℕ × Insn} (hp : p ∈ g.insns) :
    spread (flow p.2.cs (g.join g.usedSet p.1)) = g.usedSet p.1 := by
  ext r
  simp only [mem_spread,mem_flow,mem_join,mem_usedSet]
  constructor
  · rintro ⟨s,⟨⟨a,ha,hs⟩,hw⟩ | hs | ⟨⟨w,hw,a,ha,later⟩,hs⟩,hr⟩
    · exact .kept hp ha hs hw hr
    · exact .transmitted hp hs hr
    · exact .read hp ha hw later hs hr
  · intro h
    generalize ha : p.1 = a at h
    induction h with
    | @transmitted q r s hq hs hr =>
      obtain rfl := eq_of_address hp hq ha
      exact ⟨s,Or.inr (Or.inl hs),hr⟩
    | @read q a w r s hq hn hw later hs hr =>
      obtain rfl := eq_of_address hp hq ha
      exact ⟨s,Or.inr (Or.inr ⟨⟨w,hw,a,hn,later⟩,hs⟩),hr⟩
    | @kept q a r s hq hn later hw hr =>
      obtain rfl := eq_of_address hp hq ha
      exact ⟨s,Or.inl ⟨⟨a,hn,later⟩,hw⟩,hr⟩

/-- The least solution consists of the names in use. -/
lemma Least.mem_iff {pre post : ℕ → Finset RegName} (h : g.Least pre post) {p : ℕ × Insn}
    (hp : p ∈ g.insns) (r : RegName) : r ∈ pre p.1 ↔ g.Used p.1 r := by
  refine ⟨?_,fun hr => hr.mem h.solves⟩
  have solves : g.Solves g.usedSet (g.join g.usedSet) := by
    intro q hq
    refine ⟨rfl,?_⟩
    have below : g.join g.usedSet q.1 ⊆ post q.1 := by
      intro s hs
      obtain ⟨a,ha,hs⟩ := mem_join.mp hs
      exact (h.solves.mem_post hq).mpr ⟨a,ha,(mem_usedSet.mp hs).mem h.solves⟩
    have defined : (transferSet q.2.cs (post q.1)).isSome := by
      rw [(h.solves q hq).2]
      rfl
    obtain ⟨out,hout⟩ := Option.isSome_iff_exists.mp (transferSet_isSome_anti below defined)
    rw [hout,transferSet_eq hout,spread_usedSet hq]
  intro hr
  exact mem_usedSet.mp ((h.least _ _ solves p hp).1 hr)

/-- A path of the program. -/
def IsPath (g : FlowGraph) (l : List (ℕ × Insn)) : Prop :=
  (∀ p ∈ l, p ∈ g.insns) ∧ l.IsChain fun p q => q.1 ∈ g.next p.1

/-- On every path, an instruction that last wrote a bit of a register in `unprots_pre` has all
its inputs in `unprots_pre`. -/
def Sound (g : FlowGraph) (d : Dataflow) : Prop :=
  ∀ p mids q, g.IsPath (p :: mids ++ [q]) → ∀ r ∈ d.preSet q.1, ∀ b, r.Holds b →
    Writes p.2.cs b → (∀ m ∈ mids, ¬Writes m.2.cs b) → ∀ s ∈ p.2.cs.regsRead, s ∈ d.preSet p.1

/-- The instruction transmits the register, or reads it to compute an unprotected one. -/
def Generates (d : Dataflow) (p : ℕ × Insn) (r : RegName) : Prop :=
  (∃ s ∈ getUnprotOperands p.2.cs, Within r s) ∨
  (∃ w ∈ p.2.cs.regsWrite, w ∈ d.postSet p.1) ∧ ∃ s ∈ p.2.cs.regsRead, Within r s

/-- Some path from the instruction transmits the register, or uses it unprotected, before all
of it is overwritten. -/
def Reaches (g : FlowGraph) (d : Dataflow) (p : ℕ × Insn) (r : RegName) : Prop :=
  ∃ mids q, g.IsPath (mids ++ [q]) ∧ (mids ++ [q]).head? = some p ∧
    (∀ m ∈ mids, ¬Overwrites m.2.cs r) ∧ Generates d q r

/-- No register that is overwritten first on every path is in `unprots_pre`. -/
def Precise (g : FlowGraph) (d : Dataflow) : Prop :=
  ∀ p ∈ g.insns, ∀ r ∈ d.preSet p.1, g.Reaches d p r

/-- No aliasing at an instruction. If it writes a part of a name in use, it also writes a name
in use, or its inputs are in use anyway. If it overwrites a register and that one, or a name
that contains it, is in use afterwards, then it writes that very name or has its own use for
the register. -/
structure Unaliased (g : FlowGraph) (p : ℕ × Insn) : Prop where
  writes : ∀ r, g.UsedAfter p r → Touches p.2.cs r →
    (∃ w ∈ p.2.cs.regsWrite, g.UsedAfter p w) ∨
    ∀ s ∈ p.2.cs.regsRead, (∃ t ∈ getUnprotOperands p.2.cs, Within s t) ∨
      ∃ t, g.UsedAfter p t ∧ t ∉ p.2.cs.regsWrite ∧ Within s t
  removes : ∀ r s, Overwrites p.2.cs r → Within r s → g.UsedAfter p s →
    s ∈ p.2.cs.regsWrite ∨ (∃ t ∈ getUnprotOperands p.2.cs, Within r t) ∨
      (∃ w ∈ p.2.cs.regsWrite, g.UsedAfter p w) ∧ ∃ t ∈ p.2.cs.regsRead, Within r t

section Least
variable {d : Dataflow} (hd : g.Least d.preSet d.postSet)
include hd

lemma Least.mem_post_iff {p : ℕ × Insn} (hp : p ∈ g.insns) (r : RegName) :
    r ∈ d.postSet p.1 ↔ g.UsedAfter p r := by
  rw [hd.solves.mem_post hp]
  unfold UsedAfter
  constructor
  · rintro ⟨a,ha,hr⟩
    obtain ⟨q,hq,rfl⟩ := List.mem_map.mp (next_mem hp ha)
    exact ⟨q.1,ha,(hd.mem_iff hq r).mp hr⟩
  · rintro ⟨a,ha,hr⟩
    exact ⟨a,ha,hr.mem hd.solves⟩

lemma Least.generates_iff {p : ℕ × Insn} (hp : p ∈ g.insns) (r : RegName) :
    Generates d p r ↔ (∃ s ∈ getUnprotOperands p.2.cs, Within r s) ∨
      (∃ w ∈ p.2.cs.regsWrite, g.UsedAfter p w) ∧ ∃ s ∈ p.2.cs.regsRead, Within r s := by
  simp only [Generates,hd.mem_post_iff hp]

/-- Names survive the instructions that do not write them. -/
lemma Least.mem_of_post {p : ℕ × Insn} (hp : p ∈ g.insns) {r : RegName}
    (hr : r ∈ d.postSet p.1) (hw : r ∉ p.2.cs.regsWrite) : r ∈ d.preSet p.1 := by
  have matched : (subregs r).isSome := by
    have := transferSet_isSome.mp (Option.isSome_of_eq_some (hd.solves p hp).2) r
    exact this (mem_flow.mpr (Or.inl ⟨hr,hw⟩))
  exact (hd.solves.mem_iff hp r).mpr (Or.inr (Or.inr ⟨r,hr,hw,within_self matched⟩))

/-- A register stays in the sets along a path that leaves one of its bits alone. -/
lemma Least.mem_along {r : RegName} {b : Cell × ℕ} (hb : r.Holds b) {q : ℕ × Insn}
    (hr : r ∈ d.preSet q.1) (mids : List (ℕ × Insn)) (p : ℕ × Insn)
    (path : g.IsPath (p :: mids ++ [q])) (keep : ∀ m ∈ mids, ¬Writes m.2.cs b) :
    r ∈ d.postSet p.1 := by
  induction mids generalizing p with
  | nil =>
    have hp := path.1 p (by simp)
    have edge : q.1 ∈ g.next p.1 := (List.isChain_cons_cons.mp path.2).1
    exact (hd.solves.mem_post hp).mpr ⟨q.1,edge,hr⟩
  | cons m mids ih =>
    have hp := path.1 p (by simp)
    have hm := path.1 m (by simp)
    obtain ⟨edge,rest⟩ := List.isChain_cons_cons.mp path.2
    have after := ih m ⟨fun x hx => path.1 x (List.mem_cons_of_mem p hx),rest⟩
      fun x hx => keep x (List.mem_cons_of_mem m hx)
    have notWritten : r ∉ m.2.cs.regsWrite := fun hw =>
      keep m List.mem_cons_self ⟨r,hw,hb.changes⟩
    exact (hd.solves.mem_post hp).mpr ⟨m.1,edge,hd.mem_of_post hm after notWritten⟩

lemma Least.sound (h : ∀ p ∈ g.insns, g.Unaliased p) : g.Sound d := by
  intro p mids q path r hr b hb hw keep s hs
  have hp := path.1 p (by simp)
  have after := hd.mem_along hb hr mids p path keep
  apply (hd.solves.mem_iff hp s).mpr
  rcases (h p hp).writes r ((hd.mem_post_iff hp r).mp after) ⟨b,hb,hw⟩ with ⟨w,hw,hu⟩ | harmless
  · have post := (hd.mem_post_iff hp w).mpr hu
    have matched := transferSet_isSome.mp (Option.isSome_of_eq_some (hd.solves p hp).2) s
      (mem_flow.mpr (Or.inr (Or.inr ⟨⟨w,hw,post⟩,hs⟩)))
    exact Or.inr (Or.inl ⟨⟨w,hw,post⟩,s,hs,within_self matched⟩)
  · rcases harmless s hs with transmitted | ⟨t,ht,htw,hst⟩
    · exact Or.inl transmitted
    · exact Or.inr (Or.inr ⟨t,(hd.mem_post_iff hp t).mpr ht,htw,hst⟩)

omit hd in
lemma Generates.reaches {p : ℕ × Insn} (hp : p ∈ g.insns) {r : RegName}
    (h : Generates d p r) : g.Reaches d p r :=
  ⟨[],p,⟨by simpa using hp,by simp⟩,rfl,by simp,h⟩

omit hd in
lemma Reaches.cons {p n : ℕ × Insn} (hp : p ∈ g.insns) (edge : n.1 ∈ g.next p.1) {r : RegName}
    (overwrites : ¬Overwrites p.2.cs r) (h : g.Reaches d n r) : g.Reaches d p r := by
  obtain ⟨mids,q,path,head,clean,gen⟩ := h
  refine ⟨p :: mids,q,⟨?_,?_⟩,rfl,?_,gen⟩
  · intro x hx
    rcases List.mem_cons.mp hx with rfl | hx
    · exact hp
    · exact path.1 x hx
  · apply List.isChain_cons.mpr
    refine ⟨?_,path.2⟩
    intro y hy
    have first : (mids ++ [q]).head? = some y := hy
    rw [head] at first
    cases first
    exact edge
  · intro m hm
    rcases List.mem_cons.mp hm with rfl | hm
    · exact overwrites
    · exact clean m hm

/-- Sub-registers take the path of the name they are part of, so the induction is over both. -/
lemma Least.reaches (h : ∀ p ∈ g.insns, g.Unaliased p) {a : ℕ} {r : RegName} (hu : g.Used a r) :
    ∀ p ∈ g.insns, p.1=a → ∀ s, Within s r → g.Reaches d p s := by
  induction hu with
  | @transmitted q r t hq ht hr =>
    intro p hp ha s hs
    obtain rfl := eq_of_address hp hq ha
    exact Generates.reaches hp (Or.inl ⟨t,ht,hs.trans hr⟩)
  | @read q a w r t hq hn hw later ht hr _ =>
    intro p hp ha s hs
    obtain rfl := eq_of_address hp hq ha
    apply Generates.reaches hp
    exact (hd.generates_iff hp s).mpr (Or.inr ⟨⟨w,hw,a,hn,later⟩,t,ht,hs.trans hr⟩)
  | @kept q a r t hq hn later hw hr ih =>
    intro p hp ha s hs
    obtain rfl := eq_of_address hp hq ha
    by_cases overwrites : Overwrites p.2.cs s
    · rcases (h p hp).removes s t overwrites (hs.trans hr) ⟨a,hn,later⟩ with written | own
      · exact absurd written hw
      · exact Generates.reaches hp ((hd.generates_iff hp s).mpr own)
    · obtain ⟨n,hmem,rfl⟩ := List.mem_map.mp (next_mem hp hn)
      exact (ih n hmem rfl s (hs.trans hr)).cons hp hn overwrites

lemma Least.precise (h : ∀ p ∈ g.insns, g.Unaliased p) : g.Precise d := by
  intro p hp r hr
  have self : Within r r := by
    rcases (hd.solves.mem_iff hp r).mp hr with ⟨s,-,h⟩ | ⟨-,s,-,h⟩ | ⟨s,-,-,h⟩ <;> exact h.self
  exact hd.reaches h ((hd.mem_iff hp r).mp hr) p hp rfl r self

lemma Least.unaliased (hs : g.Sound d) (hpr : g.Precise d) {p : ℕ × Insn} (hp : p ∈ g.insns) :
    g.Unaliased p := by
  constructor
  · rintro r ⟨a,ha,hu⟩ ⟨b,hb,hw⟩
    obtain ⟨q,hq,rfl⟩ := List.mem_map.mp (next_mem hp ha)
    have path : g.IsPath (p :: [] ++ [q]) := by
      refine ⟨?_,by simpa using ha⟩
      simp [hp,hq]
    have reads := hs p [] q path r ((hd.mem_iff hq r).mpr hu) b hb hw (by simp)
    by_cases fires : ∃ w ∈ p.2.cs.regsWrite, g.UsedAfter p w
    · exact Or.inl fires
    · right
      intro s hsr
      rcases (hd.solves.mem_iff hp s).mp (reads s hsr) with t | ⟨⟨w,hw,post⟩,-⟩ | ⟨t,ht,htw,hst⟩
      · exact Or.inl t
      · exact absurd ⟨w,hw,(hd.mem_post_iff hp w).mp post⟩ fires
      · exact Or.inr ⟨t,(hd.mem_post_iff hp t).mp ht,htw,hst⟩
  · rintro r s overwrites hrs hu
    by_cases hw : s ∈ p.2.cs.regsWrite
    · exact Or.inl hw
    · right
      have stays : r ∈ d.preSet p.1 := (hd.solves.mem_iff hp r).mpr
        (Or.inr (Or.inr ⟨s,(hd.mem_post_iff hp s).mpr hu,hw,hrs⟩))
      obtain ⟨mids,q,-,hhead,clean,gen⟩ := hpr p hp r stays
      cases mids with
      | nil =>
        cases hhead
        exact (hd.generates_iff hp r).mp gen
      | cons m mids =>
        cases hhead
        exact absurd overwrites (clean p List.mem_cons_self)

end Least

/-- The analysis respects register aliasing on every path exactly when no instruction writes a
register under another name than the one in use. -/
theorem aliasing_iff (h : dataflowAnalysis g.insns g.succs 1001 {} = some d) :
    (g.Sound d ∧ g.Precise d) ↔ ∀ p ∈ g.insns, g.Unaliased p := by
  have hd := least_of_returns h
  exact ⟨fun hs p hp => hd.unaliased hs.1 hs.2 hp,fun hu => ⟨hd.sound hu,hd.precise hu⟩⟩

/-- The instruction transmits the register. -/
def Transmits (p : ℕ × Insn) (r : RegName) : Prop := ∃ s ∈ getUnprotOperands p.2.cs, Within r s

/-- The instruction reads the register. -/
def Reads (p : ℕ × Insn) (r : RegName) : Prop := ∃ s ∈ p.2.cs.regsRead, Within r s

/-- The registers whose values matter at an address, whatever the analysis makes of them: some path
transmits the register, or reads it in an instruction that writes one that matters, before all of
it is overwritten. -/
inductive Matters (g : FlowGraph) : ℕ → RegName → Prop
  | transmitted {p r} (hp : p ∈ g.insns) (hr : Transmits p r) : Matters g p.1 r
  | read {p a w r} (hp : p ∈ g.insns) (ha : a ∈ g.next p.1) (hw : w ∈ p.2.cs.regsWrite)
      (later : Matters g a w) (hr : Reads p r) : Matters g p.1 r
  | kept {p a r s} (hp : p ∈ g.insns) (ha : a ∈ g.next p.1) (later : Matters g a s)
      (hr : Within r s) (ho : ¬Overwrites p.2.cs r) : Matters g p.1 r

def MattersAfter (g : FlowGraph) (p : ℕ × Insn) (r : RegName) : Prop :=
  ∃ a ∈ g.next p.1, g.Matters a r

/-- The names that the instruction reads, writes and transmits, next to those that matter after it.
If it writes a part of a register that matters, it writes some register that matters under exactly
its name, or transmits all that it reads. If it overwrites a register that matters or is a part of
one that does, it writes that one under exactly its name, or transmits or reads the register. -/
structure ExactNames (g : FlowGraph) (p : ℕ × Insn) : Prop where
  writes : ∀ r, g.MattersAfter p r → Touches p.2.cs r →
    (∃ w ∈ p.2.cs.regsWrite, g.MattersAfter p w) ∨ ∀ s ∈ p.2.cs.regsRead, Transmits p s
  removes : ∀ r s, Overwrites p.2.cs r → Within r s → g.MattersAfter p s →
    s ∈ p.2.cs.regsWrite ∨ Transmits p r ∨
      (∃ w ∈ p.2.cs.regsWrite, g.MattersAfter p w) ∧ Reads p r

lemma Within.holds {r s : RegName} (h : Within r s) {b : Cell × ℕ} (hb : r.Holds b) :
    s.Holds b := by
  have table : ∀ s ∈ allRegNames, ∀ r ∈ (subregs s).getD [],
      r.cell=s.cell ∧ s.range.1 ≤ r.range.1 ∧ r.range.2 ≤ s.range.2 := by decide +kernel
  obtain ⟨cell,lo,hi⟩ := table s (mem_allRegNames s) r h
  exact ⟨hb.1.trans cell,lo.trans hb.2.1,hb.2.2.trans_le hi⟩

/-- A register that matters is in use: a name is only removed if all of it is overwritten. -/
lemma Matters.used {a : ℕ} {r : RegName} (h : g.Matters a r) : g.Used a r := by
  induction h with
  | transmitted hp hr =>
    obtain ⟨s,hs,hr⟩ := hr
    exact .transmitted hp hs hr
  | read hp ha hw _ hr ih =>
    obtain ⟨s,hs,hr⟩ := hr
    exact .read hp ha hw ih hs hr
  | @kept p a r s hp ha _ hr ho ih =>
    refine .kept hp ha ih (fun hw => ho fun b hb => ?_) hr
    exact ⟨s,hw,(Within.holds hr hb).changes⟩

/-- With exact names, the registers in use are those that matter. -/
lemma Used.matters (h : ∀ p ∈ g.insns, g.ExactNames p) {a : ℕ} {r : RegName} (hu : g.Used a r) :
    g.Matters a r := by
  induction hu with
  | transmitted hp hs hr => exact .transmitted hp ⟨_,hs,hr⟩
  | read hp ha hw _ hs hr ih => exact .read hp ha hw ih ⟨_,hs,hr⟩
  | @kept p a r s hp ha _ hw hr ih =>
    by_cases ho : Overwrites p.2.cs r
    · rcases (h p hp).removes r s ho hr ⟨a,ha,ih⟩ with written | transmits | ⟨⟨w,hww,a',ha',later⟩,hread⟩
      · exact absurd written hw
      · exact .transmitted hp transmits
      · exact .read hp ha' hww later hread
    · exact .kept hp ha ih hr ho

lemma usedAfter_iff (h : ∀ p ∈ g.insns, g.ExactNames p) (p : ℕ × Insn) (r : RegName) :
    g.UsedAfter p r ↔ g.MattersAfter p r :=
  ⟨fun ⟨a,ha,hu⟩ => ⟨a,ha,hu.matters h⟩,fun ⟨a,ha,hm⟩ => ⟨a,ha,hm.used⟩⟩

lemma ExactNames.unaliased (h : ∀ p ∈ g.insns, g.ExactNames p) {p : ℕ × Insn}
    (hp : p ∈ g.insns) : g.Unaliased p where
  writes r hr ht := by
    simp only [usedAfter_iff h] at hr ⊢
    exact ((h p hp).writes r hr ht).imp_right fun all s hs => Or.inl (all s hs)
  removes r s ho hrs hs := by
    simp only [usedAfter_iff h] at hs ⊢
    exact (h p hp).removes r s ho hrs hs

/-- On every path, an instruction that last wrote a part of an unprotected register has all its
inputs unprotected, and no register that is overwritten first stays unprotected, if the
instructions of the program write the registers that matter under exactly their names. -/
theorem dataflowAnalysis_aliasing (g : FlowGraph) (d : Dataflow)
    (h : dataflowAnalysis g.insns g.succs 1001 {} = some d)
    (names : ∀ p ∈ g.insns, g.ExactNames p) : g.Sound d ∧ g.Precise d :=
  (aliasing_iff h).mpr fun _ hp => ExactNames.unaliased names hp

/-- `cmp al,cl`. -/
def compareBytes : Insn where
  bytes := [0x38,0xC8]
  finish c _ := c
  cs := { regsRead := [.gpr .w8 .A,.gpr .w8 .C], regsWrite := [.flags] }

/-- `jz` to the next instruction, which is at 7. -/
def jumpZero : Insn where
  bytes := [0x74,0x00]
  finish c _ := c
  cs := { regsRead := [.flags], groupJump := true, groupBranchRelative := true, imm := 7 }

/-- `mov al,bl`. -/
def moveByte : Insn where
  bytes := [0x88,0xD8]
  finish c _ := c
  cs := { regsRead := [.gpr .w8 .B], regsWrite := [.gpr .w8 .A] }

/-- A byte is moved, compared and branched on. -/
def byteCompare : FlowGraph where
  insns := [(1,moveByte),(3,compareBytes),(5,jumpZero)]
  succs := [(1,[3]),(3,[5]),(5,[])]
  sorted := by decide
  closed := by decide

lemma matters_byteCompare {a : ℕ} {r : RegName} (h : byteCompare.Matters a r) :
    (a=3 → r = .gpr .w8 .A ∨ r = .gpr .w8 .C) ∧ (a=5 → r = .flags) := by
  have found : (dataflowAnalysis byteCompare.insns byteCompare.succs 1001 {}).any (fun d =>
      decide (d.preSet 3 = {.gpr .w8 .A,.gpr .w8 .C} ∧ d.preSet 5 = {.flags})) = true := by
    decide +kernel
  obtain ⟨d,hd,sets⟩ := (Option.any_eq_true _ _).mp found
  obtain ⟨three,five⟩ := of_decide_eq_true sets
  have hr := h.used.mem (least_of_returns hd).solves
  constructor <;> rintro rfl
  · simpa [three] using hr
  · simpa [five] using hr

lemma exactNames_byteCompare : ∀ p ∈ byteCompare.insns, byteCompare.ExactNames p := by
  have flags : byteCompare.Matters 5 .flags :=
    .transmitted (p := (5,jumpZero)) (by simp [byteCompare]) ⟨.flags,by decide,by decide⟩
  have al : byteCompare.Matters 3 (.gpr .w8 .A) :=
    .read (p := (3,compareBytes)) (by simp [byteCompare]) (a := 5) (by decide)
      (by decide : RegName.flags ∈ _) flags ⟨.gpr .w8 .A,by decide,by decide⟩
  intro p hp
  simp only [byteCompare,List.mem_cons,List.not_mem_nil,or_false] at hp
  rcases hp with rfl | rfl | rfl
  · refine ⟨fun r _ _ => Or.inl ⟨.gpr .w8 .A,by decide,3,by decide,al⟩,?_⟩
    rintro r s ho hrs ⟨a,ha,hs⟩
    obtain rfl : a=3 := List.mem_singleton.mp ha
    rcases (matters_byteCompare hs).1 rfl with rfl | rfl
    · exact Or.inl (by decide)
    · obtain rfl : r = .gpr .w8 .C := List.mem_singleton.mp hrs
      obtain ⟨w,hw,cell,-⟩ := ho (.gpr .C,0) ⟨rfl,by decide,by decide⟩
      obtain rfl := List.mem_singleton.mp hw
      cases cell
  · refine ⟨fun r _ _ => Or.inl ⟨.flags,by decide,5,by decide,flags⟩,?_⟩
    rintro r s - - ⟨a,ha,hs⟩
    obtain rfl : a=5 := List.mem_singleton.mp ha
    obtain rfl := (matters_byteCompare hs).2 rfl
    exact Or.inl (by decide)
  · refine ⟨?_,?_⟩
    · rintro r ⟨a,ha,-⟩
      cases ha
    · rintro r s - - ⟨a,ha,-⟩
      cases ha

/-- The input of the move is found, and its output removed. -/
theorem dataflowAnalysis_aliasing_byteCompare :
    ∃ d, dataflowAnalysis byteCompare.insns byteCompare.succs 1001 {} = some d ∧
      byteCompare.Sound d ∧ byteCompare.Precise d ∧ .gpr .w8 .B ∈ d.preSet 1 ∧
        .gpr .w8 .A ∈ d.preSet 3 ∧ .gpr .w8 .A ∉ d.preSet 1 := by
  have found : (dataflowAnalysis byteCompare.insns byteCompare.succs 1001 {}).any (fun d =>
      decide (RegName.gpr .w8 .B ∈ d.preSet 1 ∧ RegName.gpr .w8 .A ∈ d.preSet 3 ∧
        RegName.gpr .w8 .A ∉ d.preSet 1)) = true := by
    decide +kernel
  obtain ⟨d,hd,facts⟩ := (Option.any_eq_true _ _).mp found
  obtain ⟨sound,precise⟩ := dataflowAnalysis_aliasing byteCompare d hd exactNames_byteCompare
  exact ⟨d,hd,sound,precise,of_decide_eq_true facts⟩

lemma moveWord_bytes_ne : ([0x48,0x89,0xD8] : List Byte) ≠ [] := by simp

/-- `mov rax,rbx`. -/
def moveWord : Insn where
  bytes := [0x48,0x89,0xD8]
  finish c _ := c
  cs := { regsRead := [.gpr .w64 .B], regsWrite := [.gpr .w64 .A] }
  bytes_ne := moveWord_bytes_ne

def moveCompare : FlowGraph where
  insns := [(0,moveWord),(3,compareBytes),(5,jumpZero)]
  succs := [(0,[3]),(3,[5]),(5,[])]
  sorted := by decide
  closed := by decide

/-- The comparison transmits `al`, which the move wrote as part of `rax`: its input is not
found, and `al` is not removed. -/
theorem dataflowAnalysis_aliasing_fails :
    ∃ d, dataflowAnalysis moveCompare.insns moveCompare.succs 1001 {} = some d ∧
      ¬moveCompare.Sound d ∧ ¬moveCompare.Precise d := by
  have found : (dataflowAnalysis moveCompare.insns moveCompare.succs 1001 {}).any (fun d =>
      decide (RegName.gpr .w8 .A ∈ d.preSet 3 ∧ RegName.gpr .w8 .A ∈ d.preSet 0 ∧
        RegName.gpr .w64 .B ∉ d.preSet 0)) = true := by
    decide +kernel
  obtain ⟨d,hd,facts⟩ := (Option.any_eq_true _ _).mp found
  obtain ⟨later,stays,missing⟩ := of_decide_eq_true facts
  have overwrites : Overwrites moveWord.cs (.gpr .w8 .A) := by
    rintro ⟨c,k⟩ ⟨cell,lo,hi⟩
    refine ⟨.gpr .w64 .A,List.mem_singleton.mpr rfl,cell,Nat.zero_le _,?_⟩
    exact lt_trans hi (by decide)
  refine ⟨d,hd,?_,?_⟩
  · intro sound
    have bit : (RegName.gpr .w8 .A).Holds (.gpr .A,0) := ⟨rfl,by decide,by decide⟩
    have path : moveCompare.IsPath [(0,moveWord),(3,compareBytes)] := by
      refine ⟨?_,by decide⟩
      intro p hp
      simp only [List.mem_cons,List.not_mem_nil,or_false] at hp
      rcases hp with rfl | rfl <;> simp [moveCompare]
    have reads := sound (0,moveWord) [] (3,compareBytes) path _ later _ bit (overwrites _ bit) (by simp)
    exact missing (reads _ (List.mem_singleton.mpr rfl))
  · intro precise
    obtain ⟨mids,q,-,head,clean,gen⟩ := precise (0,moveWord) (by simp [moveCompare]) _ stays
    cases mids with
    | nil =>
      cases head
      rcases gen with ⟨s,hs,-⟩ | ⟨-,s,hs,hw⟩
      · cases hs
      · obtain rfl := List.mem_singleton.mp hs
        exact absurd hw (by decide)
    | cons m mids =>
      cases head
      exact clean _ List.mem_cons_self overwrites

end FlowGraph
end CTSTracer
end ProteanAmulet
