import Mathlib.Data.List.Induction
import Mathlib.Tactic.Common

/-! Liveness in straight-line code whose instructions read, write and clobber resources. A
resource is well defined where it is read when some instruction before has written it and none
since has clobbered it. -/

/-- How instructions use resources. No instruction writes and clobbers the same one. -/
structure Usage (ι ρ : Type*) where
  reads : ι → ρ → Prop
  writes : ι → ρ → Prop
  clobbers : ι → ρ → Prop
  not_clobbers : ∀ {i f}, writes i f → ¬clobbers i f

namespace Usage
variable {ι ρ : Type*} (u : Usage ι ρ)

/-- The code reads the resource before it writes it. -/
def Live : List ι → ρ → Prop
  | [], _ => False
  | i :: l, f => u.reads i f ∨ ¬u.writes i f ∧ Live l f

def Defined (l : List ι) (f : ρ) : Prop :=
  ∃ a w b, l = a ++ w :: b ∧ u.writes w f ∧ ∀ i ∈ b, ¬u.clobbers i f

/-- Every resource is defined where it is read. -/
def WellDefined (l : List ι) : Prop :=
  ∀ a i b, l = a ++ i :: b → ∀ f, u.reads i f → u.Defined a f

/-- No instruction clobbers what is live after it. -/
def Unclobbered : List ι → Prop
  | [] => True
  | i :: l => (∀ f, u.clobbers i f → ¬u.Live l f) ∧ Unclobbered l

variable {u}

@[simp] lemma live_nil (f : ρ) : ¬u.Live [] f := id

@[simp] lemma live_cons {i : ι} {l : List ι} {f : ρ} :
    u.Live (i :: l) f ↔ u.reads i f ∨ ¬u.writes i f ∧ u.Live l f := Iff.rfl

@[simp] lemma unclobbered_cons {i : ι} {l : List ι} :
    u.Unclobbered (i :: l) ↔ (∀ f, u.clobbers i f → ¬u.Live l f) ∧ u.Unclobbered l := Iff.rfl

lemma not_defined_nil (f : ρ) : ¬u.Defined [] f := by
  rintro ⟨a,w,b,h,-⟩
  simp at h

lemma defined_concat {l : List ι} {i : ι} {f : ρ} :
    u.Defined (l ++ [i]) f ↔ u.writes i f ∨ u.Defined l f ∧ ¬u.clobbers i f := by
  constructor
  · rintro ⟨a,w,b,h,hw,hb⟩
    rcases List.eq_nil_or_concat b with rfl | ⟨b,j,rfl⟩
    · have hi := List.append_inj_right' h rfl
      exact Or.inl (by simp_all)
    · have split : l ++ [i] = (a ++ w :: b) ++ [j] := by simpa using h
      have hi := List.append_inj' split rfl
      obtain rfl : i=j := by simpa using hi.2
      exact Or.inr ⟨⟨a,w,b,hi.1,hw,fun k hk => hb k (by simp [hk])⟩,hb i (by simp)⟩
  · rintro (hw | ⟨⟨a,w,b,rfl,hw,hb⟩,hi⟩)
    · exact ⟨l,i,[],rfl,hw,by simp⟩
    · refine ⟨a,w,b ++ [i],by simp,hw,fun j hj => ?_⟩
      rcases List.mem_append.mp hj with hj | hj
      · exact hb j hj
      · rwa [List.mem_singleton.mp hj]

/-- What follows `a` reads only what is defined when it is reached. -/
private def WellDefinedAfter (u : Usage ι ρ) (a l : List ι) : Prop :=
  ∀ x i y, l = x ++ i :: y → ∀ f, u.reads i f → u.Defined (a ++ x) f

private lemma wellDefinedAfter_cons {a l : List ι} {i : ι} :
    WellDefinedAfter u a (i :: l) ↔
      (∀ f, u.reads i f → u.Defined a f) ∧ WellDefinedAfter u (a ++ [i]) l := by
  constructor
  · intro h
    refine ⟨fun f hf => ?_,fun x j y hl f hf => ?_⟩
    · simpa using h [] i l rfl f hf
    · simpa using h (i :: x) j y (by simp [hl]) f hf
  · rintro ⟨head,tail⟩ x j y hl f hf
    cases x with
    | nil =>
      obtain ⟨rfl,rfl⟩ := List.cons.inj hl
      simpa using head f hf
    | cons k x =>
      obtain ⟨rfl,rfl⟩ := List.cons.inj hl
      simpa using tail x j y rfl f hf

/-- Backwards: the definitions before the code matter for what is live at its start. -/
private lemma wellDefinedAfter_iff (l : List ι) : ∀ a, WellDefinedAfter u a l ↔
    u.Unclobbered l ∧ ∀ f, u.Live l f → u.Defined a f := by
  induction l with
  | nil => simp [WellDefinedAfter,Unclobbered]
  | cons i l ih =>
    intro a
    rw [wellDefinedAfter_cons,ih]
    simp only [defined_concat,unclobbered_cons,live_cons]
    constructor
    · rintro ⟨reads,clean,after⟩
      refine ⟨⟨fun f hc hl => ?_,clean⟩,fun f => ?_⟩
      · rcases after f hl with hw | ⟨-,hn⟩
        · exact u.not_clobbers hw hc
        · exact hn hc
      · rintro (hr | ⟨hw,hl⟩)
        · exact reads f hr
        · exact ((after f hl).resolve_left hw).1
    · rintro ⟨⟨head,clean⟩,before⟩
      refine ⟨fun f hr => before f (Or.inl hr),clean,fun f hl => ?_⟩
      by_cases hw : u.writes i f
      · exact Or.inl hw
      · exact Or.inr ⟨before f (Or.inr ⟨hw,hl⟩),fun hc => head f hc hl⟩

/-- Reads are well defined exactly when no live resource is clobbered and none is live at the
start. -/
theorem wellDefined_iff {l : List ι} :
    u.WellDefined l ↔ u.Unclobbered l ∧ ∀ f, ¬u.Live l f := by
  have h := wellDefinedAfter_iff (u := u) l []
  simp only [not_defined_nil,imp_false] at h
  rw [← h]
  simp [WellDefined,WellDefinedAfter]

lemma live_append_of_not_reads {a : List ι} (h : ∀ i ∈ a, ∀ f, ¬u.reads i f) (l : List ι) (f : ρ) :
    u.Live (a ++ l) f ↔ u.Live l f ∧ ∀ i ∈ a, ¬u.writes i f := by
  induction a with
  | nil => simp
  | cons i a ih =>
    have ha := ih fun j hj => h j (by simp [hj])
    simp only [List.cons_append,live_cons,h i (by simp) f,false_or,ha,List.forall_mem_cons]
    tauto

/-- Code in front of `l` that reads nothing, listed backwards. If an element never clobbers a
live resource that one behind it in the code writes, then its clobbering is harmful whenever it
hits a live resource at all. -/
theorem unclobbered_reverse_append {l : List ι} (a : List ι)
    (quiet : ∀ i ∈ a, ∀ f, ¬u.reads i f)
    (late : ∀ x i y, a = x ++ i :: y → ∀ f, u.clobbers i f → u.Live l f →
      ∀ j ∈ x, ¬u.writes j f) :
    u.Unclobbered (a.reverse ++ l) ↔
      u.Unclobbered l ∧ ∀ i ∈ a, ∀ f, u.clobbers i f → ¬u.Live l f := by
  induction a using List.reverseRecOn with
  | nil => simp
  | append_singleton a i ih =>
    have before := ih (fun j hj => quiet j (by simp [hj]))
      fun x j y hx => late x j (y ++ [i]) (by simp [hx])
    have live : ∀ f, u.Live (a.reverse ++ l) f ↔ u.Live l f ∧ ∀ j ∈ a, ¬u.writes j f := by
      intro f
      rw [live_append_of_not_reads fun j hj => quiet j (by simp_all)]
      simp
    have last : (∀ f, u.clobbers i f → ¬u.Live (a.reverse ++ l) f) ↔
        ∀ f, u.clobbers i f → ¬u.Live l f := by
      refine forall₂_congr fun f hc => not_congr ?_
      rw [live]
      exact ⟨And.left,fun hl => ⟨hl,late a i [] rfl f hc hl⟩⟩
    simp only [List.reverse_append,List.reverse_cons,List.reverse_nil,List.nil_append,
      List.cons_append,unclobbered_cons,last,before,List.mem_append,List.mem_singleton,
      or_imp,forall_and,forall_eq]
    tauto

end Usage
