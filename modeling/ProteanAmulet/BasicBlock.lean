import Mathlib.Data.List.Perm.Subperm
import Mathlib.Logic.Function.Basic
import ProteanAmulet.Library.LinkedList
import ProteanAmulet.Library.Runs

/-! Basic blocks are linked lists of instructions. The links are kept in the instructions themselves,
so that the heap is part of the state; the passes use a block as the list of its instructions. -/
namespace ProteanAmulet
open Function (update)
open LinkedList (Linked)

/-- A `BasicBlock`, with the links of all instructions. -/
structure BasicBlock (α : Type*) where
  next : α → Option α := fun _ => none
  previous : α → Option α := fun _ => none
  start : Option α := none
  end_ : Option α := none

namespace BasicBlock
variable {α : Type*}

section Loops
variable (next : α → Option α)

/-- `__iter__`, up to a number of instructions. -/
def iterFrom : ℕ → Option α → Option (List α)
  | _, none => some []
  | 0, some _ => none
  | fuel+1, some inst => (iterFrom fuel (next inst)).map (inst :: ·)

/-- The loop of `__len__`. -/
def lenFrom : ℕ → α → ℕ → Option ℕ
  | 0, _, _ => none
  | fuel+1, instr, count =>
    match next instr with
    | some instr => lenFrom fuel instr (count+1)
    | none => some count

/-- The loop of `delete`, which ends at the target. -/
def findFrom [DecidableEq α] (target : α) : ℕ → Option α → Option Bool
  | _, none => some false
  | 0, some _ => none
  | fuel+1, some inst => if inst = target then some true else findFrom target fuel (next inst)

end Loops

def iter (b : BasicBlock α) (fuel : ℕ) : Option (List α) := iterFrom b.next fuel b.start

def len (b : BasicBlock α) (fuel : ℕ) : Option ℕ :=
  match b.start with
  | none => some 0
  | some instr => lenFrom b.next fuel instr 1

section Operations
variable [DecidableEq α]

/-- `insert_after` at an instruction. -/
def linkAfter (b : BasicBlock α) (position inst : α) : BasicBlock α :=
  let next_ := b.next position
  let b := { b with
    next := update b.next position (some inst)
    previous := update b.previous inst (some position) }
  match next_ with
  | some n => { b with
      next := update b.next inst (some n)
      previous := update b.previous n (some inst) }
  | none => { b with end_ := some inst }

/-- `insert_before` at an instruction. -/
def linkBefore (b : BasicBlock α) (position inst : α) : BasicBlock α :=
  let previous := b.previous position
  let b := { b with
    previous := update b.previous position (some inst)
    next := update b.next inst (some position) }
  match previous with
  | some p => { b with
      previous := update b.previous inst (some p)
      next := update b.next p (some inst) }
  | none => { b with start := some inst }

def insertAfter (b : BasicBlock α) (position : Option α) (inst : α) : BasicBlock α :=
  match position,b.start with
  | none, none => { b with start := some inst, end_ := some inst }
  | none, some first => b.linkAfter first inst
  | some position, _ => b.linkAfter position inst

def insertBefore (b : BasicBlock α) (position : Option α) (inst : α) : BasicBlock α :=
  match position,b.start with
  | none, none => { b with start := some inst, end_ := some inst }
  | none, some first => b.linkBefore first inst
  | some position, _ => b.linkBefore position inst

/-- The second half of `delete`. -/
def unlink (b : BasicBlock α) (target : α) : BasicBlock α :=
  match b.previous target,b.next target with
  | none, none => { b with start := none, end_ := none }
  | none, some n => { b with previous := update b.previous n none, start := some n }
  | some p, none => { b with next := update b.next p none, end_ := some p }
  | some p, some n => { b with
      next := update b.next p (some n)
      previous := update b.previous n (some p) }

/-- `delete`: what it returns or raises, and the block after it. -/
def delete (b : BasicBlock α) (fuel : ℕ) (target : α) : Option (Except String Unit × BasicBlock α) :=
  (findFrom b.next target fuel b.start).map fun found =>
    if found then (.ok (),b.unlink target)
    else (.error "Error deleting an instruction from a BB",b)

end Operations

/-- A call of a method that changes the block. -/
inductive Op (α : Type*) where
  | insertAfter (position : Option α) (inst : α)
  | insertBefore (position : Option α) (inst : α)
  | delete (target : α)
  deriving DecidableEq

def Op.inserted : Op α → Option α
  | .insertAfter _ inst => some inst
  | .insertBefore _ inst => some inst
  | .delete _ => none

section Runs
variable [DecidableEq α]

def call (b : BasicBlock α) (fuel : ℕ) : Op α → Option (Except String Unit × BasicBlock α)
  | .insertAfter position inst => some (.ok (),b.insertAfter position inst)
  | .insertBefore position inst => some (.ok (),b.insertBefore position inst)
  | .delete target => b.delete fuel target

/-- Calls one after the other, up to the first that raises an exception. -/
def run (fuel : ℕ) (b : BasicBlock α) : List (Op α) → Option (Except String Unit × BasicBlock α)
  | [] => some (.ok (),b)
  | op :: ops =>
    match b.call fuel op with
    | some (.ok (),b) => run fuel b ops
    | r => r

/-- The sequence that a block stands for, and the instructions that were ever put into it. -/
structure Sequence (α : Type*) where
  items : List α := []
  used : List α := []

/-- An element of a list is followed by a new one. -/
def insertAfterIn (position inst : α) : List α → List α
  | [] => []
  | x :: l => if x = position then x :: inst :: l else x :: insertAfterIn position inst l

def insertBeforeIn (position inst : α) : List α → List α
  | [] => []
  | x :: l => if x = position then inst :: x :: l else x :: insertBeforeIn position inst l

/-- What the methods mean for the sequence; without a position they work at its first element. -/
def Op.onList : Op α → List α → List α
  | .insertAfter none inst, [] => [inst]
  | .insertAfter none inst, x :: l => x :: inst :: l
  | .insertAfter (some position) inst, l => insertAfterIn position inst l
  | .insertBefore none inst, l => inst :: l
  | .insertBefore (some position) inst, l => insertBeforeIn position inst l
  | .delete target, l => l.erase target

def Sequence.step (s : Sequence α) (op : Op α) : Sequence α :=
  ⟨op.onList s.items,op.inserted.toList ++ s.used⟩

/-- Positions and targets are members, and the instructions that are put in are new. -/
def Sequence.Allows (s : Sequence α) : Op α → Prop
  | .insertAfter position inst => (∀ p ∈ position, p ∈ s.items) ∧ inst ∉ s.used
  | .insertBefore position inst => (∀ p ∈ position, p ∈ s.items) ∧ inst ∉ s.used
  | .delete target => target ∈ s.items

/-- The block is a linked list with these elements. -/
structure Refines (b : BasicBlock α) (l : List α) : Prop where
  first : ∀ x ∈ b.start, b.previous x = none
  last : ∀ x ∈ b.end_, b.next x = none
  /-- The links lead from members to members. -/
  inside : ∀ x ∈ l, (∀ y ∈ b.next x, y ∈ l) ∧ ∀ y ∈ b.previous x, y ∈ l
  inverse : ∀ x ∈ l, ∀ y ∈ l, b.next x = some y ↔ b.previous y = some x
  empty : (b.start = none ↔ l = []) ∧ (b.end_ = none ↔ l = [])
  iter : ∀ fuel, l.length ≤ fuel → b.iter fuel = some l
  len : ∀ fuel, l.length ≤ fuel → b.len fuel = some l.length
  delete : ∀ x ∉ l, ∀ fuel, l.length ≤ fuel →
    b.delete fuel x = some (.error "Error deleting an instruction from a BB",b)

end Runs

section Loops
variable {next previous : α → Option α} {before : Option α} {l : List α}

/-- A loop over the block goes through its elements. -/
lemma iterFrom_eq (h : Linked next previous before l none) {fuel : ℕ} (hf : l.length ≤ fuel) :
    iterFrom next fuel l.head? = some l := by
  induction l generalizing before fuel with
  | nil => simp [iterFrom]
  | cons x l ih =>
    obtain ⟨fuel,rfl⟩ := Nat.exists_eq_add_of_le' (Nat.le_of_add_left_le hf)
    obtain ⟨-,hn,rest⟩ := h
    rw [Option.or_none] at hn
    rw [List.head?_cons,iterFrom,hn,ih rest (Nat.le_of_succ_le_succ hf)]
    rfl

lemma lenFrom_eq {x : α} (h : Linked next previous before (x :: l) none) {fuel : ℕ}
    (hf : l.length<fuel) (count : ℕ) : lenFrom next fuel x count = some (count+l.length) := by
  induction l generalizing before x fuel count with
  | nil =>
    cases fuel with
    | zero => cases hf
    | succ fuel =>
      rw [lenFrom,h.2.1]
      rfl
  | cons y l ih =>
    cases fuel with
    | zero => cases hf
    | succ fuel =>
      rw [lenFrom,h.2.1]
      change lenFrom next fuel y (count+1) = _
      rw [ih h.2.2 (Nat.lt_of_succ_lt_succ hf),List.length_cons,Nat.add_right_comm,Nat.add_assoc]

lemma findFrom_eq [DecidableEq α] (target : α) (h : Linked next previous before l none) {fuel : ℕ}
    (hf : l.length ≤ fuel) : findFrom next target fuel l.head? = some (decide (target ∈ l)) := by
  induction l generalizing before fuel with
  | nil => simp [findFrom]
  | cons x l ih =>
    obtain ⟨fuel,rfl⟩ := Nat.exists_eq_add_of_le' (Nat.le_of_add_left_le hf)
    obtain ⟨-,hn,rest⟩ := h
    rw [Option.or_none] at hn
    rw [List.head?_cons,findFrom,hn,ih rest (Nat.le_of_succ_le_succ hf)]
    by_cases here : x = target
    · simp [here]
    · simp [here,Ne.symm here]

end Loops

section Positions
variable [DecidableEq α] {l₁ l₂ : List α} {x : α}

lemma insertAfterIn_eq (inst : α) (h : x ∉ l₁) :
    insertAfterIn x inst (l₁ ++ x :: l₂) = l₁ ++ x :: inst :: l₂ := by
  induction l₁ with
  | nil => exact if_pos rfl
  | cons y l₁ ih =>
    rw [List.mem_cons,not_or] at h
    rw [List.cons_append,insertAfterIn,if_neg (Ne.symm h.1),ih h.2]
    rfl

lemma insertBeforeIn_eq (inst : α) (h : x ∉ l₁) :
    insertBeforeIn x inst (l₁ ++ x :: l₂) = l₁ ++ inst :: x :: l₂ := by
  induction l₁ with
  | nil => exact if_pos rfl
  | cons y l₁ ih =>
    rw [List.mem_cons,not_or] at h
    rw [List.cons_append,insertBeforeIn,if_neg (Ne.symm h.1),ih h.2]
    rfl

end Positions

section Invariant
variable {b : BasicBlock α} {s : Sequence α}

/-- The block is linked as the sequence says, and new instructions are not linked at all. -/
structure Represents (b : BasicBlock α) (s : Sequence α) : Prop where
  linked : Linked b.next b.previous none s.items none
  nodup : s.items.Nodup
  start : b.start = s.items.head?
  end_ : b.end_ = s.items.getLast?
  used : s.items ⊆ s.used
  fresh : ∀ x ∉ s.used, b.next x = none ∧ b.previous x = none

lemma represents_empty : Represents ({} : BasicBlock α) {} where
  linked := trivial
  nodup := List.nodup_nil
  start := rfl
  end_ := rfl
  used := List.Subset.refl _
  fresh _ _ := ⟨rfl,rfl⟩

variable [DecidableEq α]

/-- What the invariant says about a block. -/
lemma Represents.refines (h : Represents b s) : Refines b s.items where
  first x hx := by
    rw [h.start] at hx
    obtain ⟨l,hl⟩ := List.head?_eq_some_iff.mp hx
    have linked := h.linked
    rw [hl] at linked
    exact linked.1
  last x hx := by
    rw [h.end_] at hx
    obtain ⟨l,hl⟩ := List.getLast?_eq_some_iff.mp hx
    have linked := h.linked
    rw [hl] at linked
    exact linked.at_split.2
  inside x hx := ⟨fun _ hy => h.linked.mem_of_next hx hy,fun _ hy => h.linked.mem_of_previous hx hy⟩
  inverse x hx y hy := h.linked.next_eq_iff hx hy
  empty := by
    rw [h.start,h.end_]
    exact ⟨List.head?_eq_none_iff,List.getLast?_eq_none_iff⟩
  iter fuel hf := by
    rw [BasicBlock.iter,h.start]
    exact iterFrom_eq h.linked hf
  len fuel hf := by
    have linked := h.linked
    rw [BasicBlock.len,h.start]
    cases hl : s.items with
    | nil => rfl
    | cons x l =>
      rw [hl] at linked hf
      change lenFrom b.next fuel x 1 = _
      rw [lenFrom_eq linked hf,List.length_cons,Nat.add_comm]
  delete x hx fuel hf := by
    rw [BasicBlock.delete,h.start,findFrom_eq x h.linked hf]
    simp [hx]

section Links
variable {position inst x : α}

/-- The links that `insert_after` leaves, if the instruction is new. -/
lemma linkAfter_next (new : b.next inst = none) (other : inst ≠ position) :
    (b.linkAfter position inst).next x =
      if x = inst then b.next position else if x = position then some inst else b.next x := by
  unfold linkAfter
  cases hn : b.next position with
  | none =>
    simp only [Function.update_apply]
    by_cases hx : x = inst
    · simp [hx,other,new]
    · simp [hx]
  | some n => simp only [Function.update_apply]

lemma linkAfter_previous : (b.linkAfter position inst).previous x =
    if b.next position = some x then some inst else if x = inst then some position
    else b.previous x := by
  unfold linkAfter
  cases b.next position with
  | none => simp only [Function.update_apply,reduceCtorEq,if_false]
  | some n => simp only [Function.update_apply,Option.some_inj,eq_comm]

lemma linkAfter_start : (b.linkAfter position inst).start = b.start := by
  unfold linkAfter
  cases b.next position <;> rfl

lemma linkAfter_end : (b.linkAfter position inst).end_ =
    if b.next position = none then some inst else b.end_ := by
  unfold linkAfter
  cases b.next position <;> rfl

/-- The links that `insert_before` leaves, if the instruction is new. -/
lemma linkBefore_previous (new : b.previous inst = none) (other : inst ≠ position) :
    (b.linkBefore position inst).previous x =
      if x = inst then b.previous position else if x = position then some inst
      else b.previous x := by
  unfold linkBefore
  cases hp : b.previous position with
  | none =>
    simp only [Function.update_apply]
    by_cases hx : x = inst
    · simp [hx,other,new]
    · simp [hx]
  | some p => simp only [Function.update_apply]

lemma linkBefore_next : (b.linkBefore position inst).next x =
    if b.previous position = some x then some inst else if x = inst then some position
    else b.next x := by
  unfold linkBefore
  cases b.previous position with
  | none => simp only [Function.update_apply,reduceCtorEq,if_false]
  | some p => simp only [Function.update_apply,Option.some_inj,eq_comm]

lemma linkBefore_end : (b.linkBefore position inst).end_ = b.end_ := by
  unfold linkBefore
  cases b.previous position <;> rfl

lemma linkBefore_start : (b.linkBefore position inst).start =
    if b.previous position = none then some inst else b.start := by
  unfold linkBefore
  cases b.previous position <;> rfl

/-- The links that `delete` leaves. -/
lemma unlink_next : (b.unlink position).next x =
    if b.previous position = some x then b.next position else b.next x := by
  unfold unlink
  cases b.previous position with
  | none => cases b.next position <;> simp
  | some p =>
    cases b.next position <;> simp only [Function.update_apply,Option.some_inj,eq_comm]

lemma unlink_previous : (b.unlink position).previous x =
    if b.next position = some x then b.previous position else b.previous x := by
  unfold unlink
  cases b.next position with
  | none => cases b.previous position <;> simp
  | some n =>
    cases b.previous position <;> simp only [Function.update_apply,Option.some_inj,eq_comm]

lemma unlink_start : (b.unlink position).start =
    if b.previous position = none then b.next position else b.start := by
  unfold unlink
  cases b.previous position <;> cases b.next position <;> rfl

lemma unlink_end : (b.unlink position).end_ =
    if b.next position = none then b.previous position else b.end_ := by
  unfold unlink
  cases b.previous position <;> cases b.next position <;> rfl

end Links

section Steps
variable {l₁ l₂ : List α} {position inst target : α}

/-- A new instruction is linked between two parts of the block. -/
lemma Represents.insert (h : Represents b s) (split : s.items = l₁ ++ l₂) (new : inst ∉ s.used)
    {b' : BasicBlock α}
    (next : ∀ y, b'.next y =
      if y = inst then l₂.head? else if l₁.getLast? = some y then some inst else b.next y)
    (previous : ∀ y, b'.previous y =
      if y = inst then l₁.getLast? else if l₂.head? = some y then some inst else b.previous y)
    (start : b'.start = (l₁ ++ inst :: l₂).head?) (end_ : b'.end_ = (l₁ ++ inst :: l₂).getLast?) :
    Represents b' ⟨l₁ ++ inst :: l₂,inst :: s.used⟩ := by
  have used := h.used
  rw [split] at used
  have outside : inst ∉ l₁ ++ l₂ := fun mem => new (used mem)
  have other {y : α} (hy : y ∈ l₁ ++ l₂) : y ≠ inst := ne_of_mem_of_not_mem hy outside
  refine ⟨?_,?_,start,end_,?_,?_⟩
  · refine Linked.insert (split ▸ h.linked) (split ▸ h.nodup) ?_ ?_ ?_ ?_
    · intro y hy
      rw [next,if_neg (other hy)]
    · intro y hy
      rw [previous,if_neg (other hy)]
    · rw [next,if_pos rfl]
    · rw [previous,if_pos rfl]
  · exact List.nodup_middle.mpr (List.nodup_cons.mpr ⟨outside,split ▸ h.nodup⟩)
  · intro x hx
    rcases List.mem_cons.mp (List.perm_middle.mem_iff.mp hx) with rfl | hx
    · exact List.mem_cons_self
    · exact List.mem_cons_of_mem _ (used hx)
  · intro x hx
    rw [List.mem_cons,not_or] at hx
    have notLast : ¬l₁.getLast? = some x :=
      fun last => hx.2 (used (List.mem_append_left _ (List.mem_of_getLast? last)))
    have notHead : ¬l₂.head? = some x :=
      fun head => hx.2 (used (List.mem_append_right _ (List.mem_of_mem_head? head)))
    rw [next,previous,if_neg hx.1,if_neg hx.1,if_neg notLast,if_neg notHead]
    exact h.fresh x hx.2

lemma Represents.linkAfter (h : Represents b s) (split : s.items = l₁ ++ position :: l₂)
    (new : inst ∉ s.used) :
    Represents (b.linkAfter position inst) ⟨l₁ ++ position :: inst :: l₂,inst :: s.used⟩ := by
  have parts : s.items = (l₁ ++ [position]) ++ l₂ := by
    rw [split,List.append_assoc,List.singleton_append]
  have linked := h.linked
  rw [split] at linked
  have hn : b.next position = l₂.head? := by rw [linked.at_split.2,Option.or_none]
  have member : position ∈ s.used := h.used (by simp [split])
  have other : inst ≠ position := (ne_of_mem_of_not_mem member new).symm
  have apart : ¬l₂.head? = some inst := by
    intro head
    apply new (h.used _)
    rw [parts]
    exact List.mem_append_right _ (List.mem_of_mem_head? head)
  have inserted : Represents (b.linkAfter position inst)
      ⟨(l₁ ++ [position]) ++ inst :: l₂,inst :: s.used⟩ := h.insert parts new ?_ ?_ ?_ ?_
  · rwa [List.append_assoc,List.singleton_append] at inserted
  · intro y
    rw [linkAfter_next (h.fresh inst new).1 other,hn]
    simp only [List.getLast?_concat,Option.some_inj,eq_comm]
  · intro y
    rw [linkAfter_previous,hn,List.getLast?_concat]
    by_cases hy : y = inst
    · rw [hy,if_neg apart,if_pos rfl,if_pos rfl]
    · rw [if_neg hy,if_neg hy]
  · rw [linkAfter_start,h.start,split]
    cases l₁ <;> simp
  · rw [linkAfter_end,hn,h.end_,parts]
    cases l₂ <;> simp

lemma Represents.linkBefore (h : Represents b s) (split : s.items = l₁ ++ position :: l₂)
    (new : inst ∉ s.used) :
    Represents (b.linkBefore position inst) ⟨l₁ ++ inst :: position :: l₂,inst :: s.used⟩ := by
  have linked := h.linked
  rw [split] at linked
  have hp : b.previous position = l₁.getLast? := by rw [linked.at_split.1,Option.or_none]
  have member : position ∈ s.used := h.used (by simp [split])
  have other : inst ≠ position := (ne_of_mem_of_not_mem member new).symm
  have apart : ¬l₁.getLast? = some inst := by
    intro last
    apply new (h.used _)
    rw [split]
    exact List.mem_append_left _ (List.mem_of_getLast? last)
  apply h.insert split new
  · intro y
    rw [linkBefore_next,hp,List.head?_cons]
    by_cases hy : y = inst
    · rw [hy,if_neg apart,if_pos rfl,if_pos rfl]
    · rw [if_neg hy,if_neg hy]
  · intro y
    rw [linkBefore_previous (h.fresh inst new).2 other,hp]
    simp only [List.head?_cons,Option.some_inj,eq_comm]
  · rw [linkBefore_start,hp,h.start,split]
    cases l₁ <;> simp
  · rw [linkBefore_end,h.end_,split]
    simp

/-- The first instruction of an empty block has no links. -/
lemma Represents.single (h : Represents b s) (empty : s.items = []) (new : inst ∉ s.used) :
    Represents { b with start := some inst, end_ := some inst } ⟨[inst],inst :: s.used⟩ := by
  have parts : s.items = [] ++ [] := empty
  refine h.insert parts new ?_ ?_ rfl rfl
  · intro y
    by_cases hy : y = inst
    · rw [hy,if_pos rfl]
      exact (h.fresh inst new).1
    · rw [if_neg hy]
      rfl
  · intro y
    by_cases hy : y = inst
    · rw [hy,if_pos rfl]
      exact (h.fresh inst new).2
    · rw [if_neg hy]
      rfl

lemma Represents.insertAfter (h : Represents b s) {position : Option α}
    (member : ∀ p ∈ position, p ∈ s.items) (new : inst ∉ s.used) :
    Represents (b.insertAfter position inst) (s.step (.insertAfter position inst)) := by
  cases position with
  | none =>
    unfold BasicBlock.insertAfter
    have start := h.start
    cases hl : s.items with
    | nil =>
      rw [hl] at start
      rw [start,Sequence.step,hl]
      exact h.single hl new
    | cons x l =>
      rw [hl] at start
      rw [start,Sequence.step,hl]
      have parts : s.items = [] ++ x :: l := hl
      exact h.linkAfter parts new
  | some position =>
    obtain ⟨l₁,l₂,split,first⟩ := List.eq_append_cons_of_mem (member position rfl)
    rw [Sequence.step,Op.onList,split,insertAfterIn_eq inst first]
    exact h.linkAfter split new

lemma Represents.insertBefore (h : Represents b s) {position : Option α}
    (member : ∀ p ∈ position, p ∈ s.items) (new : inst ∉ s.used) :
    Represents (b.insertBefore position inst) (s.step (.insertBefore position inst)) := by
  cases position with
  | none =>
    unfold BasicBlock.insertBefore
    have start := h.start
    cases hl : s.items with
    | nil =>
      rw [hl] at start
      rw [start,Sequence.step,hl]
      exact h.single hl new
    | cons x l =>
      rw [hl] at start
      rw [start,Sequence.step,hl]
      have parts : s.items = [] ++ x :: l := hl
      exact h.linkBefore parts new
  | some position =>
    obtain ⟨l₁,l₂,split,first⟩ := List.eq_append_cons_of_mem (member position rfl)
    rw [Sequence.step,Op.onList,split,insertBeforeIn_eq inst first]
    exact h.linkBefore split new

lemma Represents.unlink (h : Represents b s) (split : s.items = l₁ ++ target :: l₂) :
    Represents (b.unlink target) ⟨l₁ ++ l₂,s.used⟩ := by
  have linked := h.linked
  have nodup := h.nodup
  rw [split] at linked nodup
  obtain ⟨hp,hn⟩ := linked.at_split
  rw [Option.or_none] at hp hn
  have rest : (l₁ ++ l₂).Nodup := (List.nodup_cons.mp (List.nodup_middle.mp nodup)).2
  have used : l₁ ++ l₂ ⊆ s.used := by
    intro x hx
    apply h.used
    rw [split]
    exact List.perm_middle.mem_iff.mpr (List.mem_cons_of_mem _ hx)
  refine ⟨?_,rest,?_,?_,used,?_⟩
  · refine linked.delete rest ?_ ?_
    · intro y _
      rw [unlink_next,hp,hn]
    · intro y _
      rw [unlink_previous,hp,hn]
  · rw [unlink_start,hp,hn,h.start,split]
    cases l₁ <;> simp
  · rw [unlink_end,hp,hn,h.end_,split]
    rcases List.eq_nil_or_concat' l₂ with rfl | ⟨l₃,y,rfl⟩
    · simp
    · rw [← List.cons_append,← List.append_assoc,← List.append_assoc,List.getLast?_concat,
        List.getLast?_concat,if_neg (by simp)]
  · intro x hx
    have notLast : ¬l₁.getLast? = some x :=
      fun last => hx (used (List.mem_append_left _ (List.mem_of_getLast? last)))
    have notHead : ¬l₂.head? = some x :=
      fun head => hx (used (List.mem_append_right _ (List.mem_of_mem_head? head)))
    rw [unlink_next,unlink_previous,hp,hn,if_neg notLast,if_neg notHead]
    exact h.fresh x hx

lemma Represents.delete (h : Represents b s) (member : target ∈ s.items) {fuel : ℕ}
    (hf : s.items.length ≤ fuel) : ∃ b', b.delete fuel target = some (.ok (),b') ∧
      Represents b' (s.step (.delete target)) := by
  refine ⟨b.unlink target,?_,?_⟩
  · rw [BasicBlock.delete,h.start,findFrom_eq target h.linked hf]
    simp [member]
  · obtain ⟨l₁,l₂,split,first⟩ := List.eq_append_cons_of_mem member
    have erased : s.items.erase target = l₁ ++ l₂ := by
      rw [split,List.erase_append_right _ first,List.erase_cons_head]
    rw [Sequence.step,Op.onList,erased]
    exact h.unlink split

/-- An allowed call returns, and it does to the block what it means for the sequence. -/
lemma Represents.call (h : Represents b s) {op : Op α} (allowed : s.Allows op) {fuel : ℕ}
    (hf : s.items.length ≤ fuel) : ∃ b', b.call fuel op = some (.ok (),b') ∧
      Represents b' (s.step op) := by
  cases op with
  | insertAfter position inst => exact ⟨_,rfl,h.insertAfter allowed.1 allowed.2⟩
  | insertBefore position inst => exact ⟨_,rfl,h.insertBefore allowed.1 allowed.2⟩
  | delete target => exact h.delete allowed hf

end Steps

end Invariant

section Runs
variable [DecidableEq α]

/-- A call adds at most one instruction. -/
lemma Represents.length_step {b : BasicBlock α} {s : Sequence α} (h : Represents b s) :
    s.items.length ≤ s.used.length ∧ ∀ op, (s.step op).used.length ≤ s.used.length+1 := by
  refine ⟨(List.subperm_of_subset h.nodup h.used).length_le,?_⟩
  intro op
  cases op <;> simp [Sequence.step,Op.inserted]

lemma Represents.run {b : BasicBlock α} {s : Sequence α} (h : Represents b s) {ops : List (Op α)}
    (allowed : Runs.Meets Sequence.step Sequence.Allows s ops) {fuel : ℕ}
    (hf : s.used.length+ops.length ≤ fuel) : ∃ b', b.run fuel ops = some (.ok (),b') ∧
      Represents b' (Runs.after Sequence.step s ops) := by
  induction ops generalizing b s with
  | nil => exact ⟨b,rfl,h⟩
  | cons op ops ih =>
    obtain ⟨few,grows⟩ := h.length_step
    rw [List.length_cons] at hf
    have room : s.items.length ≤ fuel := by omega
    obtain ⟨b₁,called,h₁⟩ := h.call allowed.1 room
    have := grows op
    obtain ⟨b',ran,h'⟩ := ih h₁ allowed.2 (by omega)
    refine ⟨b',?_,h'⟩
    rw [BasicBlock.run,called]
    exact ran

/-- After every sequence of calls on an empty block, the block is a linked list of the sequence that
the calls mean. -/
theorem run_refines (ops : List (Op α)) (allowed : Runs.Meets Sequence.step Sequence.Allows {} ops)
    (fuel : ℕ) (hf : ops.length ≤ fuel) : ∃ b, run fuel ({} : BasicBlock α) ops = some (.ok (),b) ∧
      Refines b (Runs.after Sequence.step {} ops).items := by
  have enough : ([] : List α).length+ops.length ≤ fuel := by
    rwa [List.length_nil,Nat.zero_add]
  obtain ⟨b,ran,h⟩ := represents_empty.run allowed enough
  exact ⟨b,ran,h.refines⟩

/-- Instructions before and after others, and one that is taken out of the middle. -/
def someCalls : List (Op ℕ) :=
  [.insertAfter none 1,.insertBefore none 2,.insertAfter (some 1) 3,.insertAfter none 4,
    .delete 1,.insertBefore (some 3) 5]

theorem run_refines_five : someCalls.length ≤ 6 ∧
    ∃ b, run 6 ({} : BasicBlock ℕ) someCalls = some (.ok (),b) ∧ Refines b [2,4,5,3] := by
  have allowed : Runs.Meets Sequence.step Sequence.Allows {} someCalls := by
    simp [someCalls,Runs.Meets,Sequence.Allows,Sequence.step,Op.onList,Op.inserted,insertAfterIn]
  exact ⟨by decide,run_refines someCalls allowed 6 (by decide)⟩

end Runs

end BasicBlock

end ProteanAmulet
