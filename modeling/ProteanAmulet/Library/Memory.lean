import Mathlib.Data.List.Basic
import Mathlib.Tactic.Ring

/-! Flat memories with block reads and writes, and undo logs over them. A log holds the
overwritten contents, its most recent entry first. -/
namespace Memory
variable {β : Type*}

def read (m : ℕ → β) (a n : ℕ) : List β := (List.range n).map fun i => m (a+i)

def write (m : ℕ → β) (a : ℕ) (bs : List β) : ℕ → β :=
  fun x => if a ≤ x then bs[x-a]?.getD (m x) else m x

/-- Write `n` values, given as a function of the offset. -/
def fill (m : ℕ → β) (a n : ℕ) (f : ℕ → β) : ℕ → β :=
  fun x => if a ≤ x ∧ x<a+n then f (x-a) else m x

@[simp] theorem read_length (m : ℕ → β) (a n : ℕ) : (read m a n).length = n := by simp [read]

theorem read_getElem? (m : ℕ → β) (a n i : ℕ) :
    (read m a n)[i]? = if i<n then some (m (a+i)) else none := by
  by_cases h : i<n <;> simp [read,h]

theorem read_congr {m m' : ℕ → β} {a n : ℕ} (h : ∀ x, a ≤ x → x<a+n → m x = m' x) :
    read m a n = read m' a n := by
  refine List.map_congr_left fun i hi => h (a+i) (by omega) ?_
  have := List.mem_range.mp hi
  omega

theorem write_outside (m : ℕ → β) (a : ℕ) (bs : List β) {x : ℕ} (h : x<a ∨ a+bs.length ≤ x) :
    write m a bs x = m x := by
  unfold write
  split_ifs with hx
  · rw [List.getElem?_eq_none (by omega),Option.getD_none]
  · rfl

/-- Putting back a wide enough pre-image undoes a write. -/
theorem write_write_read (m : ℕ → β) (a n : ℕ) (bs : List β) (h : bs.length ≤ n) :
    write (write m a bs) a (read m a n) = m := by
  funext x
  by_cases hx : a ≤ x ∧ x<a+n
  · have hlt : x-a<n := by omega
    have hax : a+(x-a) = x := by omega
    simp only [write,hx.1,if_true,read_getElem?,hlt,hax,Option.getD_some]
  · rw [write_outside _ _ _ (by rw [read_length]; omega),write_outside _ _ _ (by omega)]

theorem read_write_self (m : ℕ → β) (a : ℕ) (bs : List β) :
    read (write m a bs) a bs.length = bs := by
  apply List.ext_getElem?
  intro i
  rw [read_getElem?]
  split_ifs with hi
  · simp [write,List.getElem?_eq_getElem hi]
  · rw [List.getElem?_eq_none (by omega)]

@[simp] theorem read_zero (m : ℕ → β) (a : ℕ) : read m a 0 = [] := rfl

theorem read_succ (m : ℕ → β) (a n : ℕ) : read m a (n+1) = m a :: read m (a+1) n := by
  rw [read,List.range_succ_eq_map,List.map_cons,List.map_map,read]
  refine congrArg₂ List.cons rfl (List.map_congr_left fun i _ => ?_)
  exact congrArg m (by simp only [Nat.succ_eq_add_one]; omega)

@[simp] theorem write_nil (m : ℕ → β) (a : ℕ) : write m a [] = m := by
  funext x
  simp [write]

theorem write_append (m : ℕ → β) (a : ℕ) (bs bs' : List β) :
    write (write m a bs) (a+bs.length) bs' = write m a (bs ++ bs') := by
  funext x
  by_cases ha : a ≤ x
  · by_cases hx : a+bs.length ≤ x
    · have inner : write m a bs x = m x := write_outside m a bs (.inr hx)
      have index : x-a-bs.length = x-(a+bs.length) := by omega
      have outer : write m a (bs ++ bs') x = bs'[x-(a+bs.length)]?.getD (m x) := by
        rw [write,if_pos ha,List.getElem?_append_right (by omega),index]
      rw [outer,write,if_pos hx,inner]
    · rw [write_outside _ _ _ (.inl (by omega))]
      rw [write,write,if_pos ha,if_pos ha,List.getElem?_append_left (by omega)]
  · rw [write_outside _ _ _ (.inl (by omega)),write_outside _ _ _ (.inl (by omega)),
      write_outside _ _ _ (.inl (by omega))]

theorem write_singleton (m : ℕ → β) (a : ℕ) (b : β) :
    write m a [b] = Function.update m a b := by
  funext x
  rw [Function.update_apply]
  by_cases hx : x=a
  · subst hx
    simp [write]
  · rw [if_neg hx]
    refine write_outside m a [b] ?_
    rw [List.length_singleton]
    omega

theorem write_last (m : ℕ → β) (a : ℕ) (bs : List β) (b : β) :
    write m a (bs ++ [b]) (a+bs.length) = b := by
  rw [← write_append,write_singleton,Function.update_self]

/-- Pop the entries one after the other, writing each back. -/
def undo : List (ℕ × List β) → (ℕ → β) → ℕ → β
  | [], m => m
  | (a,bs) :: log, m => undo log (write m a bs)

@[simp] theorem undo_nil (m : ℕ → β) : undo [] m = m := rfl

/-- A write of at most `n` bytes after logging `n` bytes is invisible to the undo. -/
theorem undo_logged_write (log : List (ℕ × List β)) (m : ℕ → β) (a n : ℕ) (bs : List β)
    (h : bs.length ≤ n) : undo ((a,read m a n) :: log) (write m a bs) = undo log m := by
  rw [undo,write_write_read m a n bs h]

end Memory
