/-!
# Tables indexed by nodes

A `NodeTable α` gives every node number a value of `α`, which is the default value for all but
finitely many of them.
-/

namespace Counterpart

/-- A total map from node numbers, stored up to the last number that was set. -/
structure NodeTable (α : Type) where
  cells : Array α

namespace NodeTable

variable {α : Type} [Inhabited α]

/-- The table that holds the default value everywhere. -/
def empty : NodeTable α := ⟨#[]⟩

/-- The value at a number. -/
def get (t : NodeTable α) (n : Nat) : α :=
  t.cells.getD n default

/-- Change the value at one number. -/
def set (t : NodeTable α) (n : Nat) (a : α) : NodeTable α :=
  ⟨(t.cells ++ Array.replicate (n + 1 - t.cells.size) default).setIfInBounds n a⟩

@[simp] theorem get_empty (n : Nat) : (empty : NodeTable α).get n = default := by
  simp [get, empty]

theorem get_set (t : NodeTable α) (n m : Nat) (a : α) :
    (t.set n a).get m = if m = n then a else t.get m := by
  simp only [get, set, Array.getD_eq_getD_getElem?, Array.getElem?_setIfInBounds,
    Array.size_append, Array.size_replicate]
  by_cases h : m = n
  · subst h
    have : m < t.cells.size + (m + 1 - t.cells.size) := by omega
    simp [this]
  · rw [if_neg (fun e => h e.symm), if_neg h, Array.getElem?_append]
    by_cases hm : m < t.cells.size
    · rw [if_pos hm]
    · rw [if_neg hm, Array.getElem?_replicate]
      have : t.cells[m]? = none := by simp; omega
      rw [this]
      by_cases hr : m - t.cells.size < n + 1 - t.cells.size <;> simp [hr]

end NodeTable

end Counterpart
