import Counterpart.Tree.Traversal

/-!
# Isomorphic subtrees

Two subtrees are isomorphic if they have the same term, and of the same shape if their terms have
the same outline. Both tests look at the stored values first, so on trees that are not finished
they may refuse subtrees that agree; they never accept ones that differ.
-/

namespace Counterpart.Tree

/-- Whether two subtrees have the same kinds and labels at the same positions. -/
def isIsomorphic (t : Tree) (a : Nat) (u : Tree) (b : Nat) : Bool :=
  decide (t.digest a = u.digest b) && decide (t.size a = u.size b) &&
    decide (t.term a = u.term b)

/-- Whether two subtrees have the same kinds and keywords at the same positions. -/
def isSameShape (t : Tree) (a : Nat) (u : Tree) (b : Nat) : Bool :=
  decide (t.shape a = u.shape b) && decide (t.size a = u.size b) &&
    decide (Term.outline (t.term a) = Term.outline (u.term b))

theorem term_eq_of_isIsomorphic {t u : Tree} {a b : Nat} (h : t.isIsomorphic a u b = true) :
    t.term a = u.term b := by
  simp only [isIsomorphic, Bool.and_eq_true, decide_eq_true_eq] at h
  exact h.2

theorem outline_eq_of_isSameShape {t u : Tree} {a b : Nat} (h : t.isSameShape a u b = true) :
    Term.outline (t.term a) = Term.outline (u.term b) := by
  simp only [isSameShape, Bool.and_eq_true, decide_eq_true_eq] at h
  exact h.2

end Counterpart.Tree
