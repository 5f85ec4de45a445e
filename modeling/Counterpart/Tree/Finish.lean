import Counterpart.Tree.Traversal

/-!
# Finishing a tree

`Tree.finish` computes the stored values of all nodes from the leaves up. Nodes that are added
later leave the stored values of their ancestors as they were until the tree is finished again.
-/

namespace Counterpart.Tree

/-- Compute the stored values of node `n` from those that its children have now. -/
def finishNode (t : Tree) (n : Nat) : Tree :=
  t.setMeasures n (.ofChildren (t.atom n) ((t.children n).map t.measures))

/-- Compute the stored values of every node, children before their parents. -/
def finish (t : Tree) : Tree :=
  t.postOrder.foldl finishNode t

/-- Whatever setting stored values keeps, finishing keeps. -/
theorem finish_keeps {α : Type} (f : Tree → α)
    (h : ∀ (t : Tree) (n : Nat) (m : Measures), f (t.setMeasures n m) = f t) (t : Tree) :
    f t.finish = f t := by
  have hfold : ∀ (ns : List Nat) (u : Tree), f (ns.foldl finishNode u) = f u := by
    intro ns
    induction ns with
    | nil => exact fun _ => rfl
    | cons n ns ih => exact fun u => (ih (u.finishNode n)).trans (h u n _)
  exact hfold t.postOrder t

@[simp] theorem count_finish (t : Tree) : t.finish.count = t.count :=
  finish_keeps count count_setMeasures t

@[simp] theorem atom_finish (t : Tree) (n : Nat) : t.finish.atom n = t.atom n :=
  finish_keeps (fun u => u.atom n) (fun u k m => u.atom_setMeasures k n m) t

@[simp] theorem span_finish (t : Tree) (n : Nat) : t.finish.span n = t.span n :=
  finish_keeps (fun u => u.span n) (fun u k m => u.span_setMeasures k n m) t

@[simp] theorem parent_finish (t : Tree) (n : Nat) : t.finish.parent n = t.parent n :=
  finish_keeps (fun u => u.parent n) (fun u k m => u.parent_setMeasures k n m) t

@[simp] theorem children_finish (t : Tree) (n : Nat) : t.finish.children n = t.children n :=
  finish_keeps (fun u => u.children n) (fun u k m => u.children_setMeasures k n m) t

end Counterpart.Tree
