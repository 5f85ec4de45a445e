import Counterpart.Tree.Basic

/-!
# Walking a tree

`Tree.subtree t n` is the ordered tree of the node numbers at and below `n`; the walks of a tree
are the walks of that ordered tree, and the term at `n` is its image under `Tree.atom`. The main
statement is `subtree_eq`: a subtree is its root over the subtrees of the children.
-/

namespace Counterpart.Tree

/-- The numbers at and below `n`, to the given depth. -/
def subtreeTo (t : Tree) : Nat → Nat → Rose Nat
  | 0, n => .node n []
  | depth + 1, n => .node n ((t.children n).map (t.subtreeTo depth))

/-- The numbers at and below `n`. No way down is longer than the number of nodes. -/
def subtree (t : Tree) (n : Nat) : Rose Nat :=
  t.subtreeTo t.count n

theorem subtreeTo_congr {t : Tree} (d e n : Nat) (hd : t.count - n ≤ d) (he : t.count - n ≤ e) :
    t.subtreeTo d n = t.subtreeTo e n := by
  induction d generalizing e n with
  | zero =>
    cases e with
    | zero => rfl
    | succ e =>
      have hn : t.count ≤ n := by omega
      simp [subtreeTo, children_of_count_le hn]
  | succ d ih =>
    cases e with
    | zero =>
      have hn : t.count ≤ n := by omega
      simp [subtreeTo, children_of_count_le hn]
    | succ e =>
      simp only [subtreeTo]
      congr 1
      refine List.map_congr_left fun c hc => ?_
      have := lt_of_parent (mem_children.1 hc)
      exact ih e c (by omega) (by omega)

/-- A subtree is its root over the subtrees of the children. -/
theorem subtree_eq (t : Tree) (n : Nat) :
    t.subtree n = .node n ((t.children n).map t.subtree) := by
  have hpos := t.root_lt_count
  have h : t.subtree n = t.subtreeTo (t.count + 1) n :=
    subtreeTo_congr _ _ _ (by omega) (by omega)
  rw [h]
  rfl

@[simp] theorem value_subtree (t : Tree) (n : Nat) : (t.subtree n).value = n := by
  rw [subtree_eq]; rfl

/-- The nodes at and below `n`, each before its children. -/
def descendants (t : Tree) (n : Nat) : List Nat :=
  (t.subtree n).preOrder

/-- The nodes below `n`, each before its children. -/
def strictDescendants (t : Tree) (n : Nat) : List Nat :=
  (t.descendants n).tail

/-- All nodes, each before its children. -/
def preOrder (t : Tree) : List Nat :=
  t.descendants root

/-- All nodes, each after its children. -/
def postOrder (t : Tree) : List Nat :=
  (t.subtree root).postOrder

theorem descendants_eq (t : Tree) (n : Nat) :
    t.descendants n = n :: (t.children n).flatMap t.descendants := by
  rw [descendants, subtree_eq, Rose.preOrder_node, List.map_map, List.flatMap_def]
  rfl

theorem strictDescendants_eq (t : Tree) (n : Nat) :
    t.strictDescendants n = (t.children n).flatMap t.descendants := by
  rw [strictDescendants, descendants_eq]; rfl

theorem self_mem_descendants (t : Tree) (n : Nat) : n ∈ t.descendants n := by
  rw [descendants_eq]; exact List.mem_cons_self

/-- The kinds and labels at and below `n`. -/
def term (t : Tree) (n : Nat) : Term :=
  (t.subtree n).map t.atom

theorem term_eq (t : Tree) (n : Nat) :
    t.term n = .node (t.atom n) ((t.children n).map t.term) := by
  rw [term, subtree_eq, Rose.map_node, List.map_map]
  rfl

/-- The nodes met on the way up from `n`, itself first, at most `bound` of them above it. -/
def ancestorsTo (t : Tree) : Nat → Nat → List Nat
  | 0, n => [n]
  | bound + 1, n =>
    match t.parent n with
    | none => [n]
    | some p => n :: t.ancestorsTo bound p

/-- The nodes from `n`, itself first, up to the root. A node has fewer ancestors than its
number says. -/
def ancestors (t : Tree) (n : Nat) : List Nat :=
  t.ancestorsTo n n

/-- Whether `n` lies at or below `a`. -/
def isWithin (t : Tree) (n a : Nat) : Bool :=
  (t.ancestors n).contains a

theorem ancestorsTo_congr {t : Tree} (d e n : Nat) (hd : n ≤ d) (he : n ≤ e) :
    t.ancestorsTo d n = t.ancestorsTo e n := by
  induction d generalizing e n with
  | zero =>
    obtain rfl : n = 0 := by omega
    cases e with
    | zero => rfl
    | succ e =>
      cases h : t.parent 0 with
      | none => simp [ancestorsTo, h]
      | some p => exact absurd (lt_of_parent h) (Nat.not_lt_zero p)
  | succ d ih =>
    cases h : t.parent n with
    | none => cases e <;> simp [ancestorsTo, h]
    | some p =>
      have := lt_of_parent h
      cases e with
      | zero => omega
      | succ e =>
        simp only [ancestorsTo, h]
        rw [ih e p (by omega) (by omega)]

/-- The way up from a node is the node, then the way up from its parent. -/
theorem ancestors_eq (t : Tree) (n : Nat) :
    t.ancestors n = n :: ((t.parent n).map t.ancestors).getD [] := by
  cases h : t.parent n with
  | none => cases n <;> simp [ancestors, ancestorsTo, h]
  | some p =>
    have := lt_of_parent h
    obtain ⟨m, rfl⟩ : ∃ m, n = m + 1 := ⟨n - 1, by omega⟩
    simp only [ancestors, ancestorsTo, h, Option.map_some, Option.getD_some]
    rw [ancestorsTo_congr m p p (by omega) (by omega)]

end Counterpart.Tree
