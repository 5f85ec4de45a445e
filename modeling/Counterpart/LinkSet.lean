import Counterpart.NodeTable
import Counterpart.Tree.Traversal

/-!
# Link sets

A `LinkSet` is a relation between the nodes of a source tree and those of a target tree. A node may
have several counterparts: two rules that disagree both count. Links keep the order in which they
came, a repeated link changes nothing, and none is ever removed.
-/

namespace Counterpart

/-- A source node and its counterpart. -/
abbrev Link := Nat × Nat

/-- A relation between source and target nodes, with the counterparts of every node on either
side. -/
structure LinkSet where
  /-- The links in the order in which they came. -/
  order : Array Link
  forward : NodeTable (List Nat)
  backward : NodeTable (List Nat)

namespace LinkSet

/-- The relation that holds of no nodes. -/
def empty : LinkSet where
  order := #[]
  forward := .empty
  backward := .empty

instance : Inhabited LinkSet := ⟨empty⟩

/-- The links, in the order in which they came. -/
def pairs (x : LinkSet) : List Link :=
  x.order.toList

/-- The number of links. -/
def size (x : LinkSet) : Nat :=
  x.order.size

/-- Whether there is no link. -/
def isEmpty (x : LinkSet) : Bool :=
  x.order.isEmpty

/-- The counterparts of a source node, in the order in which they came. -/
def targets (x : LinkSet) (s : Nat) : List Nat :=
  x.forward.get s

/-- The counterparts of a target node, in the order in which they came. -/
def sources (x : LinkSet) (d : Nat) : List Nat :=
  x.backward.get d

/-- Whether `s` is linked to `d`. -/
def contains (x : LinkSet) (s d : Nat) : Bool :=
  (x.targets s).contains d

/-- Whether a source node has a counterpart. -/
def hasSource (x : LinkSet) (s : Nat) : Bool :=
  !(x.targets s).isEmpty

/-- Whether a target node has a counterpart. -/
def hasTarget (x : LinkSet) (d : Nat) : Bool :=
  !(x.sources d).isEmpty

/-- Whether a source node has exactly one counterpart. -/
def isSourceUnique (x : LinkSet) (s : Nat) : Bool :=
  (x.targets s).length == 1

/-- Whether a target node has exactly one counterpart. -/
def isTargetUnique (x : LinkSet) (d : Nat) : Bool :=
  (x.sources d).length == 1

/-- Link `s` to `d`. -/
def insert (x : LinkSet) (s d : Nat) : LinkSet :=
  if x.contains s d then x
  else
    { order := x.order.push (s, d)
      forward := x.forward.set s (x.forward.get s ++ [d])
      backward := x.backward.set d (x.backward.get d ++ [s]) }

/-- Insert links one after the other. -/
def insertMany (x : LinkSet) (links : List Link) : LinkSet :=
  links.foldl (fun y l => y.insert l.1 l.2) x

/-- The set of the given links. -/
def ofList (links : List Link) : LinkSet :=
  empty.insertMany links

/-- The links of both sets, those of the first one first. -/
def union (x y : LinkSet) : LinkSet :=
  x.insertMany y.pairs

/-- Whether two sets hold the same links, in whatever order. -/
def sameRelation (x y : LinkSet) : Bool :=
  x.pairs.all (fun l => y.contains l.1 l.2) && y.pairs.all (fun l => x.contains l.1 l.2)

/-- The links as text, with nodes counted from 1. -/
def render (x : LinkSet) : String :=
  "[" ++ ", ".intercalate (x.pairs.map fun l =>
    "(" ++ toString (l.1 + 1) ++ ", " ++ toString (l.2 + 1) ++ ")") ++ "]"

@[simp] theorem pairs_empty : empty.pairs = [] := rfl

@[simp] theorem targets_empty (s : Nat) : empty.targets s = [] :=
  NodeTable.get_empty s

@[simp] theorem sources_empty (d : Nat) : empty.sources d = [] :=
  NodeTable.get_empty d

theorem pairs_insert (x : LinkSet) (s d : Nat) :
    (x.insert s d).pairs = if x.contains s d then x.pairs else x.pairs ++ [(s, d)] := by
  unfold insert
  split
  · rfl
  · exact Array.toList_push

theorem targets_insert (x : LinkSet) (s d a : Nat) :
    (x.insert s d).targets a =
      if a = s ∧ x.contains s d = false then x.targets a ++ [d] else x.targets a := by
  unfold insert
  split
  · next h => simp [h]
  · next h =>
    simp only [targets, NodeTable.get_set]
    by_cases ha : a = s <;> simp [ha, h]

theorem sources_insert (x : LinkSet) (s d b : Nat) :
    (x.insert s d).sources b =
      if b = d ∧ x.contains s d = false then x.sources b ++ [s] else x.sources b := by
  unfold insert
  split
  · next h => simp [h]
  · next h =>
    simp only [sources, NodeTable.get_set]
    by_cases hb : b = d <;> simp [hb, h]

@[simp] theorem insertMany_nil (x : LinkSet) : x.insertMany [] = x := rfl

@[simp] theorem insertMany_cons (x : LinkSet) (l : Link) (ls : List Link) :
    x.insertMany (l :: ls) = (x.insert l.1 l.2).insertMany ls := rfl

theorem insertMany_append (x : LinkSet) (ls ms : List Link) :
    x.insertMany (ls ++ ms) = (x.insertMany ls).insertMany ms :=
  List.foldl_append

end LinkSet

/-- The links between two subtrees position by position, a node before its children and siblings
from the last to the first. Positions that only one side has are left out. -/
def Tree.overlay (t u : Tree) (a b : Nat) : List Link :=
  ((t.subtree a).zip (u.subtree b)).revPreOrder

theorem Tree.overlay_eq (t u : Tree) (a b : Nat) :
    t.overlay u a b =
      (a, b) :: ((t.children a).zip (u.children b)).reverse.flatMap
        fun l => t.overlay u l.1 l.2 := by
  rw [overlay, subtree_eq, subtree_eq, Rose.zip_node, Rose.revPreOrder_node, List.flatMap_def,
    List.zipWith_map, List.map_zipWith, ← List.map_uncurry_zip_eq_zipWith, ← List.map_reverse]
  rfl

end Counterpart
