import Counterpart.Kind
import Counterpart.Rose

/-!
# Terms and digests

A `Term` is a tree of kinds and labels, without positions in a file. Its outline forgets all labels
that are free text. A `Digest` is what a node remembers of the subtree below it.
-/

namespace Counterpart

/-- A kind with an optional label. -/
structure Atom where
  kind : Kind
  label : Option String
  deriving DecidableEq, Inhabited

/-- The part of an atom that belongs to the shape of a tree: the kind, and the label if it is a
keyword. -/
def Atom.outline (a : Atom) : Atom :=
  if a.kind.isKeyword then a else { a with label := none }

/-- An ordered tree of atoms. -/
abbrev Term := Rose Atom

/-- The shape of a term: every label that is not a keyword is forgotten. -/
def Term.outline : Term → Term :=
  Rose.map Atom.outline

/-- A summary of a subtree: the atoms below a node at the time the summary was made. A position
that had no summary by then holds `none`. -/
abbrev Digest := Rose (Option Atom)

namespace Digest

/-- The summary of a node for which none has been made. -/
def unset : Digest :=
  .node none []

/-- The summary of a node from those of its children. -/
def combine (a : Atom) (parts : List Digest) : Digest :=
  .node (some a) parts

theorem combine_ne_unset (a : Atom) (parts : List Digest) : combine a parts ≠ unset := by
  simp [combine, unset]

end Digest

/-- The values that finishing a tree computes for every node. -/
structure Measures where
  /-- The summary of kinds and labels. -/
  digest : Digest
  /-- The summary of kinds and keyword labels. -/
  shape : Digest
  height : Nat
  size : Nat
  deriving DecidableEq

namespace Measures

/-- The values of a node that has not been through finishing: it counts as a leaf and has no
summary. -/
def unset : Measures :=
  { digest := .unset, shape := .unset, height := 1, size := 1 }

/-- The values of a node from its atom and the values of its children. -/
def ofChildren (a : Atom) (ms : List Measures) : Measures where
  digest := .combine a (ms.map digest)
  shape := .combine a.outline (ms.map shape)
  height := (ms.map height).foldl max 0 + 1
  size := (ms.map size).foldr (· + ·) 1

/-- The values of a whole term, computed from the leaves up. -/
def ofTerm : Term → Measures :=
  Rose.fold ofChildren

@[simp] theorem ofTerm_node (a : Atom) (cs : List Term) :
    ofTerm (.node a cs) = ofChildren a (cs.map ofTerm) :=
  Rose.fold_node _ a cs

end Measures

end Counterpart
