import Counterpart.Tree.Search

/-!
# Locations

A `Location` points from an element of the structural model into the syntax tree of its file.
-/

namespace Counterpart

/-- A range of bytes in a file, with the kind of node that is expected there. -/
structure Location where
  file : String := ""
  span : Span := ⟨0, 0⟩
  hint : Option Kind := none
  deriving DecidableEq, Inhabited

namespace Location

/-- The node that a location denotes in the tree of its file. -/
def resolve (l : Location) (t : Tree) : Option Nat :=
  t.resolve l.span l.hint

/-- The node of kind `k` that a location denotes, whatever its own hint is. -/
def resolveAs (l : Location) (t : Tree) (k : Kind) : Option Nat :=
  t.resolve l.span (some k)

end Location

end Counterpart
