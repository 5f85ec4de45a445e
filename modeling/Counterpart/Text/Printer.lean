import Counterpart.Term
import Counterpart.Text.Blank

/-!
# Writing a term as text

A node without children is written as a bare atom, any other one as a group with single spaces.
A label stands in quotes if it is empty or holds a blank, a parenthesis or a quote.
-/

namespace Counterpart.Text

/-- Whether a label has to be written in quotes. -/
def needsQuotes (label : List Char) : Bool :=
  label.isEmpty || label.any fun c => isBlank c || isParen c || c == '"'

/-- A character inside quotes: quotes and backslashes have a backslash before them. -/
def escape (c : Char) : List Char :=
  if c = '"' ∨ c = '\\' then ['\\', c] else [c]

/-- The written form of a label. -/
def writeLabel (label : List Char) : List Char :=
  if needsQuotes label then '"' :: (label.flatMap escape ++ ['"']) else label

/-- The written form of an atom. -/
def writeAtom (a : Atom) : List Char :=
  match a.label with
  | none => a.kind.toList
  | some l => a.kind.toList ++ ':' :: writeLabel l.toList

/-- The written form of a node from those of its children. -/
def writeNode (a : Atom) (children : List (List Char)) : List Char :=
  if children.isEmpty then writeAtom a
  else '(' :: (writeAtom a ++ children.flatMap (' ' :: ·) ++ [')'])

/-- The written form of a term. -/
def write : Term → List Char :=
  Rose.fold writeNode

@[simp] theorem write_node (a : Atom) (cs : List Term) :
    write (.node a cs) = writeNode a (cs.map write) :=
  Rose.fold_node _ a cs

end Counterpart.Text
