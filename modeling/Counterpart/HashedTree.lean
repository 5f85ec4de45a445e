import Counterpart.Tree.Finish

/-!
# Trees with hash words

A tree may store words of 64 bits in place of digests. A word is made from a stream: the atom of a node,
followed by the words that its children have at that time (`Words.ofChildren`). How a hasher makes a word
of a stream is left open. Words are shown as sixteen lower-case hexadecimal digits, the most significant
one first (`hexWord`).
-/

namespace Counterpart

/-! ### Streams -/

/-- What a hasher takes in one go. -/
inductive Item where
  | text (s : String)
  | flag (b : Bool)
  | word (w : UInt64)
  deriving DecidableEq

/-- A hasher makes a word of all that it takes. -/
abbrev Hasher := List Item → UInt64

/-- A label, preceded by whether there is one. -/
def labelItems : Option String → List Item
  | none => [.flag false]
  | some l => [.flag true, .text l]

namespace Atom

/-- What is hashed of an atom: its kind and its label. -/
def items (a : Atom) : List Item :=
  .text a.kind :: labelItems a.label

/-- What is hashed of an atom for the shape: its kind, and its label if it is a keyword. -/
def shapeItems (a : Atom) : List Item :=
  .text a.kind :: if a.kind.isKeyword then labelItems a.label else []

end Atom

/-! ### Words -/

/-- The two words that a node stores. -/
structure Words where
  hash : UInt64
  shape : UInt64
  deriving DecidableEq

namespace Words

/-- The words of a node that has not been through finishing. -/
def unset : Words := ⟨0, 0⟩

/-- The words of a node from its atom and the words of its children. -/
def ofChildren (h : Hasher) (a : Atom) (ws : List Words) : Words where
  hash := h (a.items ++ (ws.map hash).map Item.word)
  shape := h (a.shapeItems ++ (ws.map shape).map Item.word)

end Words

/-- The lower-case hexadecimal digit of a number below 16. -/
def hexDigit (n : Nat) : Char :=
  if n < 10 then Char.ofNat ('0'.toNat + n) else Char.ofNat ('a'.toNat + (n - 10))

/-- A 64-bit word as sixteen hexadecimal digits. -/
def hexWord (w : UInt64) : String :=
  String.ofList ((List.range 16).map fun i => hexDigit (w.toNat >>> (60 - 4 * i) % 16))

/-! ### Trees -/

/-- A syntax tree that stores two words at every node. -/
structure HashedTree where
  tree : Tree
  /-- The words at each number; those of a number that names no node are unset. -/
  words : Nat → Words

namespace HashedTree

/-- The tree whose only node is its root. -/
def single (a : Atom) (s : Span) : HashedTree :=
  ⟨.single a s, fun _ => .unset⟩

/-- Compute the stored values and words of node `n` from those that its children have now. -/
def finishNode (h : Hasher) (x : HashedTree) (n : Nat) : HashedTree where
  tree := x.tree.finishNode n
  words k :=
    if k = n then .ofChildren h (x.tree.atom n) ((x.tree.children n).map x.words) else x.words k

/-- Compute the stored values and words of every node, children before their parents. -/
def finish (h : Hasher) (x : HashedTree) : HashedTree :=
  x.tree.postOrder.foldl (finishNode h) x

end HashedTree

end Counterpart
