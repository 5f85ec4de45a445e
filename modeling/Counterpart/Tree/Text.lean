import Counterpart.Text.Layout
import Counterpart.Text.Printer
import Counterpart.Tree.Finish

/-!
# The text form of syntax trees

`Tree.parse` reads a finished tree from its text form, `Tree.render` writes the subtree of a node.
-/

namespace Counterpart.Tree

open Text

/-- The finished tree that a text writes. -/
def parse (text : String) : Except ReadError Tree :=
  (Sketch.read text).map fun s => (plant (layout 0 s)).finish

/-- The text form of the subtree of node `n`. -/
def render (t : Tree) (n : Nat) : String :=
  String.ofList (write (t.term n))

end Counterpart.Tree
