import Counterpart.Alignment.BottomUp

/-!
# Alignment of two subtrees

`Alignment.align` pairs the nodes of two subtrees that are known to correspond. The roots are
always paired, and no node outside the two subtrees is.
-/

namespace Counterpart.Alignment

variable (config : AlignmentConfig) (t u : Tree)

/-- The identical parts of two subtrees, and their roots. -/
def pairRoots (a b : Nat) : Matching :=
  let m := topDown config t u a b
  if m.hasSource a || m.hasTarget b then m else m.pair a b

/-- Align the subtree of `a` with the subtree of `b`. -/
def align (a b : Nat) : Matching :=
  bottomUp config t u (pairRoots config t u a b) a b

end Counterpart.Alignment
