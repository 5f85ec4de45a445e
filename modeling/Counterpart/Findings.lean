import Counterpart.LinkSet

/-!
# Findings

What a pass over two files gives. Expressions are aligned after all else, so `Findings` keep the
links found at once apart from the pairs of nodes that are put off. Findings are appended, and
appending acts on both parts.
-/

namespace Counterpart

/-- What a pass over a file pair finds. -/
structure Findings where
  /-- The links found at once. -/
  links : List Link := []
  /-- The pairs of nodes that are to be aligned after everything else. -/
  deferred : List Link := []
  deriving DecidableEq

namespace Findings

/-- One after the other. -/
protected def append (x y : Findings) : Findings :=
  ⟨x.links ++ y.links, x.deferred ++ y.deferred⟩

instance : Append Findings := ⟨Findings.append⟩

@[simp] theorem links_append (x y : Findings) : (x ++ y).links = x.links ++ y.links := rfl

@[simp] theorem deferred_append (x y : Findings) : (x ++ y).deferred = x.deferred ++ y.deferred :=
  rfl

/-- All findings of a list, one after the other. -/
def concat (xs : List Findings) : Findings :=
  ⟨xs.flatMap links, xs.flatMap deferred⟩

end Findings

end Counterpart
