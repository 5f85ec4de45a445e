import Counterpart.Text.Reader
import Counterpart.Tree.Basic

/-!
# Positions for a tree that was read from text

The text form gives no positions, so nodes are laid out one after the other: a bare node is as wide
as its label, or as its kind if it has none; a group starts before its first child and leaves a gap
of one byte after each child. Every node gets a span of its own, inside that of its parent.
-/

namespace Counterpart.Text

/-- An atom with the span it covers. -/
structure Placed where
  atom : Atom
  span : Span
  deriving DecidableEq

/-- The number of bytes that an atom covers: those of its label or else of its kind, and at least
one. -/
def width (a : Atom) : Nat :=
  max 1 (byteLength (a.label.getD a.kind).toList)

mutual

/-- Lay out a sketch from `start` on. -/
def layout (start : Nat) : Sketch → Rose Placed
  | .node w [] =>
    let stop := if w.grouped then start + 1 + width w.atom + 1 else start + width w.atom
    .node ⟨w.atom, start, stop⟩ []
  | .node w (c :: cs) =>
    let below := layoutAll (start + 1) (c :: cs)
    .node ⟨w.atom, start, below.2⟩ below.1

/-- Lay out siblings from `start` on; the offset is where the next one would start. -/
def layoutAll (start : Nat) : List Sketch → List (Rose Placed) × Nat
  | [] => ([], start)
  | c :: cs =>
    let first := layout start c
    let rest := layoutAll (first.value.span.stop + 1) cs
    (first :: rest.1, rest.2)

end

mutual

/-- Append the nodes of a tree under node `p`, each before its children. -/
def graft (t : Tree) (p : Nat) : Rose Placed → Tree
  | .node v cs => graftAll (t.addChild p v.atom v.span) t.count cs

/-- Append the nodes of several trees under node `p`, one tree after the other. -/
def graftAll (t : Tree) (p : Nat) : List (Rose Placed) → Tree
  | [] => t
  | c :: cs => graftAll (graft t p c) p cs

end

/-- The syntax tree with the given nodes, numbered so that each comes before its children. -/
def plant (r : Rose Placed) : Tree :=
  graftAll (.single r.value.atom r.value.span) Tree.root r.children

end Counterpart.Text
