import Counterpart.Matching

/-!
# Identical subtrees

The first part of an alignment goes down two subtrees at once and pairs the subtrees that are equal
by their digests. It works through a list of candidates, each a source node with a target node, and
replaces a candidate that differs by the pairs of children worth a look.
-/

namespace Counterpart

/-- What an alignment is to accept. -/
structure AlignmentConfig where
  /-- The least similarity at which two inner nodes are paired for their descendants. -/
  similarityThreshold : Float := 0.5
  /-- The least height at which a node is a candidate for an identical subtree. -/
  minHeight : Nat := 1

instance : Inhabited AlignmentConfig := ⟨{}⟩

namespace Alignment

mutual

/-- Pair the nodes of an overlay, a node before its children and siblings from the last to the
first. Where one of two nodes has a partner, neither they nor anything below them is paired. -/
def pairOverlay (m : Matching) : Rose Link → Matching
  | .node l cs =>
    if m.hasSource l.1 || m.hasTarget l.2 then m else pairOverlays (m.pair l.1 l.2) cs

/-- Pair the nodes of several overlays, the last one first. -/
def pairOverlays (m : Matching) : List (Rose Link) → Matching
  | [] => m
  | c :: cs => pairOverlay (pairOverlays m cs) c

end

variable (config : AlignmentConfig) (t u : Tree)

/-- Pair two subtrees position by position. -/
def pairSubtrees (m : Matching) (a b : Nat) : Matching :=
  pairOverlay m ((t.subtree a).zip (u.subtree b))

/-- The pairs of children of `a` and `b` worth a look: those with equal digests, then those of
equal kind, each in the order of the children. Children of `b` that have a partner are left out. -/
def childCandidates (m : Matching) (a b : Nat) : List Link :=
  let free := (u.children b).filter fun d => !m.hasTarget d
  let couples := (t.children a).flatMap fun c => free.map fun d => (c, d)
  let equal := couples.filter fun l => decide (t.digest l.1 = u.digest l.2)
  let alike := couples.filter fun l =>
    decide (t.digest l.1 ≠ u.digest l.2) && decide (t.kind l.1 = u.kind l.2)
  equal ++ alike

/-- Look at a candidate: the matching afterwards, and the candidates that it gives rise to. -/
def examine (m : Matching) (l : Link) : Matching × List Link :=
  if m.hasSource l.1 || m.hasTarget l.2 then (m, [])
  else if t.height l.1 < config.minHeight then (m, [])
  else if t.digest l.1 = u.digest l.2 ∧ t.kind l.1 = u.kind l.2 then
    (pairSubtrees t u m l.1 l.2, [])
  else (m, childCandidates t u m l.1 l.2)

/-- Look at candidates, new ones before those that wait, at most `bound` of them. -/
def sweep : Nat → Matching → List Link → Matching
  | 0, m, _ => m
  | _ + 1, m, [] => m
  | bound + 1, m, l :: waiting =>
    let seen := examine config t u m l
    sweep bound seen.1 (seen.2 ++ waiting)

/-- Pair the identical parts of the subtrees of `a` and `b`. No candidate comes up twice, so there
are at most as many as there are pairs of a node of one and a node of the other subtree. -/
def topDown (a b : Nat) : Matching :=
  sweep config t u ((t.descendants a).length * (u.descendants b).length) .empty [(a, b)]

end Alignment

end Counterpart
