import Counterpart.Alignment.TopDown

/-!
# Remaining nodes

The second part of an alignment pairs what is left: inner nodes that stand at the same place under
partners or share many descendants, then leaves under partners. Nodes are visited before their
children, so that parents are settled first.
-/

namespace Counterpart.Alignment

variable (config : AlignmentConfig) (t u : Tree)

/-- The partner of the parent of a source node. -/
def parentPartner? (m : Matching) (a : Nat) : Option Nat :=
  (t.parent a).bind m.target?

/-- Whether pairing `a` with `b` respects the partners of their parents: `b` lies within the partner
of the parent of `a`, and `a` within that of the parent of `b`, as far as there are such. -/
def respectsParents (m : Matching) (a b : Nat) : Bool :=
  ((t.parent a).bind m.target?).all (fun q => u.isWithin b q) &&
    ((u.parent b).bind m.source?).all (fun p => t.isWithin a p)

/-- The number of nodes below `a` whose partner is below `b`. -/
def sharedBelow (m : Matching) (a b : Nat) : Nat :=
  let below := u.strictDescendants b
  (t.strictDescendants a).countP fun x => (m.target? x).any fun y => below.contains y

/-- The share of the nodes below `a` and `b` that are paired with each other: twice the number of
pairs over the number of nodes. -/
def similarity (m : Matching) (a b : Nat) : Float :=
  let total := (t.strictDescendants a).length + (u.strictDescendants b).length
  if total = 0 then 1.0 else 2.0 * (sharedBelow t u m a b).toFloat / total.toFloat

/-- The free child of the same kind at the same position under the partner of the parent. -/
def sameSpot? (m : Matching) (a : Nat) : Option Nat :=
  (parentPartner? t m a).bind fun q => (u.children q).find? fun b =>
    !m.hasTarget b && u.kind b == t.kind a && u.position b == t.position a

/-- The first of the most similar nodes among the given ones, if it is similar enough. -/
def mostSimilar? (m : Matching) (a : Nat) (candidates : List Nat) : Option Nat :=
  let best := candidates.foldl (fun (best : Option (Nat × Float)) b =>
    let score := similarity t u m a b
    if decide (config.similarityThreshold ≤ score) && best.all (fun x => decide (x.2 < score)) then
      some (b, score)
    else best) none
  best.map (·.1)

/-- The free inner nodes below `root` that `a` may be paired with for its descendants. -/
def innerCandidates (m : Matching) (root a : Nat) : List Nat :=
  (u.descendants root).filter fun b =>
    !m.hasTarget b && !u.isLeaf b && u.kind b == t.kind a && respectsParents t u m a b

/-- Pair an inner node: with the one at the same spot, or else with the most similar one. -/
def pairInner (root : Nat) (m : Matching) (a : Nat) : Matching :=
  if m.hasSource a || t.isLeaf a then m
  else
    match (sameSpot? t u m a).or (mostSimilar? config t u m a (innerCandidates t u m root a)) with
    | some b => m.pair a b
    | none => m

/-- The free leaf of the same kind under the partner of the parent: of equal label and position, or
else of equal label, or else of equal position. -/
def leafPartner? (m : Matching) (a : Nat) : Option Nat :=
  (parentPartner? t m a).bind fun q =>
    let free := (u.children q).filter fun b =>
      !m.hasTarget b && u.isLeaf b && u.kind b == t.kind a
    let sameLabel := fun b => u.label b == t.label a
    let samePosition := fun b => u.position b == t.position a
    (free.find? fun b => samePosition b && sameLabel b).or
      ((free.find? sameLabel).or (free.find? samePosition))

/-- Pair a leaf. -/
def pairLeaf (m : Matching) (a : Nat) : Matching :=
  if m.hasSource a || !t.isLeaf a then m
  else
    match leafPartner? t u m a with
    | some b => m.pair a b
    | none => m

/-- Pair the nodes below `a` and `b` that are left: first all inner nodes, then all leaves. -/
def bottomUp (m : Matching) (a b : Nat) : Matching :=
  let inner := (t.descendants a).foldl (pairInner config t u b) m
  (t.descendants a).foldl (pairLeaf t u) inner

end Counterpart.Alignment
