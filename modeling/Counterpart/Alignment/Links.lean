import Counterpart.Alignment.Basic
import Counterpart.Tree.Isomorphism
import Counterpart.Tree.Search

/-!
# Links between statements and expressions

The links that two corresponding nodes give rise to. A simple node is aligned as a whole. A
composite statement has its own parts aligned, such as conditions, loop headers and catch
parameters, while nested blocks are only linked: the statements inside have correspondences of
their own.
-/

namespace Counterpart.Alignment

variable (config : AlignmentConfig) (t u : Tree)

/-- The links between two subtrees that correspond as a whole. If `wholesale`, subtrees of the same
shape are linked position by position. -/
def simpleLinks (wholesale : Bool) (a b : Nat) : List Link :=
  if wholesale && t.isSameShape a u b then t.overlay u a b
  else (a, b) :: (align config t u a b).pairs

/-- The link between the first blocks of two nodes. -/
def blockLinks (a b : Nat) : List Link :=
  (Tree.childrenOfKind? t u a b Kind.block).toList

/-- The nested blocks and catch clauses of a statement. -/
def nestedBlocks (t : Tree) (n : Nat) : List Nat :=
  (t.children n).filter fun c => (t.kind c).isBlockLike

/-- The parts of a statement that are no statements themselves. -/
def ownParts (t : Tree) (n : Nat) : List Nat :=
  (t.children n).filter fun c => !(t.kind c).isStatement

/-- How the parts of two statements go together by their kinds. -/
structure PartPairing where
  /-- The parts of equal kind. -/
  paired : List Link
  /-- The source parts left over, in order. -/
  unpaired : List Nat
  /-- The target parts left over, in order. -/
  free : List Nat

/-- Give every source part the first free target part of its kind. -/
def pairParts : List Nat → List Nat → PartPairing
  | [], free => ⟨[], [], free⟩
  | s :: ss, free =>
    match free.find? fun d => u.kind d == t.kind s with
    | some d =>
      let rest := pairParts ss (free.erase d)
      { rest with paired := (s, d) :: rest.paired }
    | none =>
      let rest := pairParts ss free
      { rest with unpaired := s :: rest.unpaired }

/-- The links between two parts of equal kind. -/
def partLinks (l : Link) : List Link :=
  if t.isIsomorphic l.1 u l.2 then t.overlay u l.1 l.2 else (align config t u l.1 l.2).pairs

/-- The first node below `container` that is isomorphic to `target`. -/
def copyBelow? (t : Tree) (container : Nat) (u : Tree) (target : Nat) : Option Nat :=
  (t.strictDescendants container).find? fun n => t.isIsomorphic n u target

/-- The links between a part and its copy inside the other one, as in a condition that was split
off or merged into another: a copy of `d` below `s`, or else a copy of `s` below `d`. -/
def copyLinks? (s d : Nat) : Option (List Link) :=
  match copyBelow? t s u d with
  | some x => some (t.overlay u x d)
  | none => (copyBelow? u d t s).map fun y => t.overlay u s y

/-- Link parts of different kinds by copies; every target part is used at most once. -/
def linkCopies : List Nat → List Nat → List Link
  | [], _ => []
  | s :: ss, free =>
    match free.findSome? fun d => (copyLinks? t u s d).map fun links => (d, links) with
    | some (d, links) => links ++ linkCopies ss (free.erase d)
    | none => linkCopies ss free

/-- Whether the first blocks of two statements belong together beyond their order. -/
def haveLeadingBlocks (a b : Nat) : Bool :=
  t.kind a == u.kind b && (t.kind a == Kind.tryStatement || t.kind a == Kind.catchClause)

/-- The links between two statements that hold other statements. -/
def compositeLinks (a b : Nat) : List Link :=
  let leading := if haveLeadingBlocks t u a b then blockLinks t u a b else []
  let blocks := ((nestedBlocks t a).zip (nestedBlocks u b)).filter fun l =>
    t.kind l.1 == u.kind l.2
  let parts := pairParts t u (ownParts t a) (ownParts u b)
  (a, b) :: (leading ++ blocks ++ parts.paired.flatMap (partLinks config t u) ++
    linkCopies t u parts.unpaired parts.free)

end Counterpart.Alignment
