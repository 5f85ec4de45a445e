import Counterpart.Alignment.Links
import Counterpart.Model.Declaration
import Counterpart.Version
import Counterpart.Warning

/-!
# File pairs

A `FilePair` is a file of the old version and a file of the new one. All links are between the
nodes of some file pair; the functions here give the links for two locations, or for two nodes
already found.
-/

namespace Counterpart

/-- The old and the new version of a project. -/
structure Versions where
  before : Version
  after : Version

/-- A file of the old version and a file of the new one, with their trees. -/
structure FilePair where
  sourcePath : String
  targetPath : String
  source : Tree
  target : Tree

/-- The file pair with the given paths. The old file is looked up first. -/
def Versions.filePair (v : Versions) (sourcePath targetPath : String) : Except Warning FilePair :=
  match v.before.get? sourcePath with
  | none => .error (.missingTree sourcePath)
  | some source =>
    match v.after.get? targetPath with
    | none => .error (.missingTree targetPath)
    | some target => .ok { sourcePath, targetPath, source, target }

/-- The file pair that two locations lie in. -/
def Versions.filePairOf (v : Versions) (l m : Location) : Except Warning FilePair :=
  v.filePair l.file m.file

namespace FilePair

variable (p : FilePair)

/-- The nodes that two locations of these files denote in the way `find` says. -/
def resolveBy? (find : Location → Tree → Option Nat) (l m : Location) : Option Link :=
  if l.file = p.sourcePath ∧ m.file = p.targetPath then
    both? (find l p.source) (find m p.target)
  else none

/-- The nodes that two locations of these files denote. -/
def resolve? (l m : Location) : Option Link :=
  p.resolveBy? Location.resolve l m

/-- The nodes of kind `k` that two locations of these files denote. -/
def resolveAs? (l m : Location) (k : Kind) : Option Link :=
  p.resolveBy? (fun x t => x.resolveAs t k) l m

/-- The links between the subtrees of two nodes position by position. -/
def overlay (l : Link) : List Link :=
  p.source.overlay p.target l.1 l.2

/-- Whether the subtrees of two nodes have the same shape. -/
def isSameShape (l : Link) : Bool :=
  p.source.isSameShape l.1 p.target l.2

/-- Whether the subtrees of two nodes are isomorphic. -/
def isIsomorphic (l : Link) : Bool :=
  p.source.isIsomorphic l.1 p.target l.2

/-- Whether two nodes are of the same kind. -/
def isSameKind (l : Link) : Bool :=
  p.source.kind l.1 == p.target.kind l.2

/-- Whether two nodes are both of kind `k`. -/
def areOfKind (l : Link) (k : Kind) : Bool :=
  p.source.kind l.1 == k && p.target.kind l.2 == k

/-- The link between the first children of kind `k` of two nodes. -/
def childLink (l : Link) (k : Kind) : List Link :=
  (Tree.childrenOfKind? p.source p.target l.1 l.2 k).toList

/-- The link between the first children of two nodes. -/
def firstChildLink (l : Link) : List Link :=
  (both? (p.source.child? l.1 0) (p.target.child? l.2 0)).toList

/-- The link between the modifiers of two declarations that are the given keyword. -/
def modifierLink (l : Link) (keyword : String) : List Link :=
  (both? (p.source.childWith? l.1 Kind.modifier keyword)
    (p.target.childWith? l.2 Kind.modifier keyword)).toList

/-- The links between the whole subtrees at two locations. -/
def wholeLinks (l m : Location) : List Link :=
  (p.resolve? l m).toList.flatMap p.overlay

/-- The links between the whole subtrees at two locations, provided that `fits` holds of them. -/
def wholeLinksIf (fits : Link → Bool) (l m : Location) : List Link :=
  ((p.resolve? l m).filter fits).toList.flatMap p.overlay

/-- The links between two documentation comments with the same text. -/
def javadocLinks (x y : Option Javadoc) : List Link :=
  match x, y with
  | some x, some y => if x.equalText y then p.wholeLinks x.location y.location else []
  | _, _ => []

end FilePair

end Counterpart
