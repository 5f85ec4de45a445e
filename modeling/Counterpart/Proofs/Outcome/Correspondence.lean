import Counterpart.FilePair.Class
import Counterpart.Attempt
import Counterpart.Proofs.Tree.Descent

/-!
# Listed correspondences

A structural model says which places of two versions belong together. `ClassPair.correspondences` and
`Refactoring.correspondences` write out all that it says, bodies and anonymous classes at any depth
included, as pairs of locations with the way they are to be read. A correspondence justifies a link in
its own two files if the link lies within the nodes that the locations denote there.
-/

namespace Counterpart

/-- How a location is read. -/
inductive Reading where
  /-- As the node that it denotes. -/
  | asGiven
  /-- As the node of the given kind that it denotes. -/
  | ofKind (k : Kind)
  /-- As the declaration around the declarator that it denotes. -/
  | asDeclaration

/-- The node that a location stands for. -/
def Reading.node? : Reading → Location → Tree → Option Nat
  | asGiven, l, t => l.resolve t
  | ofKind k, l, t => l.resolveAs t k
  | asDeclaration, l, t => (l.resolveAs t Kind.variableDeclarationFragment).bind t.parent

/-- A place of the old version and the place of the new one that belongs to it. -/
structure Correspondence where
  before : Location
  after : Location
  reading : Reading := .asGiven

/-- A correspondence between the files at two paths holds both ends of a link within its nodes. -/
def Correspondence.Justifies (v : Versions) (x : Correspondence) (source target : String)
    (l : Link) : Prop :=
  x.before.file = source ∧ x.after.file = target ∧
    ∃ t u a b, v.before.get? source = some t ∧ v.after.get? target = some u ∧
      x.reading.node? x.before t = some a ∧ x.reading.node? x.after u = some b ∧
      l.1 ∈ t.descendants a ∧ l.2 ∈ u.descendants b

/-! ### Declarations -/

/-- Two documentation comments belong together if they have the same text. -/
def Javadoc.correspondences (x y : Option Javadoc) : List Correspondence :=
  (both? x y).toList.flatMap fun d =>
    if d.1.equalText d.2 then [{ before := d.1.location, after := d.2.location }] else []

/-- Two fields belong together with their types and comments. -/
def Attribute.correspondences (x y : Attribute) : List Correspondence :=
  { before := x.location, after := y.location, reading := .asDeclaration } ::
    { before := x.type.location, after := y.type.location } ::
    Javadoc.correspondences x.javadoc y.javadoc

/-- Two variables belong together with their types. -/
def Variable.correspondences (x y : Variable) : List Correspondence :=
  { before := x.location, after := y.location } ::
    (both? x.type y.type).toList.map fun t => { before := t.1.location, after := t.2.location }

def SignaturePair.correspondences (s : SignaturePair) : List Correspondence :=
  (s.typeParameters ++ s.annotations ++ s.exceptionTypes ++ s.returnTypes.toList).map fun x =>
    { before := x.1, after := x.2 }

/-! ### Bodies -/

def FragmentPair.correspondence (f : FragmentPair) : Correspondence :=
  { before := f.before.location, after := f.after.location }

/-- The comment of an operation; initializer blocks have none. -/
def Container.javadoc? (c : Container) : Option Javadoc :=
  c.operation?.bind Operation.javadoc

/-- What belongs together around two bodies. -/
def BodyPair.declarations (b : BodyPair) : List Correspondence :=
  { before := b.before.location, after := b.after.location } ::
    (b.signature.toList.flatMap SignaturePair.correspondences ++
      b.matchedVariables.map (fun x => { before := x.1.location, after := x.2.location }) ++
      Javadoc.correspondences b.before.javadoc? b.after.javadoc?)

mutual

/-- What belongs together inside two bodies. -/
def BodyPair.contents : BodyPair → List Correspondence
  | { fragments, anonymousClasses, .. } =>
    contentsOfAnonymous anonymousClasses ++ fragments.map FragmentPair.correspondence

/-- What belongs together in anonymous classes. -/
def contentsOfAnonymous : List AnonymousClassPair → List Correspondence
  | [] => []
  | { attributes, members } :: rest =>
    attributes.flatMap (fun x => Attribute.correspondences x.1 x.2) ++ contentsOfMembers members ++
      contentsOfAnonymous rest

/-- What belongs together in operations and initializer blocks, their declarations included. -/
def contentsOfMembers : List BodyPair → List Correspondence
  | [] => []
  | b :: rest => b.declarations ++ b.contents ++ contentsOfMembers rest

end

/-! ### Refactorings and class pairs -/

/-- What a refactoring connects. Of a loop and a pipeline these are all pairs of a fragment of one
with a fragment of the other, and their variables of the same names. -/
def Refactoring.correspondences : Refactoring → List Correspondence
  | relocateOperation _ _ _ body => body.declarations ++ body.contents
  | relocateAttribute _ old new | renameAttribute old new => Attribute.correspondences old new
  | shareBody _ body => body.contents
  | mergeVariables old new _ => old.flatMap fun x => Variable.correspondences x new
  | splitVariable old new _ => new.flatMap fun y => Variable.correspondences old y
  | splitConditional old new _ => new.map fun y => { before := old.location, after := y.location }
  | mergeFragments _ old new _ => old.map fun x => { before := x.location, after := new.location }
  | replaceLoop side old new _ =>
    let sides := orient side old new
    sides.1.flatMap fun loop => sides.2.flatMap fun pipeline =>
      let statements := orient side loop.location pipeline.location
      { before := statements.1, after := statements.2 } ::
        (namesakes loop pipeline).map fun x =>
          let declared := orient side x.1.location x.2.location
          { before := declared.1, after := declared.2 }
  | extractVariable _ _ => []

/-- The interfaces of both versions that have the same name and were not removed. -/
def ClassPair.keptInterfaces (c : ClassPair) : List (TypeRef × TypeRef) :=
  (c.before.interfaces.filter fun i => !c.removedInterfaces.contains i.name).flatMap fun x =>
    (c.after.interfaces.filter fun y => y.name == x.name).map fun y => (x, y)

/-- Two locations, read as they are. -/
def Correspondence.ofLocations (x : Location × Location) : Correspondence :=
  { before := x.1, after := x.2 }

/-- Two references to types. -/
def Correspondence.ofTypes (x : TypeRef × TypeRef) : Correspondence :=
  { before := x.1.location, after := x.2.location }

/-- What belongs together in the declarations of two classes, bodies apart. -/
def ClassPair.header (c : ClassPair) : List Correspondence :=
  { before := c.before.location, after := c.after.location
    reading := .ofKind c.before.kind.declaration } ::
    (c.typeParameters.map .ofLocations ++
      (both? c.before.superclass c.after.superclass).toList.map .ofTypes ++
      c.keptInterfaces.map .ofTypes ++
      c.attributes.flatMap (fun x => Attribute.correspondences x.1 x.2) ++
      Javadoc.correspondences c.before.javadoc c.after.javadoc ++
      c.annotations.map .ofLocations)

/-- What belongs together in two versions of a class. -/
def ClassPair.correspondences (c : ClassPair) : List Correspondence :=
  c.enumConstants.map (fun e => { before := e.1.location, after := e.2.location }) ++
    contentsOfMembers (c.changedConstants.flatMap fun e =>
      e.classBody.toList.flatMap AnonymousClassPair.members) ++
    c.header ++ contentsOfMembers c.bodies ++ c.refactorings.flatMap Refactoring.correspondences

/-- The links that the files of a class pair have of themselves: between their roots, within their
package declarations, and within the imports of one name. -/
inductive ClassPair.Frame (c : ClassPair) (t u : Tree) : Link → Prop
  | roots : Frame c t u (Tree.root, Tree.root)
  | package {a b : Nat} {l : Link} (ha : t.childOfKind? Tree.root Kind.packageDeclaration = some a)
      (hb : u.childOfKind? Tree.root Kind.packageDeclaration = some b)
      (hl : t.LinkWithin u (a, b) l) : Frame c t u l
  | imports {name : String} {a b : Nat} {l : Link} (hname : name ∈ c.imports)
      (ha : FilePair.importOf? t name = some a) (hb : FilePair.importOf? u name = some b)
      (hl : t.LinkWithin u (a, b) l) : Frame c t u l

end Counterpart
