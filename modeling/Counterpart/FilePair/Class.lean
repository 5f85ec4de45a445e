import Counterpart.FilePair.Body
import Counterpart.Model.ClassPair

/-!
# Links between files and classes

The links between the frames of two files, their package and import declarations, and between the
declarations of two classes with all that is not a body.
-/

namespace Counterpart.FilePair

variable (config : AlignmentConfig) (p : FilePair)

/-- The import declaration of the given name: the child of the root whose first child has that
label. -/
def importOf? (t : Tree) (name : String) : Option Nat :=
  (t.children Tree.root).find? fun c =>
    t.kind c == Kind.importDeclaration && (t.child? c 0).any fun n => t.label n == some name

/-- The links between the package declarations. -/
def packageLinks : List Link :=
  (p.childLink (Tree.root, Tree.root) Kind.packageDeclaration).flatMap p.overlay

/-- The links between the import declarations of the given name. -/
def importLinks (name : String) : List Link :=
  (both? (importOf? p.source name) (importOf? p.target name)).toList.flatMap p.overlay

/-- The links between two enum constants. -/
def enumConstantLinks (x y : EnumConstant) : List Link :=
  (p.resolve? x.location y.location).toList.flatMap fun l =>
    Alignment.simpleLinks config p.source p.target false l.1 l.2

/-- The links between an interface and its namesake in the new version. -/
def interfaceLinks (after : List TypeRef) (x : TypeRef) : List Link :=
  (after.find? fun y => y.name == x.name).toList.flatMap fun y => p.wholeLinks x.location y.location

/-- The links between the declarations `l` of two classes. -/
def classHeaderLinks (c : ClassPair) (l : Link) : List Link :=
  let x := c.before
  let y := c.after
  let kept := x.interfaces.filter fun i => !c.removedInterfaces.contains i.name
  l :: ((x.visibility.sharedKeyword? y.visibility).toList.flatMap (p.modifierLink l) ++
    [Kind.simpleName, Kind.typeDeclarationKeyword].flatMap (p.childLink l) ++
    (Modifier.sharedKeywords x.modifiers y.modifiers).flatMap (p.modifierLink l) ++
    c.typeParameters.flatMap (fun t => p.wholeLinksIf p.isSameShape t.1 t.2) ++
    (both? x.superclass y.superclass).toList.flatMap (fun t =>
      p.wholeLinksIf p.isIsomorphic t.1.location t.2.location) ++
    kept.flatMap (p.interfaceLinks y.interfaces) ++
    fieldsLinks config p c.attributes ++
    p.javadocLinks x.javadoc y.javadoc ++
    c.annotations.flatMap fun t => p.wholeLinksIf p.isSameShape t.1 t.2)

/-- The links between the declarations of two classes, if they are found. The kind of the old
declaration is expected of both. -/
def classLinks (c : ClassPair) : List Link :=
  (p.resolveAs? c.before.location c.after.location c.before.kind.declaration).toList.flatMap
    (classHeaderLinks config p c)

/-- What two versions of a class give, refactorings apart. -/
def classFindings (c : ClassPair) : Findings :=
  let frame := (Tree.root, Tree.root) :: (p.packageLinks ++ c.imports.flatMap p.importLinks ++
    c.enumConstants.flatMap fun e => enumConstantLinks config p e.1 e.2)
  let constantBodies := c.changedConstants.flatMap fun e =>
    e.classBody.toList.flatMap AnonymousClassPair.members
  ⟨frame, []⟩ ++ memberFindings config p constantBodies ++ ⟨classLinks config p c, []⟩ ++
    memberFindings config p c.bodies

end Counterpart.FilePair
