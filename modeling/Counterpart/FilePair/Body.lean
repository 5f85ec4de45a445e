import Counterpart.FilePair.Field
import Counterpart.Findings
import Counterpart.Model.Body

/-!
# Links between bodies

The links between two operations or initializer blocks and everything inside them. Expressions are
aligned after all else, so a pass gives `Findings`: the links found at once, and the pairs of
expressions that are put off.
-/

namespace Counterpart.FilePair

variable (config : AlignmentConfig) (p : FilePair)

/-! ### Signatures -/

/-- The links between the parts of two signatures. -/
def signatureLinks (s : SignaturePair) : List Link :=
  (s.typeParameters ++ s.annotations ++ s.exceptionTypes).flatMap (fun x => p.wholeLinks x.1 x.2) ++
    s.returnTypes.toList.flatMap fun x => p.wholeLinksIf p.isSameShape x.1 x.2

/-- Whether a node is a direct part of a method declaration. -/
def isInSignature (t : Tree) (n : Nat) : Bool :=
  (t.parent n).any fun q => t.kind q == Kind.methodDeclaration

/-- Whether two parameters differ in their names at most: they have the same shape, and the parts
other than the name are isomorphic. -/
def isSameParameter (l : Link) : Bool :=
  p.isSameShape l &&
    ((p.source.children l.1).zip (p.target.children l.2)).all fun c =>
      p.source.kind c.1 == Kind.simpleName || p.isIsomorphic c

/-- The links between two parameters. -/
def parameterLinks (x y : Variable) : List Link :=
  p.wholeLinksIf (fun l =>
    isInSignature p.source l.1 && isInSignature p.target l.2 && p.isSameParameter l)
    x.location y.location

/-- The links between the name, a primitive return type and the body of two operations. -/
def anchorLinks (l : Link) : List Link :=
  [Kind.simpleName, Kind.primitiveType, Kind.block].flatMap (p.childLink l)

/-- The links between two operations and the keywords that they share. -/
def operationLinks (x y : Operation) : List Link :=
  (p.resolve? x.location y.location).toList.flatMap fun l =>
    l :: (p.anchorLinks l ++
      (Modifier.sharedKeywords x.modifiers y.modifiers ++
        (x.visibility.sharedKeyword? y.visibility).toList).flatMap (p.modifierLink l))

/-- The links between two containers that are not both operations. Of two static initializer blocks
the keywords are linked, which come first. -/
def otherContainerLinks (bothStatic : Bool) (x y : Location) : List Link :=
  (p.resolve? x y).toList.flatMap fun l =>
    l :: ((if bothStatic then p.firstChildLink l else []) ++ p.anchorLinks l)

/-- The links between what two bodies belong to. -/
def containerLinks : Container → Container → List Link
  | .operation x, .operation y => p.javadocLinks x.javadoc y.javadoc ++ p.operationLinks x y
  | .initializerBlock x, .initializerBlock y =>
    p.otherContainerLinks (x.isStatic && y.isStatic) x.location y.location
  | x, y => p.otherContainerLinks false x.location y.location

/-- The links between the declarations around two bodies. -/
def declarationLinks (b : BodyPair) : List Link :=
  b.signature.toList.flatMap p.signatureLinks ++
    b.matchedVariables.flatMap (fun v => p.parameterLinks v.1 v.2) ++
    p.containerLinks b.before b.after

/-! ### Statements and expressions -/

/-- What two simple fragments give. Expressions are put off. -/
def simpleFindings (isExpression : Bool) (l : Link) : Findings :=
  let same := if p.isSameKind l then [l] else []
  if isExpression then ⟨same, [l]⟩
  else ⟨same ++ Alignment.simpleLinks config p.source p.target false l.1 l.2, []⟩

/-- The links between two composite statements: of two try statements, the first blocks; of two
catch clauses, also their parts; unless one is a plain block, the parts of any others. -/
def compositeLinks (l : Link) : List Link :=
  let parts := Alignment.compositeLinks config p.source p.target l.1 l.2
  let blocks := Alignment.blockLinks p.source p.target l.1 l.2
  if p.areOfKind l Kind.tryStatement then l :: blocks
  else if p.areOfKind l Kind.catchClause then l :: (blocks ++ parts)
  else if p.source.kind l.1 == Kind.block || p.target.kind l.2 == Kind.block then [l]
  else l :: parts

/-- What two fragments give. -/
def fragmentFindings (f : FragmentPair) : Findings :=
  match p.resolve? f.before.location f.after.location with
  | none => {}
  | some l =>
    match f.kind with
    | .simple => simpleFindings config p f.involvesExpression l
    | .composite => ⟨compositeLinks config p l, []⟩

mutual

/-- What the insides of two bodies give: anonymous classes first, then statements. -/
def bodyFindings : BodyPair → Findings
  | { fragments, anonymousClasses, .. } =>
    anonymousFindings anonymousClasses ++ .concat (fragments.map (fragmentFindings config p))

/-- What anonymous classes give, each with its fields first. -/
def anonymousFindings : List AnonymousClassPair → Findings
  | [] => {}
  | { attributes, members } :: rest =>
    ⟨fieldsLinks config p attributes, []⟩ ++ memberFindings members ++ anonymousFindings rest

/-- What operations and initializer blocks give, each with its declaration first. -/
def memberFindings : List BodyPair → Findings
  | [] => {}
  | b :: rest => ⟨p.declarationLinks b, []⟩ ++ bodyFindings b ++ memberFindings rest

end

/-- What one operation or initializer block gives. -/
def operationFindings (b : BodyPair) : Findings :=
  ⟨p.declarationLinks b, []⟩ ++ bodyFindings config p b

end Counterpart.FilePair
