import Counterpart.FilePair.Basic

/-!
# Links between fields

A field is found by its declarator; what is linked is the declaration around it. Declarations that
agree up to free names are linked as a whole. Otherwise only those keywords are linked that both
fields have, and the declarators are aligned.
-/

namespace Counterpart.FilePair

variable (config : AlignmentConfig) (p : FilePair)

/-- The link between the first things with the given label in the heads of two declarations. -/
def headKeywordLink (l : Link) (keyword : String) : List Link :=
  (both? (p.source.headChildLabelled? l.1 keyword) (p.target.headChildLabelled? l.2 keyword)).toList

/-- Whether two declarations agree up to free names. -/
def isSameDeclaration (l : Link) : Bool :=
  decide (p.source.digest l.1 = p.target.digest l.2) || p.isSameShape l

/-- The links between two field declarations that differ in more than names. -/
def changedFieldLinks (declaration declarator : Link) (x y : Attribute) : List Link :=
  let visibility := (x.visibility.sharedKeyword? y.visibility).toList
  let modifiers := Modifier.sharedKeywords x.modifiers y.modifiers
  declaration :: ((visibility ++ modifiers).flatMap (p.headKeywordLink declaration) ++
    p.wholeLinksIf p.isSameShape x.type.location y.type.location ++
    declarator :: Alignment.simpleLinks config p.source p.target false declarator.1 declarator.2 ++
    p.javadocLinks x.javadoc y.javadoc ++
    p.firstChildLink declarator)

/-- The links between two fields. -/
def fieldLinks (x y : Attribute) : List Link :=
  match p.resolveAs? x.location y.location Kind.variableDeclarationFragment with
  | none => []
  | some declarator =>
    match both? (p.source.parent declarator.1) (p.target.parent declarator.2) with
    | none => []
    | some declaration =>
      if p.isSameDeclaration declaration then p.overlay declaration
      else changedFieldLinks config p declaration declarator x y

/-- The links between corresponding fields. -/
def fieldsLinks (fields : List (Attribute × Attribute)) : List Link :=
  fields.flatMap fun f => fieldLinks config p f.1 f.2

end Counterpart.FilePair
