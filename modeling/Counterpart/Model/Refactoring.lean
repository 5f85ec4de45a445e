import Counterpart.Model.Body

/-!
# Refactorings

A `Refactoring` is a detected change of design, with the elements of both versions that it
connects.
-/

namespace Counterpart

/-- How a member came to another class. -/
inductive Relocation where
  | move
  | pullUp
  | pushDown
  deriving DecidableEq

/-- How a body came to be shared between two operations. -/
inductive Sharing where
  | extract
  | inline
  deriving DecidableEq

/-- What was merged into one. -/
inductive Merging where
  | conditional
  | catchClause
  deriving DecidableEq

/-- Which version holds the loop of a loop that became a pipeline or the other way round. -/
inductive LoopSide where
  | before
  | after
  deriving DecidableEq

/-- The classes in which a change within an operation happened. -/
structure InvolvedClasses where
  before : String := ""
  after : String := ""
  deriving Inhabited

/-- A change of design. -/
inductive Refactoring where
  | relocateOperation (how : Relocation) (old new : Operation) (body : BodyPair)
  | relocateAttribute (how : Relocation) (old new : Attribute)
  | shareBody (how : Sharing) (body : BodyPair)
  | renameAttribute (old new : Attribute)
  | mergeVariables (old : List Variable) (new : Variable) (classes : InvolvedClasses)
  | splitVariable (old : Variable) (new : List Variable) (classes : InvolvedClasses)
  | splitConditional (old : Fragment) (new : List Fragment) (classes : InvolvedClasses)
  | mergeFragments (what : Merging) (old : List Fragment) (new : Fragment)
      (classes : InvolvedClasses)
  | replaceLoop (side : LoopSide) (old new : List Fragment) (classes : InvolvedClasses)
  | extractVariable (new : Variable) (classes : InvolvedClasses)

namespace Refactoring

/-- The name under which a refactoring is reported. -/
def name : Refactoring → String
  | relocateOperation .move .. => "Move Method"
  | relocateOperation .pullUp .. => "Pull Up Method"
  | relocateOperation .pushDown .. => "Push Down Method"
  | relocateAttribute .move .. => "Move Attribute"
  | relocateAttribute .pullUp .. => "Pull Up Attribute"
  | relocateAttribute .pushDown .. => "Push Down Attribute"
  | shareBody .extract .. => "Extract Method"
  | shareBody .inline .. => "Inline Method"
  | renameAttribute .. => "Rename Attribute"
  | mergeVariables .. => "Merge Variable"
  | splitVariable .. => "Split Variable"
  | splitConditional .. => "Split Conditional"
  | mergeFragments .conditional .. => "Merge Conditional"
  | mergeFragments .catchClause .. => "Merge Catch"
  | replaceLoop .before .. => "Replace Loop With Pipeline"
  | replaceLoop .after .. => "Replace Pipeline With Loop"
  | extractVariable .. => "Extract Variable"

/-- The classes of the old version that are touched. -/
def classesBefore : Refactoring → List String
  | relocateOperation _ old _ _ => [old.className]
  | relocateAttribute _ old _ => [old.className]
  | shareBody _ body => [body.before.className]
  | renameAttribute old _ => [old.className]
  | mergeVariables _ _ cs | splitVariable _ _ cs | splitConditional _ _ cs
  | mergeFragments _ _ _ cs | replaceLoop _ _ _ cs | extractVariable _ cs => [cs.before]

/-- The classes of the new version that are touched. -/
def classesAfter : Refactoring → List String
  | relocateOperation _ _ new _ => [new.className]
  | relocateAttribute _ _ new => [new.className]
  | shareBody _ body => [body.after.className]
  | renameAttribute _ new => [new.className]
  | mergeVariables _ _ cs | splitVariable _ _ cs | splitConditional _ _ cs
  | mergeFragments _ _ _ cs | replaceLoop _ _ _ cs | extractVariable _ cs => [cs.after]

/-- Whether elements of different classes are connected. -/
def isCrossClass : Refactoring → Bool
  | relocateOperation .. | relocateAttribute .. => true
  | _ => false

end Refactoring

end Counterpart
