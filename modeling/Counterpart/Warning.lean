/-!
# Warnings

A `Warning` reports that a class pair or a refactoring could not be taken into account. The rest of
a run goes on.
-/

namespace Counterpart

/-- Why something was passed over. -/
inductive Warning where
  /-- A file has no syntax tree. -/
  | missingTree (path : String)
  /-- A pipeline that replaces a loop, or is replaced by one, is not a single fragment. -/
  | expectedSingleFragment (refactoring : String) (count : Nat)
  /-- None of the fragments that should hold a loop is an enhanced for statement. -/
  | missingEnhancedFor (refactoring : String)
  /-- A lambda parameter has no namesake among the variables of the loop. -/
  | unknownLoopVariable (refactoring name : String)
  /-- A changed enum constant has no class body to compare. -/
  | missingClassBody (constant : String)
  deriving DecidableEq

/-- The wording of a warning. -/
def Warning.message : Warning → String
  | missingTree path => "no syntax tree for " ++ path
  | expectedSingleFragment r count =>
    r ++ ": expected exactly one code fragment, found " ++ toString count
  | missingEnhancedFor r => r ++ ": no enhanced for statement among the code fragments"
  | unknownLoopVariable r name => r ++ ": loop declares no variable named " ++ name
  | missingClassBody constant => "enum constant " ++ constant ++ " has no anonymous class diff"

end Counterpart
