import Counterpart.Model.Refactoring

/-!
# Class pairs

All that is known about two versions of one class.
-/

namespace Counterpart

/-- An enum constant that changed, with what corresponds in its class body, if it has one. -/
structure EnumConstantPair where
  name : String := ""
  classBody : Option AnonymousClassPair := none
  deriving Inhabited

/-- Two versions of a class, with what corresponds in them. -/
structure ClassPair where
  before : ClassDescriptor := {}
  after : ClassDescriptor := {}
  /-- The qualified names of the imports of both versions. -/
  imports : List String := []
  enumConstants : List (EnumConstant × EnumConstant) := []
  changedConstants : List EnumConstantPair := []
  typeParameters : List (Location × Location) := []
  attributes : List (Attribute × Attribute) := []
  annotations : List (Location × Location) := []
  /-- The names of the interfaces that the new version does not implement any more. -/
  removedInterfaces : List String := []
  bodies : List BodyPair := []
  refactorings : List Refactoring := []
  deriving Inhabited

end Counterpart
