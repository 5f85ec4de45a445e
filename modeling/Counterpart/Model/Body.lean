import Counterpart.Model.Declaration

/-!
# Bodies

How the statements and expressions of two bodies correspond. Bodies may hold anonymous classes,
whose members have bodies in turn.
-/

namespace Counterpart

/-- What a body belongs to. -/
inductive Container where
  | operation (o : Operation)
  | initializerBlock (i : InitializerBlock)

instance : Inhabited Container := ⟨.operation {}⟩

namespace Container

def location : Container → Location
  | operation o => o.location
  | initializerBlock i => i.location

def className : Container → String
  | operation o => o.className
  | initializerBlock i => i.className

def operation? : Container → Option Operation
  | operation o => some o
  | initializerBlock _ => none

end Container

/-- The parts of two signatures that correspond. -/
structure SignaturePair where
  typeParameters : List (Location × Location) := []
  annotations : List (Location × Location) := []
  exceptionTypes : List (Location × Location) := []
  returnTypes : Option (Location × Location) := none
  deriving Inhabited

/-- A lambda expression. -/
structure Lambda where
  location : Location := {}
  parameters : List Variable := []
  deriving Inhabited

/-- A statement or expression of a body. -/
structure Fragment where
  location : Location := {}
  isExpression : Bool := false
  /-- The variables that the fragment declares. -/
  declared : List Variable := []
  lambdas : List Lambda := []
  deriving Inhabited

/-- The variable of the given name that a fragment declares. -/
def Fragment.variableNamed? (f : Fragment) (name : String) : Option Variable :=
  f.declared.find? fun v => v.name == name

/-- How two fragments are to be aligned. -/
inductive FragmentKind where
  | simple
  | composite
  deriving DecidableEq

instance : Inhabited FragmentKind := ⟨.simple⟩

/-- Two fragments that correspond. -/
structure FragmentPair where
  kind : FragmentKind := .simple
  before : Fragment := {}
  after : Fragment := {}
  deriving Inhabited

/-- Whether one of two fragments is an expression. -/
def FragmentPair.involvesExpression (p : FragmentPair) : Bool :=
  p.before.isExpression || p.after.isExpression

mutual

/-- Two bodies that correspond, with what corresponds in them. -/
structure BodyPair where
  before : Container := .operation {}
  after : Container := .operation {}
  signature : Option SignaturePair := none
  matchedVariables : List (Variable × Variable) := []
  fragments : List FragmentPair := []
  anonymousClasses : List AnonymousClassPair := []

/-- Two anonymous classes that correspond. -/
structure AnonymousClassPair where
  attributes : List (Attribute × Attribute) := []
  members : List BodyPair := []

end

instance : Inhabited BodyPair := ⟨{}⟩

instance : Inhabited AnonymousClassPair := ⟨{}⟩

end Counterpart
