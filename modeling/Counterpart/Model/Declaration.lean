import Counterpart.Model.Location

/-!
# Declarations

The elements that classes are made of, each with the location of its declaration. They are inputs:
what declares what, and what became of it, is found out elsewhere.
-/

namespace Counterpart

/-- The access level of a declaration. -/
inductive Visibility where
  | isPublic
  | isProtected
  | isPrivate
  | isPackage
  deriving DecidableEq

instance : Inhabited Visibility := ⟨.isPackage⟩

/-- The keyword of an access level; the package level has none. -/
def Visibility.keyword? : Visibility → Option String
  | isPublic => some "public"
  | isProtected => some "protected"
  | isPrivate => some "private"
  | isPackage => none

/-- The keyword of an access level that two declarations share. -/
def Visibility.sharedKeyword? (v w : Visibility) : Option String :=
  if v = w then v.keyword? else none

/-- A modifier other than an access level. -/
inductive Modifier where
  | isStatic
  | isFinal
  | isAbstract
  | isSynchronized
  | isVolatile
  | isTransient
  deriving DecidableEq

namespace Modifier

/-- All modifiers, in the order in which they are declared. -/
def all : List Modifier :=
  [isStatic, isFinal, isAbstract, isSynchronized, isVolatile, isTransient]

/-- The keyword of a modifier. -/
def keyword : Modifier → String
  | isStatic => "static"
  | isFinal => "final"
  | isAbstract => "abstract"
  | isSynchronized => "synchronized"
  | isVolatile => "volatile"
  | isTransient => "transient"

theorem mem_all (m : Modifier) : m ∈ all := by
  cases m <;> decide

/-- The keywords of the modifiers that two declarations share, in declaration order. -/
def sharedKeywords (ms ns : List Modifier) : List String :=
  (all.filter fun m => ms.contains m && ns.contains m).map keyword

end Modifier

/-- A reference to a type: a superclass, an interface or a declared type. -/
structure TypeRef where
  name : String := ""
  location : Location := {}
  deriving Inhabited

/-- A documentation comment. -/
structure Javadoc where
  text : String := ""
  location : Location := {}
  deriving Inhabited

/-- Whether two comments have the same text. -/
def Javadoc.equalText (x y : Javadoc) : Bool :=
  x.text == y.text

/-- A parameter or a local variable. -/
structure Variable where
  name : String := ""
  location : Location := {}
  type : Option TypeRef := none
  deriving Inhabited

/-- A field of a class. Its location is that of the declarator; the parent of the declarator is the
whole field declaration. -/
structure Attribute where
  name : String := ""
  className : String := ""
  location : Location := {}
  type : TypeRef := {}
  visibility : Visibility := .isPackage
  modifiers : List Modifier := []
  javadoc : Option Javadoc := none
  deriving Inhabited

/-- A method or constructor. -/
structure Operation where
  name : String := ""
  className : String := ""
  location : Location := {}
  visibility : Visibility := .isPackage
  modifiers : List Modifier := []
  javadoc : Option Javadoc := none
  deriving Inhabited

/-- A block of code that runs when a class or an instance of it is set up. -/
structure InitializerBlock where
  className : String := ""
  location : Location := {}
  isStatic : Bool := false
  deriving Inhabited

/-- A constant of an enum class. -/
structure EnumConstant where
  name : String := ""
  location : Location := {}
  deriving Inhabited

/-- What sort of class a class is. -/
inductive ClassKind where
  | isClass
  | isInterface
  | isEnum
  deriving DecidableEq

instance : Inhabited ClassKind := ⟨.isClass⟩

/-- The kind of node that declares a class. -/
def ClassKind.declaration : ClassKind → Kind
  | isEnum => Kind.enumDeclaration
  | isClass | isInterface => Kind.typeDeclaration

/-- A class, with the location of its whole declaration. -/
structure ClassDescriptor where
  /-- The qualified name. -/
  name : String := ""
  kind : ClassKind := .isClass
  location : Location := {}
  visibility : Visibility := .isPackage
  modifiers : List Modifier := []
  superclass : Option TypeRef := none
  interfaces : List TypeRef := []
  javadoc : Option Javadoc := none
  deriving Inhabited

/-- The file that declares a class. -/
def ClassDescriptor.sourceFile (c : ClassDescriptor) : String :=
  c.location.file

end Counterpart
