/-!
# Node kinds

Kinds are names of grammar productions. The vocabulary is open: any name is a kind, and the ones
defined here are those that some rule of alignment or reconciliation asks for.
-/

namespace Counterpart

/-- The grammar production that a node is an instance of. -/
abbrev Kind := String

namespace Kind

def compilationUnit : Kind := "CompilationUnit"
def packageDeclaration : Kind := "PackageDeclaration"
def importDeclaration : Kind := "ImportDeclaration"
def typeDeclaration : Kind := "TypeDeclaration"
def enumDeclaration : Kind := "EnumDeclaration"
def enumConstantDeclaration : Kind := "EnumConstantDeclaration"
def anonymousClassDeclaration : Kind := "AnonymousClassDeclaration"
def typeDeclarationKeyword : Kind := "TYPE_DECLARATION_KIND"
def typeParameter : Kind := "TypeParameter"
def fieldDeclaration : Kind := "FieldDeclaration"
def variableDeclarationFragment : Kind := "VariableDeclarationFragment"
def variableDeclarationStatement : Kind := "VariableDeclarationStatement"
def singleVariableDeclaration : Kind := "SingleVariableDeclaration"
def methodDeclaration : Kind := "MethodDeclaration"
def initializer : Kind := "Initializer"
def modifier : Kind := "Modifier"
def simpleName : Kind := "SimpleName"
def qualifiedName : Kind := "QualifiedName"
def primitiveType : Kind := "PrimitiveType"
def simpleType : Kind := "SimpleType"
def parameterizedType : Kind := "ParameterizedType"
def javadoc : Kind := "Javadoc"
def markerAnnotation : Kind := "MarkerAnnotation"
def block : Kind := "Block"
def tryStatement : Kind := "TryStatement"
def catchClause : Kind := "CatchClause"
def ifStatement : Kind := "IfStatement"
def forStatement : Kind := "ForStatement"
def enhancedForStatement : Kind := "EnhancedForStatement"
def whileStatement : Kind := "WhileStatement"
def expressionStatement : Kind := "ExpressionStatement"
def returnStatement : Kind := "ReturnStatement"
def methodInvocation : Kind := "MethodInvocation"
def lambdaExpression : Kind := "LambdaExpression"
def infixExpression : Kind := "InfixExpression"
def assignment : Kind := "Assignment"
def stringLiteral : Kind := "StringLiteral"
def numberLiteral : Kind := "NumberLiteral"
def assignmentOperator : Kind := "ASSIGNMENT_OPERATOR"
def infixExpressionOperator : Kind := "INFIX_EXPRESSION_OPERATOR"

/-- The kinds with a name of their own, declarations first and operators last. -/
def named : List Kind :=
  [compilationUnit, packageDeclaration, importDeclaration, typeDeclaration, enumDeclaration,
    enumConstantDeclaration, anonymousClassDeclaration, typeDeclarationKeyword, typeParameter,
    fieldDeclaration, variableDeclarationFragment, variableDeclarationStatement,
    singleVariableDeclaration, methodDeclaration, initializer, modifier, simpleName,
    qualifiedName, primitiveType, simpleType, parameterizedType, javadoc, markerAnnotation, block,
    tryStatement, catchClause, ifStatement, forStatement, enhancedForStatement, whileStatement,
    expressionStatement, returnStatement, methodInvocation, lambdaExpression, infixExpression,
    assignment, stringLiteral, numberLiteral, assignmentOperator, infixExpressionOperator]

/-- The kinds whose label is a keyword of the grammar rather than free text, so that it belongs to
the shape of a tree: `private` and `public` differ in shape, two identifiers do not. -/
def keywords : List Kind :=
  [modifier, primitiveType, typeDeclarationKeyword, assignmentOperator, infixExpressionOperator]

/-- Whether the labels of a kind belong to the shape of a tree. -/
def isKeyword (k : Kind) : Bool :=
  keywords.contains k

/-- The kinds that a location may denote by enclosing it: the location of a variable covers the
name of its declarator and not the whole declarator. -/
def enclosing : List Kind :=
  [variableDeclarationFragment]

/-- Whether a location may denote a node of this kind by lying inside it. -/
def isEnclosing (k : Kind) : Bool :=
  enclosing.contains k

/-- Whether a node of this kind groups statements: a block or a catch clause. -/
def isBlockLike (k : Kind) : Bool :=
  k == block || k == catchClause

/-- Whether a node of this kind is a statement, a block or a catch clause, and neither an
expression nor a part of a declaration. -/
def isStatement (k : Kind) : Bool :=
  k.isBlockLike || "Statement".toList.isSuffixOf k.toList

theorem isStatement_of_isBlockLike {k : Kind} (h : k.isBlockLike = true) :
    k.isStatement = true := by
  simp [isStatement, h]

end Kind

end Counterpart
