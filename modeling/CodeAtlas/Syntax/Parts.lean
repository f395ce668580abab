import CodeAtlas.Syntax.Node

/-!
The parts of a declaration node: the token that names it, its attributes, and its lists. A part is
looked for by its role first and by its kind if no child has the role. A name that the parser had
to invent does not count, and no other is taken in its place.
-/
namespace CodeAtlas.Syntax.Node

def withRole? (n : Node) (role : Role) : Option Node :=
  n.children.find? fun c => c.label.role == some role

def ofKind? (n : Node) (kind : NodeKind) : Option Node :=
  n.children.find? fun c => c.kind == kind

def hasKind (n : Node) (kind : NodeKind) : Bool := (n.ofKind? kind).isSome

def namedChildren (n : Node) : List Node := n.children.filter (·.isNamed)

def isUsableName (n : Node) : Bool := !n.label.isMissing && !n.label.isError

def name? (n : Node) : Option Node :=
  ((n.withRole? .name).or (n.ofKind? .identifier)).filter isUsableName

/-- The child after the word `operator`, passing over `checked`. -/
def afterOperator? (n : Node) : Option Node :=
  ((n.children.dropWhile fun c => c.kind != .token .operator).drop 1).find? fun c =>
    c.kind != .token .checked

def operatorToken? (n : Node) : Option Node :=
  ((n.withRole? .operator).or n.afterOperator?).filter fun t => !t.isMissing

def conversionTarget? (n : Node) : Option Node :=
  ((n.withRole? .type).or n.afterOperator?).filter fun t => !t.isMissing

def thisKeyword? (n : Node) : Option Node :=
  (n.ofKind? (.token .this)).filter fun t => !t.isMissing

/-- The least span around all attribute lists of a declaration. -/
def attributes? (n : Node) : Option Span :=
  Span.coverAll? ((n.children.filter fun c => c.kind == .attributeList).map span)

def typeParameterList? (n : Node) : Option Node :=
  (n.withRole? .typeParameters).or (n.ofKind? .typeParameterList)

def parameterList? (n : Node) : Option Node :=
  (n.withRole? .parameters).or (n.ofKind? .parameterList)

def methodName? (n : Node) : MethodForm → Option Node
  | .operator => n.operatorToken?
  | .conversion => n.conversionTarget?
  | _ => n.name?

def propertyName? (n : Node) : PropertyForm → Option Node
  | .indexer => n.thisKeyword?
  | _ => n.name?

end CodeAtlas.Syntax.Node
