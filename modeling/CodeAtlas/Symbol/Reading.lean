import CodeAtlas.Position.SourceText
import CodeAtlas.Symbol.Basic
import CodeAtlas.Syntax.Parts
import CodeAtlas.Text.Blank
import CodeAtlas.Text.Split

/-!
What the nodes of a declaration say in the text: names, modifiers, type parameters and parameters.
Types and default values are read with their blanks collapsed, names as they stand.
-/
namespace CodeAtlas.Syntax.Node
open Text

def text (source : SourceText) (n : Node) : List Char := source.slice n.span

/-- The text of a node with every run of blanks as one space. -/
def phrase (source : SourceText) (n : Node) : List Char := collapse (n.text source)

def modifiers (source : SourceText) (n : Node) : List (List Char) :=
  (n.children.filter fun c => c.kind == .modifier).map fun c => trim (c.text source)

def variance? (n : Node) : Option Variance :=
  n.children.findSome? fun c =>
    match c.kind with
    | .token .in => some .in
    | .token .out => some .out
    | _ => none

/-- A type parameter without a name is left out. -/
def typeParameter? (source : SourceText) (n : Node) : Option TypeParameter :=
  n.name?.map fun name => ⟨n.variance?, name.text source⟩

def typeParameters (source : SourceText) (n : Node) : List TypeParameter :=
  match n.typeParameterList? with
  | none => []
  | some list =>
    (list.namedChildren.filter fun c => c.kind == .typeParameter).filterMap
      (typeParameter? source)

def segments (source : SourceText) (name : Node) : List (List Char) :=
  (pieces '.' (name.text source)).map trim

/-- What has been read of a parameter, and what has been passed on the way. -/
structure ParameterState where
  parameter : Parameter := {}
  afterEquals : Bool := false
  nameSeen : Bool := false
  typeSeen : Bool := false

def isParameterModifier : NodeKind → Bool
  | .modifier => true
  | .token .this => true
  | .token .ref => true
  | .token .out => true
  | .token .in => true
  | .token .params => true
  | .token .scoped => true
  | .token .readonly => true
  | _ => false

def readPlain (source : SourceText) (hasName hasType : Bool) (s : ParameterState) (child : Node) :
    ParameterState :=
  let p := s.parameter
  if child.kind == .attributeList then s
  else if child.kind == .token .equals then { s with afterEquals := true }
  else if child.kind == .defaultClause then
    { s with parameter :=
      { p with defaultValue := child.namedChildren.head?.map (phrase source) } }
  else if isParameterModifier child.kind && !s.afterEquals then
    { s with parameter := { p with modifiers := p.modifiers ++ [trim (child.text source)] } }
  else if s.afterEquals && child.isNamed then
    { s with parameter := { p with defaultValue := some (child.phrase source) } }
  else if child.kind == .identifier && !hasName && p.type.isSome then
    { s with parameter := { p with name := some (child.text source) } }
  else if child.isNamed && !hasType && p.type.isNone then
    { s with parameter := { p with type := some (child.phrase source) } }
  else s

/-- Reads the next child. Only the first child with a role has it for the parameter. -/
def readPart (source : SourceText) (hasName hasType : Bool) (s : ParameterState) (child : Node) :
    ParameterState :=
  if child.label.role == some .name && !s.nameSeen then
    { s with
      nameSeen := true
      parameter := { s.parameter with name := some (child.text source) } }
  else if child.label.role == some .type && !s.typeSeen then
    { s with
      typeSeen := true
      parameter := { s.parameter with type := some (child.phrase source) } }
  else readPlain source hasName hasType s child

def parameter (source : SourceText) (n : Node) : Parameter :=
  let hasName := (n.withRole? .name).isSome
  let hasType := (n.withRole? .type).isSome
  (n.children.foldl (readPart source hasName hasType) {}).parameter

/-- Where the reading of a parameter list is: between parameters, or after `params`, which takes
the next two nodes that are no punctuation as its type and its name. -/
inductive ListState where
  | between
  | paramsType
  | paramsName (type : List Char)

def paramsWord : List Char := "params".toList

def readList (source : SourceText) : ListState → List Node → List Parameter
  | .between, [] => []
  | .paramsType, [] => [{ modifiers := [paramsWord] }]
  | .paramsName type, [] => [{ modifiers := [paramsWord], type := some type }]
  | .between, c :: rest =>
    match c.kind with
    | .parameter => c.parameter source :: readList source .between rest
    | .token .params => readList source .paramsType rest
    | _ => readList source .between rest
  | .paramsType, c :: rest =>
    if c.isNamed then readList source (.paramsName (c.phrase source)) rest
    else readList source .paramsType rest
  | .paramsName type, c :: rest =>
    if c.isNamed then
      { modifiers := [paramsWord], type := some type, name := some (c.text source) } ::
        readList source .between rest
    else readList source (.paramsName type) rest

def parameters (source : SourceText) (n : Node) : List Parameter :=
  match n.parameterList? with
  | none => []
  | some list => readList source .between list.children

end CodeAtlas.Syntax.Node
