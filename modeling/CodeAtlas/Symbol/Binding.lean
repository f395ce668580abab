import CodeAtlas.Symbol.Reading
import CodeAtlas.Syntax.Cursor

/-!
Binding declarations to symbols. There is no compilation: the symbol of a node follows from its
own text, its modifiers and what stands around it, and a declaration without a usable name has
none.
-/
namespace CodeAtlas.Syntax
open Node

/-- The segments that a container puts in front of the names inside it. -/
def Node.scope (source : SourceText) (n : Node) : List NamePart :=
  match n.kind, n.name? with
  | .type _, some name => [⟨name.text source, n.typeParameters source⟩]
  | .namespace _, some name => (name.segments source).map NamePart.plain
  | _, _ => []

def accessibilityOf? (modifiers : List (List Char)) : Option Accessibility :=
  let has (word : String) : Bool := modifiers.contains word.toList
  if has "public" then some .public
  else if has "protected" && has "internal" then some .protectedOrInternal
  else if has "private" && has "protected" then some .protectedAndInternal
  else if has "protected" then some .protected
  else if has "internal" then some .internal
  else if has "private" then some .private
  else none

namespace Cursor

/-- The file-scoped namespace before the top of a cursor's branch, if there is one. -/
def fileNamespace? (c : Cursor) : Option Node :=
  if c.topmost.node.kind == .namespace .fileScoped then none
  else c.topmost.before.find? fun n => n.isNamed && n.kind == .namespace .fileScoped

def containers (source : SourceText) (c : Cursor) : List NamePart :=
  ((c.fileNamespace?.map (Node.scope source)).getD []) ++
    c.above.reverse.flatMap fun p => p.node.scope source

/-- The nearest type around a declaration, with no namespace in between. -/
def enclosingType? (above : List Place) : Option TypeForm :=
  match above with
  | [] => none
  | p :: rest =>
    match p.node.kind with
    | .type form => some form
    | .namespace _ => none
    | _ => enclosingType? rest

def defaultTypeAccessibility (c : Cursor) : Accessibility :=
  match enclosingType? c.above with
  | some .interface => .public
  | some _ => .private
  | none => .internal

def defaultMemberAccessibility (c : Cursor) : Accessibility :=
  match enclosingType? c.above with
  | some .interface => .public
  | some .enum => .public
  | _ => .private

def isStatic (source : SourceText) (c : Cursor) : Bool :=
  (c.node.modifiers source).contains "static".toList

/-- An explicit implementation is private whatever its modifiers say. -/
def memberAccessibility (source : SourceText) (c : Cursor) : Accessibility :=
  if c.node.hasKind .explicitInterface then .private
  else (accessibilityOf? (c.node.modifiers source)).getD c.defaultMemberAccessibility

def member (source : SourceText) (c : Cursor) (category : Category) (name : SymbolName)
    (parameters : Option (List Parameter)) : Symbol :=
  { category
    accessibility := c.memberAccessibility source
    isStatic := c.isStatic source
    containers := c.containers source
    name
    parameters }

def typeKind (c : Cursor) : TypeForm → TypeKind
  | .class => .class
  | .struct => .struct
  | .interface => .interface
  | .enum => .enum
  | .recordStruct => .struct
  | .record => if c.node.hasKind (.token .struct) then .struct else .class

def bindType? (source : SourceText) (c : Cursor) (kind : TypeKind) : Option Symbol :=
  c.node.name?.map fun name =>
    { category := .type kind
      accessibility :=
        (accessibilityOf? (c.node.modifiers source)).getD c.defaultTypeAccessibility
      isStatic := c.isStatic source
      containers := c.containers source
      name := .named ⟨name.text source, c.node.typeParameters source⟩
      parameters := none }

/-- The last segment of a dotted name is declared inside the others. -/
def bindNamespace? (source : SourceText) (c : Cursor) : Option Symbol :=
  c.node.name?.map fun name =>
    let segments := name.segments source
    { category := .namespace
      accessibility := .notApplicable
      isStatic := false
      containers := c.containers source ++ segments.dropLast.map NamePart.plain
      name := .named (.plain (segments.getLast?.getD []))
      parameters := none }

def direction (c : Cursor) : Direction :=
  (c.node.children.findSome? fun d =>
    match d.kind with
    | .token .implicit => some .implicit
    | .token .explicit => some .explicit
    | _ => none).getD .implicit

def bindMethod? (source : SourceText) (c : Cursor) (form : MethodForm) : Option Symbol :=
  (c.node.methodName? form).map fun name =>
    let parameters := some (c.node.parameters source)
    match form with
    | .method =>
      c.member source (.method .ordinary)
        (.named ⟨name.text source, c.node.typeParameters source⟩) parameters
    | .constructor =>
      let member kind := c.member source (.method kind) (.constructor (name.text source)) parameters
      if c.isStatic source then { member .staticConstructor with accessibility := .private }
      else member .constructor
    | .destructor =>
      { c.member source (.method .destructor) (.destructor (name.text source)) parameters with
        accessibility := .protected }
    | .operator =>
      { c.member source (.method .operator) (.operator (name.text source)) parameters with
        isStatic := true }
    | .conversion =>
      { c.member source (.method .conversion) (.conversion c.direction (name.phrase source))
          parameters with
        isStatic := true }

def bindProperty? (source : SourceText) (c : Cursor) (form : PropertyForm) : Option Symbol :=
  (c.node.propertyName? form).map fun name =>
    match form with
    | .property => c.member source .property (.named (.plain (name.text source))) none
    | .event => c.member source .event (.named (.plain (name.text source))) none
    | .indexer => c.member source .indexer .indexer (some (c.node.parameters source))

def bindEnumMember? (source : SourceText) (c : Cursor) : Option Symbol :=
  c.node.name?.map fun name =>
    { c.member source (.field .enumMember) (.named (.plain (name.text source))) none with
      accessibility := .public
      isStatic := true }

def statement? (c : Cursor) : Option (Cursor × FieldForm) := do
  let declaration ← c.parent?
  if declaration.kind == .variableDeclaration then
    let statement ← declaration.parent?
    match statement.kind with
    | .field form => some (statement, form)
    | _ => none
  else none

/-- A variable takes everything but its name from its statement. -/
def bindVariable? (source : SourceText) (c : Cursor) : Option Symbol := do
  let name ← c.node.name?
  let (statement, form) ← c.statement?
  let modifiers := statement.node.modifiers source
  let isConst := modifiers.contains "const".toList
  pure
    { category :=
        match form with
        | .event => .event
        | .field => if isConst then .field .constant else .field .field
      accessibility := (accessibilityOf? modifiers).getD statement.defaultMemberAccessibility
      isStatic := isConst || statement.isStatic source
      containers := statement.containers source
      name := .named (.plain (name.text source))
      parameters := none }

def bind? (source : SourceText) (c : Cursor) : Option Symbol :=
  match c.kind with
  | .namespace _ => c.bindNamespace? source
  | .type form => c.bindType? source (c.typeKind form)
  | .delegate => c.bindType? source .delegate
  | .method form => c.bindMethod? source form
  | .property form => c.bindProperty? source form
  | .enumMember => c.bindEnumMember? source
  | .variableDeclarator => c.bindVariable? source
  | _ => none

end Cursor
end CodeAtlas.Syntax
