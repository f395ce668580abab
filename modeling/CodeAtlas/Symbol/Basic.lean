import CodeAtlas.Element.Kind
import CodeAtlas.Naming.Format

/-!
Symbols and the texts by which they are shown. A symbol knows the names of its containers, the
outermost first, its own name, and its parameters if it takes any.
-/
namespace CodeAtlas

inductive Variance where
  | «in» | out
  deriving DecidableEq, Repr

def Variance.word : Variance → List Char
  | .in => "in".toList
  | .out => "out".toList

structure TypeParameter where
  variance : Option Variance
  name : List Char
  deriving DecidableEq, Repr

structure NamePart where
  name : List Char
  typeParameters : List TypeParameter
  deriving DecidableEq, Repr

def NamePart.plain (name : List Char) : NamePart := ⟨name, []⟩

structure Parameter where
  modifiers : List (List Char) := []
  type : Option (List Char) := none
  name : Option (List Char) := none
  defaultValue : Option (List Char) := none
  deriving DecidableEq, Repr

inductive Direction where
  | implicit | explicit
  deriving DecidableEq, Repr

def Direction.word : Direction → List Char
  | .implicit => "implicit".toList
  | .explicit => "explicit".toList

inductive SymbolName where
  | named (part : NamePart)
  | constructor (type : List Char)
  | destructor (type : List Char)
  | operator (token : List Char)
  | conversion (direction : Direction) (target : List Char)
  | indexer
  deriving DecidableEq, Repr

structure Symbol where
  category : Category
  accessibility : Accessibility
  isStatic : Bool
  containers : List NamePart
  name : SymbolName
  parameters : Option (List Parameter)
  deriving DecidableEq, Repr

def commaSeparated (texts : List (List Char)) : List Char := [',', ' '].intercalate texts

def spaceSeparated (texts : List (List Char)) : List Char := [' '].intercalate texts

def TypeParameter.render (variance : Bool) (p : TypeParameter) : List Char :=
  match variance, p.variance with
  | true, some v => v.word ++ ' ' :: p.name
  | _, _ => p.name

def NamePart.render (format : DisplayFormat) (part : NamePart) : List Char :=
  if format.typeParameters && !part.typeParameters.isEmpty then
    part.name ++
      '<' :: commaSeparated (part.typeParameters.map (·.render format.variance)) ++ ['>']
  else part.name

def Parameter.render (style : ParameterStyle) (p : Parameter) : List Char :=
  let modifiers := if style.modifiers then p.modifiers else []
  let type := if style.types then p.type.toList else []
  let name := if style.names then p.name.toList else []
  let value := if style.defaultValues then p.defaultValue else none
  spaceSeparated (modifiers ++ type ++ name) ++
    match value with
    | some v => " = ".toList ++ v
    | none => []

namespace Symbol

def renderParameters? (format : DisplayFormat) (s : Symbol) : Option (List Char) :=
  match format.parameters, s.parameters with
  | some style, some parameters => some (commaSeparated (parameters.map (·.render style)))
  | _, _ => none

def renderName (format : DisplayFormat) : SymbolName → List Char
  | .named part => part.render format
  | .constructor type => type
  | .destructor type => '~' :: type
  | .operator token => "operator ".toList ++ token
  | .conversion direction target => direction.word ++ " operator ".toList ++ target
  | .indexer => "this".toList

/-- The symbol without its containers. An indexer has its brackets also without parameters. -/
def renderOwn (format : DisplayFormat) (s : Symbol) : List Char :=
  renderName format s.name ++
    match s.name, s.renderParameters? format with
    | .indexer, parameters => '[' :: parameters.getD [] ++ [']']
    | _, some parameters => '(' :: parameters ++ [')']
    | _, none => []

def renderContainers (format : DisplayFormat) (containers : List NamePart) : List Char :=
  match format.qualification with
  | .nameOnly => []
  | .nameAndContainers => containers.flatMap fun part => part.render format ++ ['.']

def render (format : DisplayFormat) (s : Symbol) : List Char :=
  renderContainers format s.containers ++ s.renderOwn format

end Symbol
end CodeAtlas
