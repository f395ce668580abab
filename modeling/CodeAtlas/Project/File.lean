import CodeAtlas.Markup.Attribute

/-!
Project files. A file says whether its project takes the sources of its directory by default, and
which documents it lists. Default items are taken by a `Project` element at the top that names its
SDK, and can be switched off by an element of their own.
-/
namespace CodeAtlas
open Markup

structure ProjectFile where
  /-- The last `Project` element at the top has an attribute `Sdk`. -/
  isSdk : Bool := false
  defaultsOff : Bool := false
  includes : List (List Char) := []
  deriving DecidableEq, Repr

namespace ProjectFile

/-- What has been read so far: the file, the names of the open elements with the innermost first,
and whether a text now stands at the start of a switch. -/
structure State where
  file : ProjectFile := {}
  openNames : List (List Char) := []
  inSwitch : Bool := false
  deriving DecidableEq, Repr

def isSwitch (t : Tag) : Bool :=
  t.isNamed "EnableDefaultCompileItems" || t.isNamed "EnableDefaultItems"

def visit (file : ProjectFile) (atTop : Bool) (t : Tag) : Except Markup.Error ProjectFile := do
  if atTop && t.isNamed "Project" then
    let sdk ← t.attribute "Sdk"
    pure { file with isSdk := sdk.isSome }
  else if t.isNamed "Compile" then
    let item ← t.attribute "Include"
    pure { file with includes := file.includes ++ item.toList }
  else pure file

def saysFalse (text : List Char) : Bool := Text.sameName (Text.trim text) "false".toList

def step (s : State) : Token → Except Markup.Error State
  | .text content => do
    if s.inSwitch then
      let text ← unescape content
      pure { s with file.defaultsOff := s.file.defaultsOff || saysFalse text }
    else pure s
  | .start t => do
    let file ← visit s.file s.openNames.isEmpty t
    pure ⟨file, t.name :: s.openNames, isSwitch t⟩
  | .empty t => do
    let file ← visit s.file s.openNames.isEmpty t
    pure ⟨file, s.openNames, false⟩
  | .stop name =>
    match s.openNames with
    | [] => .error .mismatchedEnd
    | top :: rest => if name = top then .ok ⟨s.file, rest, false⟩ else .error .mismatchedEnd

def run (s : State) : List Token → Except Markup.Error State
  | [] => .ok s
  | t :: rest => (step s t).bind fun s => run s rest

/-- Reads a project file. Elements may be left open at its end. -/
def parse (text : List Char) : Except Markup.Error ProjectFile := do
  let tokens ← Markup.ofFile text
  let s ← run {} tokens
  pure s.file

end ProjectFile
end CodeAtlas
