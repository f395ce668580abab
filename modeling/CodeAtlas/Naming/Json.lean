import CodeAtlas.Naming.Format
import CodeAtlas.Json.Decode
import CodeAtlas.Json.Reader
import CodeAtlas.Json.Writer

/-!
Namings as JSON. Absent parameters are written as null, and may be left out of an object that is
read.
-/
namespace CodeAtlas
open Json (Value enter?)

def ParameterStyle.toJson (p : ParameterStyle) : Value :=
  .record [("modifiers", .bool p.modifiers), ("types", .bool p.types), ("names", .bool p.names),
    ("default_values", .bool p.defaultValues)]

def DisplayFormat.toJson (f : DisplayFormat) : Value :=
  .record [("qualification", .text f.qualification.tag),
    ("type_parameters", .bool f.typeParameters), ("variance", .bool f.variance),
    ("parameters", (f.parameters.map ParameterStyle.toJson).getD .null)]

def Naming.toJson (n : Naming) : Value :=
  .record [("short_type_format", n.shortType.toJson), ("type_format", n.fullType.toJson),
    ("short_member_format", n.shortMember.toJson), ("member_format", n.fullMember.toJson)]

def Naming.toText (n : Naming) : String := n.toJson.toText

def ParameterStyle.ofJson? (depth : Nat) (v : Value) : Option ParameterStyle := do
  let _ ← enter? depth
  match ← v.fields? ["modifiers", "types", "names", "default_values"] 4 with
  | [some modifiers, some types, some names, some defaultValues] =>
    pure ⟨← modifiers.bool?, ← types.bool?, ← names.bool?, ← defaultValues.bool?⟩
  | _ => none

def DisplayFormat.ofJson? (depth : Nat) (v : Value) : Option DisplayFormat := do
  let depth ← enter? depth
  match ← v.fields? ["qualification", "type_parameters", "variance", "parameters"] 4 with
  | [some qualification, some typeParameters, some variance, parameters] =>
    let qualification ← (qualification.tag? depth).bind Qualification.ofTag?
    let parameters ← Value.optional? (ParameterStyle.ofJson? depth) parameters
    pure ⟨qualification, ← typeParameters.bool?, ← variance.bool?, parameters⟩
  | _ => none

def Naming.ofJson? (depth : Nat) (v : Value) : Option Naming := do
  let depth ← enter? depth
  match ← v.fields? ["short_type_format", "type_format", "short_member_format", "member_format"] 4
  with
  | [some shortType, some fullType, some shortMember, some fullMember] =>
    pure ⟨← DisplayFormat.ofJson? depth shortType, ← DisplayFormat.ofJson? depth fullType,
      ← DisplayFormat.ofJson? depth shortMember, ← DisplayFormat.ofJson? depth fullMember⟩
  | _ => none

def Naming.ofText? (s : String) : Option Naming := do
  Naming.ofJson? Json.nesting (← Json.read? s.toList)

end CodeAtlas
