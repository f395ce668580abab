import CodeAtlas.Element.Basic
import CodeAtlas.Json.Decode
import CodeAtlas.Json.Reader
import CodeAtlas.Json.Writer

/-!
Elements as JSON. An absent collection is left out when written; fields come in a fixed order, and
so do the entries of ranges and properties.
-/
namespace CodeAtlas
open Json (Value enter?)

def Point.toJson (p : Point) : Value :=
  .record [("line", .nat p.line), ("column", .nat p.column)]

def Range.toJson (r : Range) : Value :=
  .record [("start", r.start.toJson), ("end", r.stop.toJson)]

def Ranges.toJson (r : Ranges) : Value :=
  .record (r.toList.map fun (n, v) => (n.tag, v.toJson))

def PropertyValue.toJson : PropertyValue → Value
  | .flag b => .bool b
  | .text s => .text s

def Properties.toJson (p : Properties) : Value :=
  .record (p.toList.map fun (n, v) => (n.tag, v.toJson))

namespace Element

def leadFields (e : Element) : List (String × Value) :=
  [("kind", .text e.kind.tag), ("name", .text e.name), ("displayName", .text e.displayName)]

def tailFields (e : Element) : List (String × Value) :=
  (e.ranges.map fun r => ("ranges", r.toJson)).toList ++
    (e.properties.map fun p => ("properties", p.toJson)).toList

mutual

def toJson : Element → Value
  | e@⟨_, _, _, some children, _, _⟩ =>
    .record (e.leadFields ++ ("children", .arr (toJsons children)) :: e.tailFields)
  | e@⟨_, _, _, none, _, _⟩ => .record (e.leadFields ++ e.tailFields)

def toJsons : List Element → List Value
  | [] => []
  | e :: rest => toJson e :: toJsons rest

end

def toText (e : Element) : String := e.toJson.toText

end Element

def Point.ofJson? (depth : Nat) (v : Value) : Option Point := do
  let _ ← enter? depth
  match ← v.fields? ["line", "column"] 2 with
  | [some line, some column] => pure ⟨← line.offset?, ← column.offset?⟩
  | _ => none

def Range.ofJson? (depth : Nat) (v : Value) : Option Range := do
  let depth ← enter? depth
  match ← v.fields? ["start", "end"] 2 with
  | [some start, some stop] => pure ⟨← Point.ofJson? depth start, ← Point.ofJson? depth stop⟩
  | _ => none

/-- Of several values under one name the last stays, but all of them must be readable. -/
def Ranges.ofJson? (depth : Nat) (v : Value) : Option Ranges := do
  let depth ← enter? depth
  let members ← v.members?
  let entries ← members.mapM fun (key, v) => do
    pure (← RangeName.ofTag? key, ← Range.ofJson? depth v)
  pure (entries.foldl (fun r (n, v) => r.set n v) {})

def PropertyValue.ofJson? : Value → Option PropertyValue
  | .bool b => some (.flag b)
  | v => v.text?.map .text

def Properties.ofJson? (depth : Nat) (v : Value) : Option Properties := do
  let _ ← enter? depth
  let members ← v.members?
  let entries ← members.mapM fun (key, v) => do
    pure (← PropertyName.ofTag? key, ← PropertyValue.ofJson? v)
  pure (entries.foldl (fun p (n, v) => p.set n v) {})

namespace Element

def fieldNames : List String := ["kind", "name", "displayName", "children", "ranges", "properties"]

/-- Reads an element at the given depth. The element and the array of its children are one level
each, so the children are read two levels deeper. -/
def ofJson? : Nat → Value → Option Element
  | depth + 2, v => do
    match ← v.fields? fieldNames 3 with
    | [some kind, some name, some displayName, children, ranges, properties] =>
      let kind ← (kind.tag? (depth + 1)).bind ElementKind.ofTag?
      let name ← name.text?
      let displayName ← displayName.text?
      let children ← Value.optional? (fun v =>
        match v with
        | .arr items => if depth = 0 then none else items.mapM (ofJson? depth)
        | _ => none) children
      let ranges ← Value.optional? (Ranges.ofJson? (depth + 1)) ranges
      let properties ← Value.optional? (Properties.ofJson? (depth + 1)) properties
      pure { kind, name, displayName, children, ranges, properties }
    | _ => none
  | _, _ => none

def ofText? (s : String) : Option Element := do
  ofJson? Json.nesting (← Json.read? s.toList)

end Element
end CodeAtlas
