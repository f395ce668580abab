import CodeAtlas.Json.Value
import CodeAtlas.Json.Quoted
import CodeAtlas.Json.Number

/-!
What the parts of a JSON tree mean to a reader who expects a certain shape. A reader may enter a
bounded number of arrays and objects inside each other; `depth` is one more than the number still
left, so a fresh reader of depth `nesting` gets through `nesting - 1` levels. What a reader skips
is not counted.
-/
namespace CodeAtlas.Json

def nesting : Nat := 128

def enter? (depth : Nat) : Option Nat := if depth ≤ 1 then none else some (depth - 1)

namespace Value

def text? : Value → Option String
  | .str w => (Quoted.unescape? w).map String.ofList
  | _ => none

def bool? : Value → Option Bool
  | .bool b => some b
  | _ => none

def offset? : Value → Option Nat
  | .num w => Number.offset? w
  | _ => none

/-- A tag is a text, or an object with the tag as its only key and nothing under it. -/
def tag? (depth : Nat) : Value → Option String
  | .str w => (Quoted.unescape? w).map String.ofList
  | .obj [(key, .null)] => do
    let _ ← enter? depth
    (Quoted.unescape? key).map String.ofList
  | _ => none

def members? : Value → Option (List (String × Value))
  | .obj members => members.mapM fun (key, v) =>
      (Quoted.unescape? key).map fun k => (String.ofList k, v)
  | _ => none

def unique? (members : List (String × Value)) (key : String) : Option (Option Value) :=
  match members.filter fun m => m.1 == key with
  | [] => some none
  | [m] => some (some m.2)
  | _ => none

/-- The values of the fields of a record, in the order of `names`. A record is an object, in
which a field may be left out and other keys are passed over, or an array of the fields in their
order, of which only those after the first `required` may be left out. -/
def fields? (names : List String) (required : Nat) (v : Value) : Option (List (Option Value)) :=
  match v with
  | .arr items =>
    if required ≤ items.length && items.length ≤ names.length then
      some (items.map some ++ List.replicate (names.length - items.length) none)
    else none
  | v => do
    let members ← v.members?
    names.mapM (unique? members)

def optional? {α : Type} (read : Value → Option α) : Option Value → Option (Option α)
  | none => some none
  | some .null => some none
  | some v => (read v).map some

end Value
end CodeAtlas.Json
