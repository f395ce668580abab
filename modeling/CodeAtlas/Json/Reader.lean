import CodeAtlas.Json.Value
import CodeAtlas.Json.Quoted
import CodeAtlas.Json.Number
import CodeAtlas.Text.Split

/-!
Reading a JSON text as a tree. Only the grammar is checked here: any nesting is accepted, and an
escape that means no character is left for those who want the text.
-/
namespace CodeAtlas.Json
open Text

def isSpace (c : Char) : Bool := c == ' ' || c == '\t' || c == '\n' || c == '\r'

def skipSpace (s : List Char) : List Char := s.dropWhile isSpace

def plain? (s : List Char) : Option (Value × List Char) :=
  match after? "null".toList s, after? "true".toList s, after? "false".toList s with
  | some rest, _, _ => some (.null, rest)
  | _, some rest, _ => some (.bool true, rest)
  | _, _, some rest => some (.bool false, rest)
  | none, none, none => (Number.read? s).map fun (w, rest) => (.num w, rest)

mutual

/-- Reads one value. Every value and every opening bracket takes up a character, so twice the
length of the text is fuel enough. -/
def value? : Nat → List Char → Option (Value × List Char)
  | 0, _ => none
  | fuel + 1, s =>
    match skipSpace s with
    | '"' :: rest => (Quoted.body? rest).map fun (w, r) => (.str w, r)
    | '[' :: rest =>
      match skipSpace rest with
      | ']' :: rest => some (.arr [], rest)
      | rest => (items? fuel rest).map fun (vs, r) => (.arr vs, r)
    | '{' :: rest =>
      match skipSpace rest with
      | '}' :: rest => some (.obj [], rest)
      | rest => (members? fuel rest).map fun (ms, r) => (.obj ms, r)
    | s => plain? s

def items? : Nat → List Char → Option (List Value × List Char)
  | 0, _ => none
  | fuel + 1, s => do
    let (v, rest) ← value? fuel s
    match skipSpace rest with
    | ',' :: rest => (items? fuel rest).map fun (vs, r) => (v :: vs, r)
    | ']' :: rest => some ([v], rest)
    | _ => none

def members? : Nat → List Char → Option (List (List Char × Value) × List Char)
  | 0, _ => none
  | fuel + 1, s =>
    match skipSpace s with
    | '"' :: rest => do
      let (key, rest) ← Quoted.body? rest
      match skipSpace rest with
      | ':' :: rest =>
        let (v, rest) ← value? fuel rest
        match skipSpace rest with
        | ',' :: rest => (members? fuel rest).map fun (ms, r) => ((key, v) :: ms, r)
        | '}' :: rest => some ([(key, v)], rest)
        | _ => none
      | _ => none
    | _ => none

end

def read? (s : List Char) : Option Value := do
  let (v, rest) ← value? (2 * s.length + 2) s
  if (skipSpace rest).isEmpty then some v else none

end CodeAtlas.Json
