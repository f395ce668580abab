import CodeAtlas.Json.Value
import CodeAtlas.Json.Quoted
import CodeAtlas.Json.Number

/-!
Writing a JSON tree without any space between its parts.
-/
namespace CodeAtlas.Json.Value

def text (s : String) : Value := .str (Quoted.escape s.toList)

def nat (n : Nat) : Value := .num (Number.write n)

def record (members : List (String × Value)) : Value :=
  .obj (members.map fun (k, v) => (k.toList, v))

mutual

def render : Value → List Char
  | .null => "null".toList
  | .bool true => "true".toList
  | .bool false => "false".toList
  | .num w => w
  | .str w => '"' :: w ++ ['"']
  | .arr items => '[' :: renderItems items ++ [']']
  | .obj members => '{' :: renderMembers members ++ ['}']

def renderItems : List Value → List Char
  | [] => []
  | [v] => render v
  | v :: w :: rest => render v ++ ',' :: renderItems (w :: rest)

def renderMembers : List (List Char × Value) → List Char
  | [] => []
  | [(k, v)] => '"' :: k ++ '"' :: ':' :: render v
  | (k, v) :: m :: rest => '"' :: k ++ '"' :: ':' :: render v ++ ',' :: renderMembers (m :: rest)

end

def toText (v : Value) : String := String.ofList v.render

end CodeAtlas.Json.Value
