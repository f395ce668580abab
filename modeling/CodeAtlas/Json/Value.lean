/-!
JSON documents as trees. Texts and numbers are kept as they are written, and an object keeps its
members in order with repeated keys, so that what a member means is decided where it is used.
-/
namespace CodeAtlas.Json

inductive Value where
  | null
  | bool (value : Bool)
  | num (written : List Char)
  | str (written : List Char)
  | arr (items : List Value)
  | obj (members : List (List Char × Value))
  deriving Inhabited

end CodeAtlas.Json
