import CodeAtlas.Element.Basic

/-!
Building an element step by step from the empty one. Later settings of the kind and of the names
replace earlier ones; a range or property can be added once under each name.
-/
namespace CodeAtlas

inductive Duplicate where
  | range (key : RangeName)
  | property (key : PropertyName)
  deriving DecidableEq, Repr

def Duplicate.message : Duplicate → String
  | .range n => "range `" ++ n.tag ++ "` added twice"
  | .property n => "property `" ++ n.tag ++ "` added twice"

inductive BuildStep where
  | kind (value : ElementKind)
  | name (value : String)
  | displayName (value : String)
  | child (value : Element)
  | range (key : RangeName) (value : Range)
  | property (key : PropertyName) (value : PropertyValue)

namespace Element

def empty : Element := {}

def addChild (e : Element) (child : Element) : Element :=
  { e with children := some (e.children.getD [] ++ [child]) }

def addRange (e : Element) (n : RangeName) (r : Range) : Except Duplicate Element :=
  if (e.range? n).isSome then .error (.range n)
  else .ok { e with ranges := some ((e.ranges.getD {}).set n r) }

def addProperty (e : Element) (n : PropertyName) (v : PropertyValue) : Except Duplicate Element :=
  if (e.property? n).isSome then .error (.property n)
  else .ok { e with properties := some ((e.properties.getD {}).set n v) }

def apply (e : Element) : BuildStep → Except Duplicate Element
  | .kind k => .ok { e with kind := k }
  | .name s => .ok { e with name := s }
  | .displayName s => .ok { e with displayName := s }
  | .child c => .ok (e.addChild c)
  | .range n r => e.addRange n r
  | .property n v => e.addProperty n v

/-- The element after all steps, or the first duplicate. -/
def build (e : Element) : List BuildStep → Except Duplicate Element
  | [] => .ok e
  | s :: rest => (e.apply s).bind fun e => build e rest

end Element
end CodeAtlas
