import CodeAtlas.Element.Kind
import CodeAtlas.Position.Point

/-!
Elements: what a declaration looks like from outside. Children, ranges and properties may each be
absent, which is not the same as being there and empty.
-/
namespace CodeAtlas

structure Ranges where
  attributes : Option Range := none
  full : Option Range := none
  name : Option Range := none
  deriving DecidableEq, Repr, Inhabited

namespace Ranges

def get? (r : Ranges) : RangeName → Option Range
  | .attributes => r.attributes
  | .full => r.full
  | .name => r.name

def set (r : Ranges) (n : RangeName) (v : Range) : Ranges :=
  match n with
  | .attributes => { r with attributes := some v }
  | .full => { r with full := some v }
  | .name => { r with name := some v }

def toList (r : Ranges) : List (RangeName × Range) :=
  (r.attributes.map (RangeName.attributes, ·)).toList ++
    (r.full.map (RangeName.full, ·)).toList ++ (r.name.map (RangeName.name, ·)).toList

def isEmpty (r : Ranges) : Bool := r.toList.isEmpty

@[simp]
theorem get?_set_self (r : Ranges) (n : RangeName) (v : Range) :
    (r.set n v).get? n = some v := by
  cases n <;> rfl

theorem get?_set_of_ne (r : Ranges) {m n : RangeName} (v : Range) (h : m ≠ n) :
    (r.set n v).get? m = r.get? m := by
  cases m <;> cases n <;> first | rfl | exact absurd rfl h

end Ranges

inductive PropertyValue where
  | flag (value : Bool)
  | text (value : String)
  deriving DecidableEq, Repr

structure Properties where
  accessibility : Option PropertyValue := none
  isStatic : Option PropertyValue := none
  deriving DecidableEq, Repr, Inhabited

namespace Properties

def get? (p : Properties) : PropertyName → Option PropertyValue
  | .accessibility => p.accessibility
  | .isStatic => p.isStatic

def set (p : Properties) (n : PropertyName) (v : PropertyValue) : Properties :=
  match n with
  | .accessibility => { p with accessibility := some v }
  | .isStatic => { p with isStatic := some v }

def toList (p : Properties) : List (PropertyName × PropertyValue) :=
  (p.accessibility.map (PropertyName.accessibility, ·)).toList ++
    (p.isStatic.map (PropertyName.isStatic, ·)).toList

@[simp]
theorem get?_set_self (p : Properties) (n : PropertyName) (v : PropertyValue) :
    (p.set n v).get? n = some v := by
  cases n <;> rfl

theorem get?_set_of_ne (p : Properties) {m n : PropertyName} (v : PropertyValue) (h : m ≠ n) :
    (p.set n v).get? m = p.get? m := by
  cases m <;> cases n <;> first | rfl | exact absurd rfl h

end Properties

structure Element where
  kind : ElementKind := .unknown
  name : String := ""
  displayName : String := ""
  children : Option (List Element) := none
  ranges : Option Ranges := none
  properties : Option Properties := none
  deriving Inhabited

namespace Element

def range? (e : Element) (n : RangeName) : Option Range := e.ranges.bind (·.get? n)

def property? (e : Element) (n : PropertyName) : Option PropertyValue :=
  e.properties.bind (·.get? n)

def label (e : Element) : String := e.kind.tag ++ " " ++ e.name

mutual

def total : Element → Nat
  | ⟨_, _, _, some children, _, _⟩ => 1 + totals children
  | ⟨_, _, _, none, _, _⟩ => 1

def totals : List Element → Nat
  | [] => 0
  | e :: rest => total e + totals rest

end

mutual

/-- An element and all below it, each with its depth, parents first. -/
def listing (depth : Nat) : Element → List (Nat × Element)
  | e@⟨_, _, _, some children, _, _⟩ => (depth, e) :: listings (depth + 1) children
  | e@⟨_, _, _, none, _, _⟩ => [(depth, e)]

def listings (depth : Nat) : List Element → List (Nat × Element)
  | [] => []
  | e :: rest => listing depth e ++ listings depth rest

end

end Element
end CodeAtlas
