/-!
The vocabulary of elements: the kinds an element can have, the categories of symbols they come
from, accessibility, and the names of ranges and properties. Each has a tag by which it is
written.
-/
namespace CodeAtlas

inductive ElementKind where
  | «class» | delegate | enum | interface | struct
  | constant | constructor | destructor | enumMember | event | field | indexer | method
  | operator | property
  | «namespace» | unknown
  deriving DecidableEq, Repr, Inhabited

namespace ElementKind

def tag : ElementKind → String
  | «class» => "class"
  | delegate => "delegate"
  | enum => "enum"
  | interface => "interface"
  | struct => "struct"
  | constant => "constant"
  | constructor => "constructor"
  | destructor => "destructor"
  | enumMember => "enummember"
  | event => "event"
  | field => "field"
  | indexer => "indexer"
  | method => "method"
  | operator => "operator"
  | property => "property"
  | «namespace» => "namespace"
  | unknown => "unknown"

def all : List ElementKind :=
  [«class», delegate, enum, interface, struct, constant, constructor, destructor, enumMember,
    event, field, indexer, method, operator, property, «namespace», unknown]

def ofTag? (s : String) : Option ElementKind := all.find? fun k => k.tag == s

theorem mem_all (k : ElementKind) : k ∈ all := by cases k <;> decide

theorem ofTag?_tag (k : ElementKind) : ofTag? k.tag = some k := by cases k <;> rfl

end ElementKind

inductive TypeKind where
  | «class» | interface | struct | enum | delegate
  deriving DecidableEq, Repr

inductive MethodKind where
  | ordinary | constructor | staticConstructor | destructor | operator | conversion
  deriving DecidableEq, Repr

inductive FieldKind where
  | field | constant | enumMember
  deriving DecidableEq, Repr

inductive Category where
  | «namespace»
  | type (kind : TypeKind)
  | method (kind : MethodKind)
  | field (kind : FieldKind)
  | property
  | indexer
  | event
  | other
  deriving DecidableEq, Repr

namespace Category

def elementKind : Category → ElementKind
  | .namespace => .namespace
  | .type .class => .class
  | .type .interface => .interface
  | .type .struct => .struct
  | .type .enum => .enum
  | .type .delegate => .delegate
  | .method .ordinary => .method
  | .method .constructor => .constructor
  | .method .staticConstructor => .constructor
  | .method .destructor => .destructor
  | .method .operator => .operator
  | .method .conversion => .operator
  | .field .field => .field
  | .field .constant => .constant
  | .field .enumMember => .enumMember
  | .property => .property
  | .indexer => .indexer
  | .event => .event
  | .other => .unknown

end Category

inductive Accessibility where
  | «public» | internal | «private» | «protected»
  | protectedOrInternal | protectedAndInternal
  | notApplicable
  deriving DecidableEq, Repr

def Accessibility.tag? : Accessibility → Option String
  | .public => some "public"
  | .internal => some "internal"
  | .private => some "private"
  | .protected => some "protected"
  | .protectedOrInternal => some "protected internal"
  | .protectedAndInternal => some "private protected"
  | .notApplicable => none

inductive RangeName where
  | attributes | full | name
  deriving DecidableEq, Repr

namespace RangeName

def tag : RangeName → String
  | attributes => "attributes"
  | full => "full"
  | name => "name"

def ofTag? (s : String) : Option RangeName :=
  [attributes, full, name].find? fun n => n.tag == s

theorem ofTag?_tag (n : RangeName) : ofTag? n.tag = some n := by cases n <;> rfl

end RangeName

inductive PropertyName where
  | accessibility | isStatic
  deriving DecidableEq, Repr

namespace PropertyName

def tag : PropertyName → String
  | accessibility => "accessibility"
  | isStatic => "static"

def ofTag? (s : String) : Option PropertyName :=
  [accessibility, isStatic].find? fun n => n.tag == s

theorem ofTag?_tag (n : PropertyName) : ofTag? n.tag = some n := by cases n <;> rfl

end PropertyName
end CodeAtlas
