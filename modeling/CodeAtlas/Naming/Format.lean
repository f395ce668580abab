/-!
How symbols are named. A display format says which parts of a symbol are shown; a naming gives the
four formats used for the short and full names of types and of members.
-/
namespace CodeAtlas

inductive Qualification where
  | nameOnly | nameAndContainers
  deriving DecidableEq, Repr

namespace Qualification

def tag : Qualification → String
  | nameOnly => "name_only"
  | nameAndContainers => "name_and_containers"

def ofTag? (s : String) : Option Qualification :=
  [nameOnly, nameAndContainers].find? fun q => q.tag == s

theorem ofTag?_tag (q : Qualification) : ofTag? q.tag = some q := by cases q <;> rfl

end Qualification

structure ParameterStyle where
  modifiers : Bool
  types : Bool
  names : Bool
  defaultValues : Bool
  deriving DecidableEq, Repr

structure DisplayFormat where
  qualification : Qualification
  typeParameters : Bool
  variance : Bool
  parameters : Option ParameterStyle
  deriving DecidableEq, Repr

namespace DisplayFormat

def short : DisplayFormat := ⟨.nameOnly, true, false, none⟩

def fullType : DisplayFormat := ⟨.nameAndContainers, true, true, none⟩

def fullMember : DisplayFormat := ⟨.nameOnly, true, true, some ⟨true, true, true, true⟩⟩

end DisplayFormat

structure Naming where
  shortType : DisplayFormat
  fullType : DisplayFormat
  shortMember : DisplayFormat
  fullMember : DisplayFormat
  deriving DecidableEq, Repr

namespace Naming

def standard : Naming := ⟨.short, .fullType, .short, .fullMember⟩

def namesOnly : Naming := ⟨.short, .short, .short, .short⟩

instance : Inhabited Naming := ⟨standard⟩

end Naming
end CodeAtlas
