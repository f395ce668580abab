import CodeAtlas.Proofs.Listing
import CodeAtlas.Proofs.Members
import CodeAtlas.Proofs.Names

/-!
A naming decides about names and about nothing else. Two outlines of one tree under two namings are
the same once their names are taken away; names that both namings show in the same formats stay the
same. Every name in an outline is the display of a symbol in one of four formats, two of which
coincide with the other two where full names are the short ones.
-/
namespace CodeAtlas

namespace Element

mutual

/-- An element whose names, and those of all below it, are passed through two functions. -/
def rename (short full : String → String) : Element → Element
  | ⟨kind, name, displayName, some children, ranges, properties⟩ =>
    ⟨kind, short name, full displayName, some (renameAll short full children), ranges, properties⟩
  | ⟨kind, name, displayName, none, ranges, properties⟩ =>
    ⟨kind, short name, full displayName, none, ranges, properties⟩

def renameAll (short full : String → String) : List Element → List Element
  | [] => []
  | e :: rest => rename short full e :: renameAll short full rest

end

def unnamed (_ : String) : String := ""

variable {short full : String → String}

theorem isEmpty_renameAll (es : List Element) : (renameAll short full es).isEmpty = es.isEmpty := by
  cases es <;> rfl

theorem rename_mk (kind : ElementKind) (name displayName : String) (children : List Element)
    (ranges : Option Ranges) (properties : Option Properties) :
    rename short full ⟨kind, name, displayName, if children.isEmpty then none else some children,
        ranges, properties⟩ =
      ⟨kind, short name, full displayName,
        if (renameAll short full children).isEmpty then none
        else some (renameAll short full children), ranges, properties⟩ := by
  rw [isEmpty_renameAll]
  split <;> rw [rename]

end Element

namespace Naming

def short (naming : Naming) (form : Form) : DisplayFormat :=
  if form.isTypeLike then naming.shortType else naming.shortMember

def full (naming : Naming) (form : Form) : DisplayFormat :=
  if form.isTypeLike then naming.fullType else naming.fullMember

/-- Under the two namings no name differs after the functions are applied. -/
structure SameThrough (short full : String → String) (a b : Naming) : Prop where
  names : ∀ (form : Form) (s : BoundSymbol),
    short (s.display (a.short form)) = short (s.display (b.short form))
  displayNames : ∀ (form : Form) (s : BoundSymbol),
    full (s.display (a.full form)) = full (s.display (b.full form))

variable {a b : Naming}

theorem short_congr (types : a.shortType = b.shortType) (members : a.shortMember = b.shortMember)
    (form : Form) : a.short form = b.short form := by
  unfold short
  rw [types, members]

theorem full_congr (types : a.fullType = b.fullType) (members : a.fullMember = b.fullMember)
    (form : Form) : a.full form = b.full form := by
  unfold full
  rw [types, members]

end Naming

namespace Resolved
variable {N : Type} (text : SourceText)

theorem names_element (naming : Naming) (r : Resolved N) :
    (r.element naming text).name = r.symbol.display (naming.short r.form) ∧
      (r.element naming text).displayName = r.symbol.display (naming.full r.form) := by
  refine ⟨r.name_element naming text, ?_⟩
  cases r with
  | mk form head symbol members =>
    rw [element]
    rfl

variable {short full : String → String} {a b : Naming}

mutual

theorem rename_element (same : a.SameThrough short full b) : (r : Resolved N) →
    (r.element a text).rename short full = (r.element b text).rename short full
  | mk form head symbol members => by
    rw [element, element, Element.rename_mk, Element.rename_mk, rename_elements same members]
    congr 1
    · exact same.names form symbol
    · exact same.displayNames form symbol

theorem rename_elements (same : a.SameThrough short full b) : (rs : List (Resolved N)) →
    Element.renameAll short full (elements a text rs) =
      Element.renameAll short full (elements b text rs)
  | [] => rfl
  | r :: rest => by
    rw [elements, elements, Element.renameAll, Element.renameAll, rename_element same r,
      rename_elements same rest]

end

end Resolved

namespace SyntaxTree
variable {N : Type} (tree : SyntaxTree N) (model : Model N) (naming : Naming) (text : SourceText)

theorem names_listed {p : Nat × Element}
    (listed : p ∈ Element.listings 0 (tree.outline model naming text).elements) :
    ∃ (form : Form) (symbol : BoundSymbol), p.2.name = symbol.display (naming.short form) ∧
      p.2.displayName = symbol.display (naming.full form) := by
  have bare := tree.bareListing_outline model naming text
  have member : (p.1, p.2.bare) ∈ bareListing naming text 0 (tree.resolution model).found :=
    List.mem_map.2 ⟨p, listed, rfl⟩
  rw [bare] at member
  obtain ⟨handle, _, shown⟩ := List.mem_filterMap.1 member
  obtain ⟨symbol, _, same⟩ := Option.map_eq_some_iff.1 shown
  have element : Resolved.element naming text (.mk handle.form handle.head symbol []) = p.2.bare :=
    congrArg Prod.snd same
  have names := Resolved.names_element text naming (.mk handle.form handle.head symbol [])
  rw [element] at names
  exact ⟨handle.form, symbol, names⟩

end SyntaxTree

/-- The naming of an outline decides about names only. Under any two namings the same elements are
found, with the same kinds, ranges, properties and children, and as many declarations are left out.
Names stay the same with the short formats and full names with the full ones, and where full names are
to be the short ones they are, at every depth. -/
theorem naming_changes_names_only {N : Type} (tree : SyntaxTree N) (model : Model N)
    (text : SourceText) (a b : Naming) :
    let x := tree.outline model a text
    let y := tree.outline model b text
    (Element.renameAll Element.unnamed Element.unnamed x.elements =
          Element.renameAll Element.unnamed Element.unnamed y.elements ∧
        x.unbound = y.unbound) ∧
      (a.shortType = b.shortType → a.shortMember = b.shortMember →
        Element.renameAll id Element.unnamed x.elements =
          Element.renameAll id Element.unnamed y.elements) ∧
      (a.fullType = b.fullType → a.fullMember = b.fullMember →
        Element.renameAll Element.unnamed id x.elements =
          Element.renameAll Element.unnamed id y.elements) ∧
      ∀ p ∈ Element.listings 0 (tree.outline model .namesOnly text).elements,
        p.2.displayName = p.2.name := by
  intro x y
  refine ⟨⟨?_, rfl⟩, ?_, ?_, ?_⟩
  · have same : a.SameThrough Element.unnamed Element.unnamed b := ⟨fun _ _ => rfl, fun _ _ => rfl⟩
    exact Resolved.rename_elements text same _
  · intro types members
    have same : a.SameThrough id Element.unnamed b := by
      refine ⟨?_, fun _ _ => rfl⟩
      intro form symbol
      rw [Naming.short_congr types members]
    exact Resolved.rename_elements text same _
  · intro types members
    have same : a.SameThrough Element.unnamed id b := by
      refine ⟨fun _ _ => rfl, ?_⟩
      intro form symbol
      rw [Naming.full_congr types members]
    exact Resolved.rename_elements text same _
  · intro p listed
    obtain ⟨form, symbol, name, displayName⟩ := tree.names_listed model .namesOnly text listed
    have same : Naming.namesOnly.full form = Naming.namesOnly.short form := rfl
    rw [name, displayName, same]

theorem Document.genericClass_renamed :
    let x := genericClass.outline .standard
    let y := genericClass.outline .namesOnly
    (Naming.standard.shortType = Naming.namesOnly.shortType ∧
        Naming.standard.shortMember = Naming.namesOnly.shortMember ∧
        Element.renameAll id Element.unnamed x.elements =
          Element.renameAll id Element.unnamed y.elements) ∧
      (Element.listings 0 x.elements).map (·.2.displayName) = ["A.B", "A.B.C<T>", "x", "y"] ∧
      (Element.listings 0 y.elements).map (·.2.displayName) = ["B", "C<T>", "x", "y"] := by
  intro x y
  have decided := naming_changes_names_only genericClass.tree genericClass.model genericClass.source
    .standard .namesOnly
  refine ⟨⟨rfl, rfl, decided.2.1 rfl rfl⟩, ?_⟩
  decide +kernel

end CodeAtlas
