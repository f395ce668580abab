import CodeAtlas.Proofs.Binding
import CodeAtlas.Proofs.Qualification
import Mathlib.Data.Finset.Dedup

/-!
The accessibility that an element shows. It depends on the form of the declaration, on the set of
its modifiers, on whether it implements an interface explicitly, and for a declaration that states
nothing on the kind of its parent. The parent is found downwards by the outline and the type around
a declaration upwards by binding; in a tree as the grammar has it they are the same.
-/
namespace CodeAtlas
open Syntax

def statedAccessibility? (modifiers : Finset String) : Option String :=
  if "public" ∈ modifiers then some "public"
  else if "protected" ∈ modifiers ∧ "internal" ∈ modifiers then some "protected internal"
  else if "private" ∈ modifiers ∧ "protected" ∈ modifiers then some "private protected"
  else if "protected" ∈ modifiers then some "protected"
  else if "internal" ∈ modifiers then some "internal"
  else if "private" ∈ modifiers then some "private"
  else none

namespace Form

/-- The accessibility of a declaration that states none, by the kind of its parent's element. -/
def defaultAccessibility (form : Form) (parent : Option ElementKind) : String :=
  if form.isTypeLike then
    match parent with
    | none | some .namespace => "internal"
    | some .interface => "public"
    | some _ => "private"
  else
    match parent with
    | some .interface | some .enum => "public"
    | _ => "private"

def accessibility (form : Form) (modifiers : Finset String) (isExplicit : Bool)
    (parent : Option ElementKind) : String :=
  let stated := (statedAccessibility? modifiers).getD (form.defaultAccessibility parent)
  match form with
  | .single (.method .destructor) => "protected"
  | .single .enumMember => "public"
  | .single (.method .constructor) =>
    if "static" ∈ modifiers then "private" else if isExplicit then "private" else stated
  | .single (.method _) | .single (.property _) => if isExplicit then "private" else stated
  | _ => stated

end Form

namespace Syntax

def Node.modifierSet (source : SourceText) (n : Node) : Finset String :=
  ((n.modifiers source).map String.ofList).toFinset

theorem Node.contains_modifiers (source : SourceText) (n : Node) (word : String) :
    (n.modifiers source).contains word.toList = decide (word ∈ n.modifierSet source) := by
  have same : word ∈ n.modifierSet source ↔ word.toList ∈ n.modifiers source := by
    rw [modifierSet, List.mem_toFinset, List.mem_map]
    constructor
    · rintro ⟨w, member, rfl⟩
      rwa [String.toList_ofList]
    · intro member
      exact ⟨word.toList, member, String.ofList_toList⟩
  rw [List.contains_eq_mem, decide_eq_decide]
  exact same.symm

theorem tag?_stated (source : SourceText) (n : Node) {fallback : Accessibility} {word : String}
    (h : fallback.tag? = some word) :
    ((accessibilityOf? (n.modifiers source)).getD fallback).tag? =
      some ((statedAccessibility? (n.modifierSet source)).getD word) := by
  unfold accessibilityOf? statedAccessibility?
  simp only [Node.contains_modifiers, Bool.and_eq_true, decide_eq_true_eq]
  split_ifs <;> [rfl; rfl; rfl; rfl; rfl; rfl; exact h]

def NodeKind.typeForm? : NodeKind → Option TypeForm
  | .type form => some form
  | _ => none

namespace Cursor

theorem enclosingType?_plain {c m : Cursor} (child : m ∈ c.children)
    (plain : c.opensScope = false) : enclosingType? m.above = enclosingType? c.above := by
  rw [(child_place child).2, enclosingType?]
  unfold opensScope kind at plain
  split
  · next form kind => simp [kind, NodeKind.isType] at plain
  · next form kind => simp [kind, NodeKind.isNamespace] at plain
  · rfl

theorem enclosingType?_scope {c m : Cursor} (child : m ∈ c.children) (scope : c.opensScope) :
    enclosingType? m.above = c.kind.typeForm? := by
  rw [(child_place child).2, enclosingType?]
  rcases Document.opensScope_cases scope with ⟨form, kind⟩ | ⟨form, kind⟩
  · have place : c.node.kind = .type form := kind
    rw [place, kind]
    rfl
  · have place : c.node.kind = .namespace form := kind
    rw [place, kind]
    rfl

/-- The type around a declaration, and the kind of its parent's element. -/
inductive Around : Option TypeForm → Option ElementKind → Prop where
  | top : Around none none
  | inNamespace : Around none (some .namespace)
  | inType (c : Cursor) (form : TypeForm) :
      Around (some form) (some (Category.type (c.typeKind form)).elementKind)

variable {source : SourceText} {n : Cursor} {form : Form} {parent : Option ElementKind}

theorem tag?_default (form : Form) (around : Around (enclosingType? n.above) parent) :
    (if form.isTypeLike then n.defaultTypeAccessibility else n.defaultMemberAccessibility).tag? =
      some (form.defaultAccessibility parent) := by
  unfold defaultTypeAccessibility defaultMemberAccessibility Form.defaultAccessibility
  generalize enclosingType? n.above = enclosing at around ⊢
  cases form.isTypeLike <;> cases around with
  | top | inNamespace => rfl
  | inType c form =>
    cases form with
    | record =>
      rw [typeKind]
      cases c.node.hasKind (.token .struct) <;> rfl
    | «class» | struct | interface | recordStruct | enum => rfl

theorem tag?_type (around : Around (enclosingType? n.above) parent) (typeLike : form.isTypeLike) :
    ((accessibilityOf? (n.node.modifiers source)).getD n.defaultTypeAccessibility).tag? =
      some ((statedAccessibility? (n.node.modifierSet source)).getD
        (form.defaultAccessibility parent)) := by
  have fallback := tag?_default form around
  rw [if_pos typeLike] at fallback
  exact tag?_stated source n.node fallback

theorem tag?_variable (around : Around (enclosingType? n.above) parent)
    (member : form.isTypeLike = false) :
    ((accessibilityOf? (n.node.modifiers source)).getD n.defaultMemberAccessibility).tag? =
      some ((statedAccessibility? (n.node.modifierSet source)).getD
        (form.defaultAccessibility parent)) := by
  have fallback := tag?_default form around
  rw [if_neg (by simp [member])] at fallback
  exact tag?_stated source n.node fallback

theorem tag?_member (around : Around (enclosingType? n.above) parent)
    (member : form.isTypeLike = false) :
    (n.memberAccessibility source).tag? =
      some (if n.node.hasKind .explicitInterface then "private"
        else (statedAccessibility? (n.node.modifierSet source)).getD
          (form.defaultAccessibility parent)) := by
  unfold memberAccessibility
  split
  · rfl
  · exact tag?_variable around member

theorem isStatic_iff : n.isStatic source ↔ "static" ∈ n.node.modifierSet source := by
  rw [isStatic, Node.contains_modifiers, decide_eq_true_eq]

theorem tag?_accessibilityAs (around : Around (enclosingType? n.above) parent)
    (other : form.isNamespace = false) :
    (n.accessibilityAs source form).tag? =
      some (form.accessibility (n.node.modifierSet source) (n.node.hasKind .explicitInterface)
        parent) := by
  cases form with
  | container c =>
    cases c with
    | «namespace» => simp [Form.isNamespace] at other
    | type | enum => exact tag?_type around rfl
  | declarator => exact tag?_variable around rfl
  | single s =>
    cases s with
    | enumMember => rfl
    | delegate => exact tag?_type around rfl
    | property form => exact tag?_member around rfl
    | method form =>
      cases form with
      | destructor => rfl
      | constructor =>
        simp only [accessibilityAs, Form.accessibility, isStatic_iff]
        split
        · rfl
        · exact tag?_member around rfl
      | method | operator | conversion => exact tag?_member around rfl

end Cursor
end Syntax

namespace Document

/-- Trees as the grammar has them: neither the root nor a body is a type or a namespace, and
file-scoped namespaces are children of the root. -/
structure Nested (d : Document) : Prop where
  root : (Cursor.root d.root).opensScope = false
  body : ∀ c ∈ Cursor.all d.root, c.opensScope → c.kind ≠ .namespace .fileScoped →
    ∀ b ∈ c.body?, b.opensScope = false
  child : ∀ c ∈ Cursor.all d.root, c.kind = .namespace .fileScoped → c.above.length = 1

variable {d : Document}

theorem enclosingType?_rootChild (nested : d.Nested) {c : Cursor}
    (child : c ∈ (Cursor.root d.root).children) : Cursor.enclosingType? c.above = none := by
  rw [Cursor.enclosingType?_plain child nested.root]
  rfl

theorem enclosingType?_member (nested : d.Nested) {c m : Cursor}
    (reached : d.tree.Reached d.model c) (member : m ∈ d.tree.entered d.model c) :
    Cursor.enclosingType? m.above = c.kind.typeForm? := by
  have place := (reached_mem_all reached).1
  have member := SyntaxTree.mem_members_of_entered _ _ member
  change m ∈ c.classify.members at member
  rcases c.members_shape with none | ⟨b, body, scope, kind, shape⟩ | ⟨kind, shape⟩
  · simp [none] at member
  · rw [shape] at member
    have plain := nested.body c place scope kind b body
    rw [Cursor.enclosingType?_plain (List.mem_filter.1 member).1 plain]
    exact Cursor.enclosingType?_scope (Cursor.body?_mem body) scope
  · rw [shape] at member
    rcases List.mem_append.1 member with inner | later
    · have scope : c.opensScope := by simp [Cursor.opensScope, kind, NodeKind.isNamespace]
      exact Cursor.enclosingType?_scope (List.mem_filter.1 inner).1 scope
    -- a later sibling is a child of the root, as the namespace is
    · have child := child_of_root place (nested.child c place kind)
      have sibling := Cursor.following_child child (List.mem_filter.1 later).1
      rw [enclosingType?_rootChild nested sibling, kind]
      rfl

theorem around_member {m n : Cursor} {p : Resolved Cursor} (outer : d.tree.Declares d.model m p)
    (member : n ∈ d.tree.entered d.model m) :
    Cursor.Around m.kind.typeForm? (some p.symbol.category.elementKind) := by
  cases outer with
  | container form_eq bound =>
    obtain ⟨rfl, _, scope, _⟩ := Cursor.classify_container form_eq
    obtain ⟨s, binds, rfl⟩ := symbol_of_model bound
    change m.bind? d.source = some s at binds
    rcases opensScope_cases scope with ⟨form, kind⟩ | ⟨form, kind⟩
    · simp only [Cursor.bind?, kind, Cursor.bindType?, Option.map_eq_some_iff] at binds
      obtain ⟨_, _, rfl⟩ := binds
      rw [kind]
      exact .inType m form
    · simp only [Cursor.bind?, kind, Cursor.bindNamespace?, Option.map_eq_some_iff] at binds
      obtain ⟨_, _, rfl⟩ := binds
      rw [kind]
      exact .inNamespace
  | single form_eq | declarator form_eq => simp [SyntaxTree.entered, form_eq] at member

/-- Upwards from a node and downwards from the root, the same thing stands around a declaration. -/
theorem around_placed (nested : d.Nested) {parent : Option (Resolved Cursor)} {r : Resolved Cursor}
    (placed : Resolved.Placed (d.tree.resolution d.model).found parent r) :
    ∃ n, d.tree.Declares d.model n r ∧ Cursor.Around (Cursor.enclosingType? n.above)
      (parent.map fun p => p.symbol.category.elementKind) := by
  obtain ⟨n, _, declares, place⟩ := SyntaxTree.declares_of_placed placed
  refine ⟨n, declares, ?_⟩
  cases parent with
  | none =>
    rw [enclosingType?_rootChild nested (List.mem_filter.1 (rootMembers_subset place)).1]
    exact .top
  | some p =>
    obtain ⟨m, reached, outer, member⟩ := place
    rw [enclosingType?_member nested reached member]
    exact around_member outer member

end Document

namespace Resolved

/-- The node that makes a declaration: for a variable, its statement. -/
def declaring (r : Resolved Cursor) : Cursor :=
  match r.form with
  | .declarator => (r.head.node.parent?.bind Cursor.parent?).getD r.head.node
  | _ => r.head.node

theorem declaring_eq {n : Cursor} {r : Resolved Cursor} (h : n.Introduces r.form r.head) :
    r.declaring = n := by
  obtain ⟨form, head, symbol, members⟩ := r
  change n.Introduces form head at h
  cases h with
  | declarator kind listed =>
    obtain ⟨_, _, _, statement⟩ := Cursor.declarator_spec kind listed
    simp only [declaring, Resolved.form, Resolved.head, statement, Option.getD_some]
  | _ => rfl

theorem property?_accessibility {N : Type} (naming : Naming) (text : SourceText) (r : Resolved N)
    (other : r.form.isNamespace = false) :
    (r.element naming text).property? .accessibility = r.symbol.accessibility.tag?.map .text := by
  obtain ⟨form, head, symbol, members⟩ := r
  change form.isNamespace = false at other
  rw [element, Element.property?, BoundSymbol.properties?, other]
  rfl

end Resolved

namespace Document

/-- The elements of an outline stand where the declarations stand that they show. The accessibility of
a declaration that is no namespace follows from its form, its modifiers and the kind of the element
above it. -/
theorem accessibility_follows_rule (d : Document) (nested : d.Nested) (naming : Naming) :
    (∀ above e, Element.Placed (d.outline naming).elements above e ↔
      ∃ parent r, Resolved.Placed (d.tree.resolution d.model).found parent r ∧
        above = parent.map (Resolved.element naming d.source) ∧
        e = Resolved.element naming d.source r) ∧
    ∀ parent r, Resolved.Placed (d.tree.resolution d.model).found parent r →
      r.form.isNamespace = false →
      (r.element naming d.source).property? .accessibility =
        some (.text (r.form.accessibility (r.declaring.node.modifierSet d.source)
          (r.declaring.node.hasKind .explicitInterface)
          (parent.map fun p => (p.element naming d.source).kind))) := by
  refine ⟨fun _ _ => Resolved.placed_elements_iff naming d.source, ?_⟩
  intro parent r placed other
  obtain ⟨n, declares, around⟩ := around_placed nested placed
  obtain ⟨introduces, t, s, _, symbol, known⟩ := bound_of_declares declares
  rw [Resolved.property?_accessibility naming d.source r other, Resolved.declaring_eq introduces,
    symbol]
  simp only [Resolved.kind_element]
  change s.accessibility.tag?.map PropertyValue.text = _
  rw [known.accessibility, Cursor.tag?_accessibilityAs around other]
  rfl

def interfaceMembers : Document :=
  { source := .ofString "interface I \x7b void M(); internal protected class C \x7b \x7d \x7d"
    root := .named (.other "compilation_unit") none 0 56
      [.named (.type .interface) none 0 56
        [.mark "interface" 0 9, .named .identifier (some .name) 10 11 [],
         .named .memberList (some .body) 12 56
          [.mark "\x7b" 12 13,
           .named (.method .method) none 14 23
            [.named (.other "predefined_type") none 14 18 [],
             .named .identifier (some .name) 19 20 [],
             .named .parameterList (some .parameters) 20 22 [.mark "(" 20 21, .mark ")" 21 22],
             .mark ";" 22 23],
           .named (.type .class) none 24 54
            [.named .modifier none 24 32 [], .named .modifier none 33 42 [], .mark "class" 43 48,
             .named .identifier (some .name) 49 50 [],
             .named .memberList (some .body) 51 54 [.mark "\x7b" 51 52, .mark "\x7d" 53 54]],
           .mark "\x7d" 55 56]]] }

theorem interfaceMembers_accessibility :
    ∃ p m c, Resolved.Placed (interfaceMembers.tree.resolution interfaceMembers.model).found
        (some p) m ∧
      Resolved.Placed (interfaceMembers.tree.resolution interfaceMembers.model).found (some p) c ∧
      (m.element .standard interfaceMembers.source).property? .accessibility =
        some (.text "public") ∧
      (c.element .standard interfaceMembers.source).property? .accessibility =
        some (.text "protected internal") := by
  have nested : interfaceMembers.Nested := by
    constructor <;> decide +kernel
  let forest := (interfaceMembers.tree.resolution interfaceMembers.model).found
  let outer := forest.head (List.isEmpty_eq_false_iff.1 (by decide +kernel))
  let method := outer.members.head (List.isEmpty_eq_false_iff.1 (by decide +kernel))
  let inner := outer.members.getLast (List.isEmpty_eq_false_iff.1 (by decide +kernel))
  have top : Resolved.Placed forest none outer := .top (List.head_mem _)
  have first : Resolved.Placed forest (some outer) method := top.member (List.head_mem _)
  have last : Resolved.Placed forest (some outer) inner := top.member (List.getLast_mem _)
  refine ⟨outer, method, inner, first, last, ?_, ?_⟩
  · rw [(accessibility_follows_rule _ nested .standard).2 _ _ first (by decide +kernel)]
    decide +kernel
  · rw [(accessibility_follows_rule _ nested .standard).2 _ _ last (by decide +kernel)]
    decide +kernel

end Document
end CodeAtlas
