import CodeAtlas.Proofs.Origins

/-!
Classifying a node and binding it agree. The classification says which node names a declaration, and
binding asks for a symbol; both are tables over the kinds of nodes. A declaration binds exactly when
its classification has a name for it, and its symbol is of a category that fits its form.
-/
namespace CodeAtlas
open Syntax

def Declaration.heads {N : Type} : Declaration N → List (Form × Head N)
  | .container form head _ => [(.container form, head)]
  | .single form head => [(.single form, head)]
  | .fields statement => statement.declarators.map fun v => (.declarator, statement.head v)
  | .other => []

namespace Form

def token? (form : Form) (n : Node) : Option Node :=
  match form with
  | .single (.method form) => n.methodName? form
  | .single (.property form) => n.propertyName? form
  | _ => n.name?

def categories : Form → List Category
  | .container .type => [.type .class, .type .struct, .type .interface]
  | .container .enum => [.type .enum]
  | .container .namespace => [.namespace]
  | .single .delegate => [.type .delegate]
  | .single .enumMember => [.field .enumMember]
  | .single (.method .method) => [.method .ordinary]
  | .single (.method .constructor) => [.method .constructor, .method .staticConstructor]
  | .single (.method .destructor) => [.method .destructor]
  | .single (.method .operator) => [.method .operator]
  | .single (.method .conversion) => [.method .conversion]
  | .single (.property .property) => [.property]
  | .single (.property .event) => [.event]
  | .single (.property .indexer) => [.indexer]
  | .declarator => [.field .field, .field .constant, .event]

theorem elementKind_ne_unknown {form : Form} {category : Category}
    (h : category ∈ form.categories) : category.elementKind ≠ .unknown := by
  intro unknown
  have other : category = .other := by
    cases category with
    | type kind | method kind | field kind => cases kind <;> simp [Category.elementKind] at unknown
    | «namespace» | property | indexer | event => simp [Category.elementKind] at unknown
    | other => rfl
  subst other
  unfold categories at h
  split at h <;> simp at h

end Form

namespace Syntax.Cursor

/-- The node of a cursor introduces a declaration of a form under a head. -/
inductive Introduces (c : Cursor) : Form → Head Cursor → Prop where
  | enum (kind : c.kind = .type .enum) : Introduces c (.container .enum) (c.head c.node.name?)
  | type {form : TypeForm} (kind : c.kind = .type form) (other : form ≠ .enum) :
      Introduces c (.container .type) (c.head c.node.name?)
  | «namespace» {form : NamespaceForm} (kind : c.kind = .namespace form) :
      Introduces c (.container .namespace) (c.head c.node.name?)
  | delegate (kind : c.kind = .delegate) : Introduces c (.single .delegate) (c.head c.node.name?)
  | enumMember (kind : c.kind = .enumMember) :
      Introduces c (.single .enumMember) (c.head c.node.name?)
  | method {form : MethodForm} (kind : c.kind = .method form) :
      Introduces c (.single (.method form)) (c.head (c.node.methodName? form))
  | property {form : PropertyForm} (kind : c.kind = .property form) :
      Introduces c (.single (.property form)) (c.head (c.node.propertyName? form))
  | declarator {form : FieldForm} {v : Declarator Cursor} (kind : c.kind = .field form)
      (listed : v ∈ c.declarators) :
      Introduces c .declarator ⟨v.node, c.node.attributes?, c.node.span, v.name⟩

variable {c : Cursor} {form : Form} {head : Head Cursor}

theorem introduces_of_mem (h : (form, head) ∈ c.classify.heads) : c.Introduces form head := by
  unfold classify at h
  split at h <;> simp only [Declaration.heads, List.mem_singleton, Prod.mk.injEq, List.mem_map,
    List.not_mem_nil] at h
  · next kind => obtain ⟨rfl, rfl⟩ := h; exact .enum kind
  · next tForm other kind =>
    obtain ⟨rfl, rfl⟩ := h
    exact .type kind other
  · next kind => obtain ⟨rfl, rfl⟩ := h; exact .namespace kind
  · next kind => obtain ⟨rfl, rfl⟩ := h; exact .namespace kind
  · next kind => obtain ⟨rfl, rfl⟩ := h; exact .delegate kind
  · next kind => obtain ⟨rfl, rfl⟩ := h; exact .enumMember kind
  · next kind => obtain ⟨rfl, rfl⟩ := h; exact .method kind
  · next kind => obtain ⟨rfl, rfl⟩ := h; exact .property kind
  · next kind => obtain ⟨v, listed, rfl, rfl⟩ := h; exact .declarator kind listed

theorem Introduces.node_eq (h : c.Introduces form head) (single : form ≠ .declarator) :
    head.node = c := by
  cases h with
  | declarator => exact absurd rfl single
  | _ => rfl

theorem Introduces.name_eq (h : c.Introduces form head) :
    head.extent.name = (form.token? head.node.node).map Node.span := by
  cases h with
  | declarator kind listed => exact (declarator_spec kind listed).2.2.1
  | _ => rfl

variable (source : SourceText)

def accessibilityAs (c : Cursor) : Form → Accessibility
  | .container .namespace => .notApplicable
  | .container _ | .single .delegate =>
    (accessibilityOf? (c.node.modifiers source)).getD c.defaultTypeAccessibility
  | .single .enumMember => .public
  | .single (.method .destructor) => .protected
  | .single (.method .constructor) =>
    if c.isStatic source then .private else c.memberAccessibility source
  | .single _ => c.memberAccessibility source
  | .declarator => (accessibilityOf? (c.node.modifiers source)).getD c.defaultMemberAccessibility

def nameAs (c : Cursor) (t : Node) : Form → SymbolName
  | .container .namespace => .named (.plain ((t.segments source).getLast?.getD []))
  | .container _ | .single .delegate | .single (.method .method) =>
    .named ⟨t.text source, c.node.typeParameters source⟩
  | .single (.method .constructor) => .constructor (t.text source)
  | .single (.method .destructor) => .destructor (t.text source)
  | .single (.method .operator) => .operator (t.text source)
  | .single (.method .conversion) => .conversion c.direction (t.phrase source)
  | .single (.property .indexer) => .indexer
  | .single _ | .declarator => .named (.plain (t.text source))

/-- What a symbol has from the form of its declaration. -/
structure BoundAs (c : Cursor) (form : Form) (t : Node) (s : Symbol) : Prop where
  category : s.category ∈ form.categories
  accessibility : s.accessibility = c.accessibilityAs source form
  name : s.name = c.nameAs source t form

variable {source} {s : Symbol} {t : Node}

/-- A declaration binds when there is a node to name it. -/
theorem Introduces.binds_iff (h : c.Introduces form head) :
    (head.node.bind? source).isSome ↔ (form.token? head.node.node).isSome := by
  cases h with
  | enum kind | type kind | delegate kind =>
    simp [Cursor.head, bind?, kind, bindType?, Form.token?]
  | «namespace» kind => simp [Cursor.head, bind?, kind, bindNamespace?, Form.token?]
  | enumMember kind => simp [Cursor.head, bind?, kind, bindEnumMember?, Form.token?]
  | method kind => simp [Cursor.head, bind?, kind, bindMethod?, Form.token?]
  | property kind => simp [Cursor.head, bind?, kind, bindProperty?, Form.token?]
  | @declarator _ v kind listed =>
    obtain ⟨vKind, statement, _⟩ := declarator_spec kind listed
    simp only [bind?, vKind, bindVariable?, statement, Form.token?]
    cases v.node.node.name? <;> rfl

theorem typeKind_mem {form : TypeForm} (other : form ≠ .enum) :
    .type (c.typeKind form) ∈ Form.categories (.container .type) := by
  cases form with
  | enum => exact absurd rfl other
  | record =>
    rw [typeKind]
    split <;> simp [Form.categories]
  | _ => simp [typeKind, Form.categories]

theorem bindMethod?_boundAs {form : MethodForm} (h : c.bindMethod? source form = some s) :
    ∃ t, c.node.methodName? form = some t ∧ c.BoundAs source (.single (.method form)) t s := by
  obtain ⟨t, token, rfl⟩ := Option.map_eq_some_iff.1 h
  refine ⟨t, token, ?_⟩
  cases form with
  | constructor =>
    by_cases isStatic : c.isStatic source
    · constructor <;> simp [isStatic, Form.categories, accessibilityAs, nameAs, member]
    · constructor <;> simp [isStatic, Form.categories, accessibilityAs, nameAs, member]
  | method | destructor | operator | conversion => exact ⟨List.mem_singleton_self _, rfl, rfl⟩

theorem bindProperty?_boundAs {form : PropertyForm} (h : c.bindProperty? source form = some s) :
    ∃ t, c.node.propertyName? form = some t ∧ c.BoundAs source (.single (.property form)) t s := by
  obtain ⟨t, token, rfl⟩ := Option.map_eq_some_iff.1 h
  refine ⟨t, token, ?_⟩
  cases form <;> exact ⟨List.mem_singleton_self _, rfl, rfl⟩

theorem bindVariable?_boundAs {form : FieldForm} {v : Declarator Cursor}
    (kind : c.kind = .field form) (listed : v ∈ c.declarators)
    (h : v.node.bind? source = some s) :
    ∃ t, v.node.node.name? = some t ∧ c.BoundAs source .declarator t s := by
  obtain ⟨vKind, statement, _⟩ := declarator_spec kind listed
  simp only [bind?, vKind, bindVariable?, statement, Option.bind_eq_bind, Option.bind_some,
    Option.bind_eq_some_iff] at h
  obtain ⟨t, token, e⟩ := h
  rw [← Option.some.inj e]
  refine ⟨t, token, ?_, rfl, rfl⟩
  cases form with
  | event => simp [Form.categories]
  | field =>
    dsimp only
    split <;> simp [Form.categories]

theorem Introduces.boundAs (h : c.Introduces form head) (bound : head.node.bind? source = some s) :
    ∃ t, form.token? head.node.node = some t ∧ c.BoundAs source form t s := by
  cases h with
  | enum kind | delegate kind =>
    simp only [Cursor.head, bind?, kind, bindType?, Option.map_eq_some_iff] at bound
    obtain ⟨t, token, rfl⟩ := bound
    exact ⟨t, token, List.mem_singleton_self _, rfl, rfl⟩
  | type kind other =>
    simp only [Cursor.head, bind?, kind, bindType?, Option.map_eq_some_iff] at bound
    obtain ⟨t, token, rfl⟩ := bound
    exact ⟨t, token, typeKind_mem other, rfl, rfl⟩
  | «namespace» kind =>
    simp only [Cursor.head, bind?, kind, bindNamespace?, Option.map_eq_some_iff] at bound
    obtain ⟨t, token, rfl⟩ := bound
    exact ⟨t, token, List.mem_singleton_self _, rfl, rfl⟩
  | enumMember kind =>
    simp only [Cursor.head, bind?, kind, bindEnumMember?, Option.map_eq_some_iff] at bound
    obtain ⟨t, token, rfl⟩ := bound
    exact ⟨t, token, List.mem_singleton_self _, rfl, rfl⟩
  | method kind =>
    simp only [Cursor.head, bind?, kind] at bound
    exact bindMethod?_boundAs bound
  | property kind =>
    simp only [Cursor.head, bind?, kind] at bound
    exact bindProperty?_boundAs bound
  | declarator kind listed => exact bindVariable?_boundAs kind listed bound

theorem bind?_other (h : c.classify = .other) (bound : (c.bind? source).isSome) :
    c.kind = .variableDeclarator := by
  cases kind : c.kind with
  | type form => cases form <;> simp [classify, kind] at h
  | «namespace» form => cases form <;> simp [classify, kind] at h
  | delegate | enumMember | method | property | field => simp [classify, kind] at h
  | variableDeclarator => rfl
  | _ => simp [bind?, kind] at bound

end Syntax.Cursor

theorem SyntaxTree.Declares.listed {N : Type} {tree : SyntaxTree N} {model : Model N} {n : N}
    {r : Resolved N} (h : tree.Declares model n r) :
    (r.form, r.head) ∈ (tree.classify n).heads ∧ model r.head.node = some r.symbol := by
  cases h with
  | container form_eq bound | single form_eq bound =>
    rw [form_eq]
    exact ⟨List.mem_singleton_self _, bound⟩
  | declarator form_eq listed bound =>
    rw [form_eq]
    exact ⟨List.mem_map_of_mem listed, bound⟩

theorem SyntaxTree.declares_of_listed {N : Type} {tree : SyntaxTree N} {model : Model N} {n : N}
    {form : Form} {head : Head N} {symbol : BoundSymbol}
    (listed : (form, head) ∈ (tree.classify n).heads) (bound : model head.node = some symbol) :
    ∃ r, tree.Declares model n r ∧ r.form = form ∧ r.head = head := by
  cases form_eq : tree.classify n with
  | container form head members =>
    rw [form_eq, Declaration.heads, List.mem_singleton] at listed
    obtain ⟨rfl, rfl⟩ := Prod.mk.inj listed
    exact ⟨_, .container form_eq bound, rfl, rfl⟩
  | single form head =>
    rw [form_eq, Declaration.heads, List.mem_singleton] at listed
    obtain ⟨rfl, rfl⟩ := Prod.mk.inj listed
    exact ⟨_, .single form_eq bound, rfl, rfl⟩
  | fields statement =>
    rw [form_eq] at listed
    obtain ⟨v, hv, same⟩ := List.mem_map.1 listed
    obtain ⟨rfl, rfl⟩ := Prod.mk.inj same
    exact ⟨_, .declarator form_eq hv bound, rfl, rfl⟩
  | other => simp [form_eq, Declaration.heads] at listed

theorem Resolved.kind_element {N : Type} (naming : Naming) (text : SourceText) (r : Resolved N) :
    (r.element naming text).kind = r.symbol.category.elementKind := by
  cases r with
  | mk form head symbol members =>
    rw [element]
    rfl

namespace Document
variable {d : Document}

theorem bound_of_declares {n : Cursor} {r : Resolved Cursor}
    (declares : d.tree.Declares d.model n r) :
    n.Introduces r.form r.head ∧ ∃ t s, r.form.token? r.head.node.node = some t ∧
      r.symbol = s.toBound ∧ n.BoundAs d.source r.form t s := by
  obtain ⟨listed, bound⟩ := declares.listed
  obtain ⟨s, binds, same⟩ := Option.map_eq_some_iff.1 bound
  have introduces := Cursor.introduces_of_mem listed
  obtain ⟨t, token, known⟩ := introduces.boundAs binds
  exact ⟨introduces, t, s, token, same.symm, known⟩

/-- A node that is classified as a declaration binds exactly when it is classified with a name, and
to a symbol whose category fits; so do the variables of a field statement, and nothing else binds
but variables. Hence every element is of a known kind. -/
theorem binding_follows_classification (d : Document) :
    (∀ c form head, (form, head) ∈ (d.tree.classify c).heads →
      (form ≠ .declarator → head.node = c) ∧
      ((d.model head.node).isSome ↔ head.extent.name.isSome) ∧
      ∀ symbol, d.model head.node = some symbol → symbol.category ∈ form.categories) ∧
    (∀ c, (d.model c).isSome → d.tree.classify c ≠ .other ∨ c.kind = .variableDeclarator) ∧
    ∀ naming, ∀ p ∈ Element.listings 0 (d.outline naming).elements, p.2.kind ≠ .unknown := by
  refine ⟨?_, ?_, ?_⟩
  · intro c form head listed
    have introduces := Cursor.introduces_of_mem listed
    refine ⟨introduces.node_eq, ?_, ?_⟩
    · rw [introduces.name_eq, model, Option.isSome_map, Option.isSome_map]
      exact introduces.binds_iff
    · intro symbol bound
      obtain ⟨s, binds, rfl⟩ := Option.map_eq_some_iff.1 bound
      obtain ⟨_, _, known⟩ := introduces.boundAs binds
      exact known.category
  · intro c bound
    rw [model, Option.isSome_map] at bound
    by_cases other : c.classify = .other
    · exact Or.inr (Cursor.bind?_other other bound)
    · exact Or.inl other
  · intro naming p listed
    obtain ⟨r, declared, shown⟩ := mem_listing listed
    obtain ⟨parent, placed⟩ := placed_of_mem declared
    obtain ⟨_, _, declares, _⟩ := SyntaxTree.declares_of_placed placed
    obtain ⟨_, _, s, _, symbol, known⟩ := bound_of_declares declares
    rw [shown, Resolved.kind_element, symbol]
    exact Form.elementKind_ne_unknown known.category

theorem genericClass_field_binds :
    ∃ c, ∃ p ∈ (genericClass.tree.classify c).heads, p.1 = .declarator ∧
      p.2.extent.name.isSome ∧ (genericClass.model p.2.node).isSome := by
  let fields := (Cursor.all genericClass.root).filter fun c => c.kind == .field .field
  let statement := fields.head (List.isEmpty_eq_false_iff.1 (by decide +kernel))
  have found : ∃ p ∈ (genericClass.tree.classify statement).heads,
      p.1 = .declarator ∧ p.2.extent.name.isSome := by
    let heads := (genericClass.tree.classify statement).heads
    let first := heads.head (List.isEmpty_eq_false_iff.1 (by decide +kernel))
    exact ⟨first, List.head_mem _, by decide +kernel, by decide +kernel⟩
  obtain ⟨⟨form, head⟩, listed, declarator, named⟩ := found
  have agree := binding_follows_classification genericClass
  have binds := (agree.1 statement form head listed).2.1
  exact ⟨statement, (form, head), listed, declarator, named, binds.2 named⟩

end Document
end CodeAtlas
