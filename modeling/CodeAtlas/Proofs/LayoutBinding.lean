import CodeAtlas.Proofs.Cursor
import CodeAtlas.Proofs.LayoutReading

/-!
Binding does not depend on layout. The cursors of two layouts of a text correspond, row by row, and
corresponding cursors bind to symbols that are shown alike.
-/
namespace CodeAtlas

section Relations
variable {α β γ : Type} {R : α → β → Prop} {l : List α} {l' : List β}

theorem rel_getLast? (h : List.Forall₂ R l l') : Option.Rel R l.getLast? l'.getLast? := by
  rw [List.getLast?_eq_head?_reverse, List.getLast?_eq_head?_reverse]
  exact rel_head? (List.forall₂_reverse_iff.2 h)

theorem rel_dropLast (h : List.Forall₂ R l l') : List.Forall₂ R l.dropLast l'.dropLast := by
  rw [List.dropLast_eq_take, List.dropLast_eq_take, h.length_eq]
  exact List.forall₂_take _ h

theorem flatMap_eq {f : α → List γ} {g : β → List γ} (h : List.Forall₂ R l l')
    (same : ∀ a b, R a b → f a = g b) : l.flatMap f = l'.flatMap g := by
  induction h with
  | nil => rfl
  | cons first _ ih => rw [List.flatMap_cons, List.flatMap_cons, same _ _ first, ih]

theorem map_eq {f : α → γ} {g : β → γ} (h : List.Forall₂ R l l') (same : ∀ a b, R a b → f a = g b) :
    l.map f = l'.map g := by
  induction h with
  | nil => rfl
  | cons first _ ih => rw [List.map_cons, List.map_cons, same _ _ first, ih]

end Relations

/-- Symbols that are the same up to the blanks in names of parameters, and all the same in the given
case. -/
structure Symbol.Alike (certain : Prop) (a b : Symbol) : Prop where
  category : a.category = b.category
  accessibility : a.accessibility = b.accessibility
  isStatic : a.isStatic = b.isStatic
  containers : a.containers = b.containers
  name : a.name = b.name
  parameters : Option.Rel (List.Forall₂ Parameter.Alike) a.parameters b.parameters
  certainly : certain → a.parameters = b.parameters

def DisplayFormat.hidesNames (f : DisplayFormat) : Bool := f.parameters.all fun style => !style.names

section Rendering
open Text

theorem Text.Respaced.intercalate (sep : List Char) {l l' : List (List Char)}
    (h : List.Forall₂ Respaced l l') : Respaced (sep.intercalate l) (sep.intercalate l') := by
  induction h with
  | nil => exact .nil
  | cons first rest ih =>
    cases rest with
    | nil =>
      rw [List.intercalate_singleton, List.intercalate_singleton]
      exact first
    | cons =>
      rw [List.intercalate_cons_cons, List.intercalate_cons_cons]
      exact (first.append (.refl sep)).append ih

theorem forall₂_respaced_refl (l : List (List Char)) : List.Forall₂ Respaced l l :=
  List.forall₂_same.2 fun text _ => .refl text

namespace Parameter.Alike
variable {p q : Parameter}

theorem render_respaced (h : p.Alike q) (style : ParameterStyle) :
    Respaced (p.render style) (q.render style) := by
  unfold render
  dsimp only
  rw [h.modifiers, h.type, h.defaultValue]
  apply Respaced.append _ (.refl _)
  apply Respaced.intercalate
  apply List.rel_append (forall₂_respaced_refl _)
  split
  · rcases rel_cases h.name with ⟨none, none'⟩ | ⟨name, name', found, found', alike⟩
    · rw [none, none']
      exact .nil
    · rw [found, found']
      exact .cons alike .nil
  · exact .nil

theorem render_eq (h : p.Alike q) {style : ParameterStyle} (hidden : style.names = false) :
    p.render style = q.render style := by
  unfold render
  rw [h.modifiers, h.type, h.defaultValue, hidden]
  rfl

end Parameter.Alike

namespace Symbol.Alike
variable {a b : Symbol} {certain : Prop}

theorem renderParameters?_respaced (h : a.Alike certain b) (f : DisplayFormat) :
    Option.Rel Respaced (a.renderParameters? f) (b.renderParameters? f) := by
  unfold renderParameters?
  cases f.parameters with
  | none => exact .none
  | some style =>
    rcases rel_cases h.parameters with ⟨none, none'⟩ | ⟨ps, qs, found, found', alike⟩
    · rw [none, none']
      exact .none
    · rw [found, found']
      apply Option.Rel.some
      apply Respaced.intercalate
      exact List.rel_map (fun _ _ alike => alike.render_respaced style) alike

theorem render_respaced (h : a.Alike certain b) (f : DisplayFormat) :
    Respaced (a.render f) (b.render f) := by
  unfold render renderOwn
  rw [h.containers, h.name]
  apply (Respaced.refl _).append
  apply (Respaced.refl _).append
  rcases rel_cases (h.renderParameters?_respaced f) with ⟨none, none'⟩ | ⟨ps, qs, found, found', alike⟩
  · rw [none, none']
    exact .refl _
  · rw [found, found']
    cases b.name with
    | indexer => exact (Respaced.char '[' alike).append (.refl _)
    | _ => exact (Respaced.char '(' alike).append (.refl _)

theorem render_eq (h : a.Alike certain b) {f : DisplayFormat} (hidden : f.hidesNames) :
    a.render f = b.render f := by
  have shown : a.renderParameters? f = b.renderParameters? f := by
    unfold renderParameters?
    cases format : f.parameters with
    | none => rfl
    | some style =>
      unfold DisplayFormat.hidesNames at hidden
      rw [format, Option.all_some, Bool.not_eq_true'] at hidden
      rcases rel_cases h.parameters with ⟨none, none'⟩ | ⟨ps, qs, found, found', alike⟩
      · rw [none, none']
      · rw [found, found']
        dsimp only
        rw [map_eq alike fun _ _ same => same.render_eq hidden]
  unfold render renderOwn
  rw [h.containers, h.name, shown]

theorem eq (h : a.Alike certain b) (given : certain) : a = b := by
  have parameters := h.certainly given
  obtain ⟨category, accessibility, isStatic, containers, name, _, _⟩ := h
  cases a
  cases b
  simp_all

end Symbol.Alike
end Rendering

theorem Symbol.Alike.refl (certain : Prop) (a : Symbol) : a.Alike certain a := by
  refine ⟨rfl, rfl, rfl, rfl, rfl, ?_, fun _ => rfl⟩
  cases a.parameters with
  | none => exact .none
  | some parameters => exact .some (List.forall₂_same.2 fun p _ => .refl p)

namespace Syntax

namespace Place

/-- Places with corresponding nodes at them and on both sides. -/
structure Twin (s s' : SourceText) (p p' : Place) : Prop where
  node : Node.Twin s s' p.node p'.node
  before : List.Forall₂ (Node.Twin s s') p.before p'.before
  after : List.Forall₂ (Node.Twin s s') p.after p'.after

variable {s s' : SourceText} {p p' : Place}

theorem twin_line {before before' nodes nodes' : List Node} (row row' : Nat)
    (earlier : List.Forall₂ (Node.Twin s s') before before')
    (h : List.Forall₂ (Node.Twin s s') nodes nodes') :
    List.Forall₂ (Twin s s') (line row before nodes) (line row' before' nodes') := by
  induction h generalizing row row' before before' with
  | nil => exact .nil
  | cons first rest ih => exact .cons ⟨first, earlier, rest⟩ (ih _ _ (.cons first earlier))

end Place

namespace Cursor

structure Twin (s s' : SourceText) (c c' : Cursor) : Prop where
  place : Place.Twin s s' c.toPlace c'.toPlace
  above : List.Forall₂ (Place.Twin s s') c.above c'.above

def TightNames (s : SourceText) (c : Cursor) : Prop :=
  ∀ t ∈ c.node.looseNames s, Node.Tight s t.leaves

namespace Twin
variable {s s' : SourceText} {c c' : Cursor}

theorem kind_eq (h : Twin s s' c c') : c.kind = c'.kind := h.place.node.kind_eq

theorem ofLine {places places' : List Place}
    (alike : List.Forall₂ (Place.Twin s s') places places') {above above' : List Place}
    (higher : List.Forall₂ (Place.Twin s s') above above') :
    List.Forall₂ (Twin s s') (places.map fun p => ⟨p, above⟩) (places'.map fun p => ⟨p, above'⟩) :=
  List.rel_map (fun _ _ twin => ⟨twin, higher⟩) alike

theorem children (h : Twin s s' c c') : List.Forall₂ (Twin s s') c.children c'.children :=
  ofLine (Place.twin_line _ _ .nil h.place.node.children) (.cons h.place h.above)

theorem following (h : Twin s s' c c') : List.Forall₂ (Twin s s') c.following c'.following :=
  ofLine (Place.twin_line _ _ (.cons h.place.node h.place.before) h.place.after) h.above

theorem below (h : Twin s s' c c') : List.Forall₂ (Twin s s') c.below c'.below := by
  induction c using child_induction generalizing c' with
  | step c ih =>
    rw [below_eq, below_eq]
    refine .cons h ?_
    apply List.rel_flatMap (forall₂_mem h.children)
    rintro d d' ⟨child, twin⟩
    exact ih d child twin

theorem all {n n' : Node} (h : Node.Twin s s' n n') :
    List.Forall₂ (Twin s s') (Cursor.all n) (Cursor.all n') := by
  have root : Twin s s' (root n) (root n') := ⟨⟨h, .nil, .nil⟩, .nil⟩
  exact root.below

theorem parent? (h : Twin s s' c c') : Option.Rel (Twin s s') c.parent? c'.parent? := by
  obtain ⟨place, above⟩ := c
  obtain ⟨place', above'⟩ := c'
  obtain ⟨_, higher⟩ := h
  cases higher with
  | nil => exact .none
  | cons first rest => exact .some ⟨first, rest⟩

theorem topmost (h : Twin s s' c c') : Place.Twin s s' c.topmost c'.topmost := by
  obtain ⟨place, above⟩ := c
  obtain ⟨place', above'⟩ := c'
  obtain ⟨here, higher⟩ := h
  cases higher with
  | nil => exact here
  | cons first rest =>
    unfold Cursor.topmost
    dsimp only
    rcases rel_cases (rel_getLast? (rel_dropLast (.cons here (.cons first rest)))) with
      ⟨none, none'⟩ | ⟨p, p', found, found', twin⟩
    · rw [none, none']
      exact here
    · rw [found, found']
      exact twin

theorem fileNamespace? (h : Twin s s' c c') :
    Option.Rel (Node.Twin s s') c.fileNamespace? c'.fileNamespace? := by
  unfold Cursor.fileNamespace?
  rw [h.topmost.node.kind_eq]
  split
  · exact .none
  · apply rel_find? h.topmost.before
    intro n n' twin
    rw [twin.isNamed_eq, twin.kind_eq]

theorem containers_eq (h : Twin s s' c c') : c.containers s = c'.containers s' := by
  unfold containers
  rw [map_eq_of_rel h.fileNamespace? fun _ _ twin => twin.scope_eq,
    flatMap_eq (List.forall₂_reverse_iff.2 h.above) fun _ _ twin => twin.node.scope_eq]

theorem enclosingType?_eq {above above' : List Place}
    (h : List.Forall₂ (Place.Twin s s') above above') : enclosingType? above = enclosingType? above' := by
  induction h with
  | nil => rfl
  | cons first _ ih =>
    unfold enclosingType?
    rw [first.node.kind_eq, ih]

theorem isStatic_eq (h : Twin s s' c c') : c.isStatic s = c'.isStatic s' := by
  unfold isStatic
  rw [h.place.node.modifiers_eq]

theorem defaultMemberAccessibility_eq (h : Twin s s' c c') :
    c.defaultMemberAccessibility = c'.defaultMemberAccessibility := by
  unfold defaultMemberAccessibility
  rw [enclosingType?_eq h.above]

theorem defaultTypeAccessibility_eq (h : Twin s s' c c') :
    c.defaultTypeAccessibility = c'.defaultTypeAccessibility := by
  unfold defaultTypeAccessibility
  rw [enclosingType?_eq h.above]

theorem memberAccessibility_eq (h : Twin s s' c c') :
    c.memberAccessibility s = c'.memberAccessibility s' := by
  unfold memberAccessibility
  rw [h.place.node.hasKind_eq, h.place.node.modifiers_eq, h.defaultMemberAccessibility_eq]

theorem typeKind_eq (h : Twin s s' c c') (form : TypeForm) : c.typeKind form = c'.typeKind form := by
  unfold typeKind
  rw [h.place.node.hasKind_eq]

theorem direction_eq (h : Twin s s' c c') : c.direction = c'.direction := by
  unfold direction
  rw [findSome?_eq h.place.node.children fun _ _ twin => by rw [twin.kind_eq]]

section Binding

theorem member_alike (h : Twin s s' c c') (category : Category) {name name' : SymbolName}
    (same : name = name') {parameters parameters' : Option (List Parameter)} {certain : Prop}
    (alike : Option.Rel (List.Forall₂ Parameter.Alike) parameters parameters')
    (certainly : certain → parameters = parameters') :
    Symbol.Alike certain (c.member s category name parameters)
      (c'.member s' category name' parameters') :=
  ⟨rfl, h.memberAccessibility_eq, h.isStatic_eq, h.containers_eq, same, alike, certainly⟩

theorem plainMember_alike (h : Twin s s' c c') (category : Category) {name name' : SymbolName}
    (same : name = name') (certain : Prop) :
    Symbol.Alike certain (c.member s category name none) (c'.member s' category name' none) :=
  h.member_alike category same .none fun _ => rfl

theorem bindType?_alike (h : Twin s s' c c') (kind : TypeKind)
    (named : ∀ t ∈ c.node.name?, t ∈ c.node.nameNodes) (certain : Prop) :
    Option.Rel (Symbol.Alike certain) (c.bindType? s kind) (c'.bindType? s' kind) := by
  have node := h.place.node
  apply rel_optionMap node.name?
  intro t t' found twin
  rw [node.modifiers_eq, h.defaultTypeAccessibility_eq, h.isStatic_eq, h.containers_eq,
    node.nameText_eq twin (named t found), node.typeParameters_eq]
  exact .refl certain _

theorem bindNamespace?_alike (h : Twin s s' c c') {form : NamespaceForm}
    (kind : c.kind = .namespace form) (certain : Prop) :
    Option.Rel (Symbol.Alike certain) (c.bindNamespace? s) (c'.bindNamespace? s') := by
  have node := h.place.node
  apply rel_optionMap node.name?
  intro t t' found twin
  have dotted := node.self_plain.dotted (by rw [show c.node.kind = _ from kind]; rfl) t found
  rw [h.containers_eq, twin.segments_eq dotted]
  exact .refl certain _

theorem bindMethod?_alike (h : Twin s s' c c') {form : MethodForm} (kind : c.kind = .method form) :
    Option.Rel (Symbol.Alike (TightNames s c)) (c.bindMethod? s form) (c'.bindMethod? s' form) := by
  have node := h.place.node
  obtain ⟨alike, same⟩ := node.parameters_alike
  have parameters : Option.Rel (List.Forall₂ Parameter.Alike) (some (c.node.parameters s))
      (some (c'.node.parameters s')) := .some alike
  have certainly : TightNames s c → some (c.node.parameters s) = some (c'.node.parameters s') := by
    intro tight
    rw [same tight]
  have node_kind : c.node.kind = .method form := kind
  apply rel_optionMap (node.methodName? form)
  intro t t' found twin
  have text : form ≠ .conversion → t.text s = t'.text s' := by
    intro other
    apply node.nameText_eq twin
    unfold Node.nameNodes
    rw [node_kind]
    cases form <;> first | contradiction | (dsimp only; rw [found]; exact List.mem_cons_self)
  cases form with
  | method =>
    rw [text (by decide), node.typeParameters_eq]
    exact h.member_alike _ rfl parameters certainly
  | constructor =>
    dsimp only
    rw [text (by decide), h.isStatic_eq]
    split
    · exact { h.member_alike _ rfl parameters certainly with accessibility := rfl }
    · exact h.member_alike _ rfl parameters certainly
  | destructor =>
    rw [text (by decide)]
    exact { h.member_alike _ rfl parameters certainly with accessibility := rfl }
  | operator =>
    rw [text (by decide)]
    exact { h.member_alike _ rfl parameters certainly with isStatic := rfl }
  | conversion =>
    dsimp only
    rw [h.direction_eq, twin.phrase_eq]
    exact { h.member_alike _ rfl parameters certainly with isStatic := rfl }

theorem bindProperty?_alike (h : Twin s s' c c') {form : PropertyForm}
    (kind : c.kind = .property form) :
    Option.Rel (Symbol.Alike (TightNames s c)) (c.bindProperty? s form) (c'.bindProperty? s' form) := by
  have node := h.place.node
  have node_kind : c.node.kind = .property form := kind
  apply rel_optionMap (node.propertyName? form)
  intro t t' found twin
  have text : form ≠ .indexer → t.text s = t'.text s' := by
    intro other
    apply node.nameText_eq twin
    unfold Node.nameNodes
    rw [node_kind]
    cases form <;> first | contradiction | (dsimp only; rw [found]; exact List.mem_cons_self)
  cases form with
  | property | event =>
    rw [text (by decide)]
    exact h.plainMember_alike _ rfl _
  | indexer =>
    obtain ⟨alike, same⟩ := node.parameters_alike
    exact h.member_alike _ rfl (.some alike) fun tight => by rw [same tight]

theorem bindEnumMember?_alike (h : Twin s s' c c') (kind : c.kind = .enumMember) (certain : Prop) :
    Option.Rel (Symbol.Alike certain) (c.bindEnumMember? s) (c'.bindEnumMember? s') := by
  have node := h.place.node
  apply rel_optionMap node.name?
  intro t t' found twin
  have named : t ∈ c.node.nameNodes := by
    unfold Node.nameNodes
    rw [show c.node.kind = _ from kind, found]
    exact List.mem_cons_self
  rw [node.nameText_eq twin named]
  exact { h.plainMember_alike (.field .enumMember) rfl certain with
    accessibility := rfl, isStatic := rfl }

theorem statement? (h : Twin s s' c c') :
    Option.Rel (fun x y => Twin s s' x.1 y.1 ∧ x.2 = y.2) c.statement? c'.statement? := by
  unfold Cursor.statement?
  rcases rel_cases h.parent? with ⟨none, none'⟩ | ⟨d, d', found, found', declaration⟩
  · rw [none, none']
    exact .none
  · rw [found, found']
    simp only [Option.bind_eq_bind, Option.bind_some]
    rw [declaration.kind_eq]
    split
    · rcases rel_cases declaration.parent? with ⟨none, none'⟩ | ⟨e, e', found, found', statement⟩
      · rw [none, none']
        exact .none
      · rw [found, found']
        simp only [Option.bind_some]
        rw [statement.kind_eq]
        split
        · exact .some ⟨statement, rfl⟩
        · exact .none
    · exact .none

theorem bindVariable?_alike (h : Twin s s' c c') (kind : c.kind = .variableDeclarator)
    (certain : Prop) :
    Option.Rel (Symbol.Alike certain) (c.bindVariable? s) (c'.bindVariable? s') := by
  have node := h.place.node
  unfold bindVariable?
  rcases rel_cases node.name? with ⟨none, none'⟩ | ⟨t, t', found, found', twin⟩
  · rw [none, none']
    exact .none
  · have named : t ∈ c.node.nameNodes := by
      unfold Node.nameNodes
      rw [show c.node.kind = _ from kind, found]
      exact List.mem_cons_self
    rw [found, found']
    rcases rel_cases h.statement? with ⟨none, none'⟩ | ⟨⟨e, form⟩, ⟨e', form'⟩, some, some', alike⟩
    · rw [none, none']
      exact .none
    · obtain ⟨statement, rfl⟩ := alike
      rw [some, some']
      simp only [Option.bind_eq_bind, Option.bind_some]
      rw [statement.place.node.modifiers_eq, statement.defaultMemberAccessibility_eq,
        statement.isStatic_eq, statement.containers_eq, node.nameText_eq twin named]
      exact .some (.refl certain _)

/-- Corresponding cursors bind to symbols that are alike, or both to none. -/
theorem bind?_alike (h : Twin s s' c c') :
    Option.Rel (Symbol.Alike (TightNames s c)) (c.bind? s) (c'.bind? s') := by
  unfold bind?
  rw [← h.kind_eq]
  cases kind : c.kind with
  | «namespace» form => exact h.bindNamespace?_alike kind _
  | type form =>
    dsimp only
    rw [h.typeKind_eq]
    apply h.bindType?_alike
    intro t found
    unfold Node.nameNodes
    rw [show c.node.kind = _ from kind]
    exact Option.mem_toList.2 found
  | delegate =>
    apply h.bindType?_alike
    intro t found
    unfold Node.nameNodes
    rw [show c.node.kind = _ from kind]
    exact Option.mem_toList.2 found
  | method form => exact h.bindMethod?_alike kind
  | property form => exact h.bindProperty?_alike kind
  | enumMember => exact h.bindEnumMember?_alike kind _
  | variableDeclarator => exact h.bindVariable?_alike kind _
  | _ => exact .none

end Binding

end Twin
end Cursor
end Syntax
end CodeAtlas
