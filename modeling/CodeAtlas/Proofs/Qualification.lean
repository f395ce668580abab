import CodeAtlas.Proofs.Members

/-!
Qualified names follow nesting. The names around a declaration are read upwards from its node, and
the outline is built downwards from the root; in a tree as the grammar has it, the two agree: what
stands around a member is what stands around its container and then the container itself.
-/
namespace CodeAtlas
open Syntax

namespace Syntax
namespace Cursor
variable (source : SourceText)

theorem topmost_child {c d : Cursor} (h : d ∈ c.children) (deep : c.above ≠ []) :
    d.topmost = c.topmost := by
  obtain ⟨p, above, e⟩ := List.exists_cons_of_ne_nil deep
  simp only [topmost, (child_place h).2, e, List.dropLast_cons_cons]
  cases above <;> simp [List.getLast?_cons]

theorem topmost_top {c d : Cursor} (h : d ∈ c.children) (top : c.above = []) :
    d.topmost = d.toPlace := by
  simp [topmost, (child_place h).2, top]

theorem above_child {c d : Cursor} (h : d ∈ c.children) : d.above ≠ [] := by
  rw [(child_place h).2]
  simp

theorem containers_child {c d : Cursor} (h : d ∈ c.children) (deep : c.above ≠ []) :
    d.containers source = c.containers source ++ c.node.scope source := by
  rw [containers, containers, fileNamespace?, fileNamespace?, topmost_child h deep,
    (child_place h).2]
  simp

theorem scope_eq_nil {c : Cursor} (plain : c.opensScope = false) : c.node.scope source = [] := by
  unfold opensScope kind at plain
  unfold Node.scope
  split
  · next _ _ kind _ => simp [kind, NodeKind.isType] at plain
  · next _ _ kind _ => simp [kind, NodeKind.isNamespace] at plain
  · rfl

theorem containers_top {c d : Cursor} (h : d ∈ c.children) (top : c.above = [])
    (plain : c.opensScope = false) :
    d.containers source = (d.fileNamespace?.map (Node.scope source)).getD [] := by
  rw [containers, (child_place h).2, top]
  simp [scope_eq_nil source plain]

theorem fileNamespace?_self {c s : Cursor} (h : s ∈ c.children) (top : c.above = [])
    (kind : s.kind = .namespace .fileScoped) : s.fileNamespace? = none := by
  unfold Cursor.kind at kind
  rw [fileNamespace?, topmost_top h top, if_pos (by simp [kind])]

theorem fileNamespace?_following {c s x : Cursor} (h : s ∈ c.children) (top : c.above = [])
    (named : s.node.isNamed) (kind : s.kind = .namespace .fileScoped) (later : x ∈ s.following)
    (only : ∀ e ∈ s.following, e.kind ≠ .namespace .fileScoped) :
    x.fileNamespace? = some s.node := by
  obtain ⟨between, split, sides⟩ := following_split later
  have place := topmost_top (following_child h later) top
  have skipped : (between.map fun e => e.node).reverse.find?
      (fun n => n.isNamed && n.kind == .namespace .fileScoped) = none := by
    rw [List.find?_eq_none]
    intro n hn
    obtain ⟨e, he, rfl⟩ := List.mem_map.1 (List.mem_reverse.1 hn)
    have other := only e (by rw [split]; exact List.mem_append_left _ he)
    simp only [Cursor.kind] at other
    simp [other]
  have other := only x later
  simp only [Cursor.kind] at other kind
  rw [fileNamespace?, place, if_neg (by simpa using other), sides, List.find?_append, skipped,
    Option.none_or, List.find?_cons_of_pos (by simp [named, kind])]

theorem takeThrough_front {α : Type} {p : α → Bool} {front back : List α} {a : α}
    (taken : a ∈ takeThrough p (front ++ a :: back)) (fresh : a ∉ front) :
    ∀ e ∈ front, p e = false := by
  induction front with
  | nil => simp
  | cons b front ih =>
    rw [List.mem_cons, not_or] at fresh
    rw [List.cons_append, takeThrough] at taken
    split at taken
    · exact absurd (List.mem_singleton.1 taken) fresh.1
    · next unmet =>
      intro e member
      rcases List.mem_cons.1 member with rfl | member
      · simpa using unmet
      · exact ih ((List.mem_cons.1 taken).resolve_left fresh.1) fresh.2 e member

theorem fileNamespace?_root {n : Node} {c : Cursor} (h : c ∈ rootMembers (root n)) :
    c.fileNamespace? = none := by
  obtain ⟨child, named⟩ := List.mem_filter.1 ((takeThrough_sublist _ _).subset h)
  obtain ⟨earlier, split, sides⟩ := children_split child
  have fresh : c ∉ earlier.filter (·.node.isNamed) := by
    intro repeated
    -- `c` would stand before itself
    have order := (root n).children_disjoint
    rw [split] at order
    have apart := (List.pairwise_append.1 order).2.2 c (List.mem_filter.1 repeated).1 c
      List.mem_cons_self
    have := c.node.size_pos
    omega
  rw [rootMembers, namedChildren, split, List.filter_append,
    List.filter_cons_of_pos (p := fun c : Cursor => c.node.isNamed) named] at h
  have before := takeThrough_front h fresh
  rw [fileNamespace?, topmost_top child rfl]
  split
  · rfl
  · rw [sides, List.find?_eq_none]
    intro m hm
    obtain ⟨e, he, rfl⟩ := List.mem_map.1 (List.mem_reverse.1 hm)
    intro found
    obtain ⟨eNamed, eKind⟩ := Bool.and_eq_true_iff.1 found
    have unmet := before e (List.mem_filter.2 ⟨he, eNamed⟩)
    rw [Cursor.kind, eKind] at unmet
    exact Bool.noConfusion unmet

end Cursor
end Syntax

namespace Document

/-- Trees as the grammar has them: neither the root nor a body is a type or a namespace, and there is
at most one file-scoped namespace, which is a child of the root. -/
structure Grammatical (d : Document) : Prop where
  root : (Cursor.root d.root).opensScope = false
  body : ∀ c ∈ Cursor.all d.root, c.opensScope → c.kind ≠ .namespace .fileScoped →
    ∀ b ∈ c.body?, b.opensScope = false
  child : ∀ c ∈ Cursor.all d.root, c.kind = .namespace .fileScoped → c.above.length = 1
  single : ∀ a ∈ Cursor.all d.root, ∀ b ∈ Cursor.all d.root, a.kind = .namespace .fileScoped →
    b.kind = .namespace .fileScoped → a.row = b.row

variable {d : Document}

theorem containers_root (grammar : d.Grammatical) {c : Cursor} (h : c ∈ d.rootMembers) :
    c.containers d.source = [] := by
  have child := (List.mem_filter.1 (rootMembers_subset h)).1
  rw [Cursor.containers_top d.source child rfl grammar.root, Cursor.fileNamespace?_root h]
  rfl

theorem child_of_root {c : Cursor} (h : c ∈ Cursor.all d.root) (depth : c.above.length = 1) :
    c ∈ (Cursor.root d.root).children := by
  rcases Cursor.mem_all_iff.1 h with rfl | ⟨p, hp, child⟩
  · simp [Cursor.root] at depth
  · have top : p.above = [] := by simpa [(Cursor.child_place child).2] using depth
    rcases Cursor.mem_all_iff.1 hp with rfl | ⟨q, _, inner⟩
    · exact child
    · exact absurd top (Cursor.above_child inner)

theorem containers_member (grammar : d.Grammatical) {c m : Cursor} (reached : d.tree.Reached d.model c)
    (member : m ∈ d.tree.entered d.model c) :
    m.containers d.source = c.containers d.source ++ c.node.scope d.source := by
  obtain ⟨place, named⟩ := reached_mem_all reached
  obtain ⟨_, _, above⟩ := reached_child reached
  have deep := Cursor.above_child above
  have member := SyntaxTree.mem_members_of_entered _ _ member
  change m ∈ c.classify.members at member
  rcases c.members_shape with none | ⟨b, body, scope, kind, shape⟩ | ⟨kind, shape⟩
  · simp [none] at member
  · rw [shape] at member
    have inner := Cursor.body?_mem body
    have plain := grammar.body c place scope kind b body
    rw [Cursor.containers_child d.source (List.mem_filter.1 member).1 (Cursor.above_child inner),
      Cursor.containers_child d.source inner deep, Cursor.scope_eq_nil d.source plain,
      List.append_nil]
  · rw [shape] at member
    rcases List.mem_append.1 member with hm | hm
    · exact Cursor.containers_child d.source (List.mem_filter.1 hm).1 deep
    -- a later sibling is not below `c`: it finds `c` as the file-scoped namespace before it, and
    -- with a single such namespace it can find no other
    · have later := (List.mem_filter.1 hm).1
      have child := child_of_root place (grammar.child c place kind)
      have only : ∀ e ∈ c.following, e.kind ≠ .namespace .fileScoped := by
        intro e he same
        have rows := grammar.single c place e (Cursor.following_mem_all place he) kind same
        have := (Cursor.row_later he).1
        have := c.node.size_pos
        omega
      have outer : c.containers d.source = [] := by
        rw [Cursor.containers_top d.source child rfl grammar.root,
          Cursor.fileNamespace?_self child rfl kind]
        rfl
      rw [Cursor.containers_top d.source (Cursor.following_child child later) rfl grammar.root,
        Cursor.fileNamespace?_following child rfl named kind later only, outer]
      rfl

end Document

namespace Symbol
variable (f : DisplayFormat)

theorem renderContainers_append (a b : List NamePart) :
    renderContainers f (a ++ b) = renderContainers f a ++ renderContainers f b := by
  unfold renderContainers
  split
  · rfl
  · exact List.flatMap_append

theorem render_plain (name : List Char) : (NamePart.plain name).render f = name := by
  simp [NamePart.render, NamePart.plain]

theorem renderContainers_segments (h : f.qualification = .nameAndContainers)
    {segments : List (List Char)} (some : segments ≠ []) :
    renderContainers f (segments.map NamePart.plain) = ['.'].intercalate segments ++ ['.'] := by
  simp only [renderContainers, h, List.flatMap_map, render_plain]
  induction segments with
  | nil => exact absurd rfl some
  | cons a rest ih =>
    cases rest with
    | nil => simp [List.intercalate]
    | cons b rest =>
      rw [List.flatMap_cons, ih (by simp)]
      simp [List.intercalate]

theorem intercalate_segments (h : f.qualification = .nameAndContainers)
    {segments : List (List Char)} (some : segments ≠ []) :
    renderContainers f (segments.dropLast.map NamePart.plain) ++ segments.getLast?.getD [] =
      ['.'].intercalate segments := by
  have dotted := renderContainers_segments f h some
  have last : segments.getLast?.getD [] = segments.getLast some := by
    rw [List.getLast?_eq_some_getLast some, Option.getD_some]
  conv at dotted => lhs; rw [← List.dropLast_append_getLast some]
  rw [List.map_append, renderContainers_append, List.map_singleton] at dotted
  rw [last]
  refine (List.append_left_inj ['.']).1 ?_
  rw [← dotted]
  simp [renderContainers, h, render_plain]

theorem renderOwn_named {s : Symbol} {part : NamePart} (own : s.name = .named part)
    (parameters : s.parameters = none) : s.renderOwn f = part.render f := by
  obtain ⟨qualification, typeParameters, variance, style⟩ := f
  obtain ⟨category, accessibility, isStatic, containers, name, list⟩ := s
  subst own parameters
  cases style <;> exact List.append_nil _

theorem renderOwn_nameOnly (s : Symbol) :
    s.render { f with qualification := .nameOnly } = s.renderOwn f := by
  cases s with
  | mk category accessibility isStatic containers name parameters => cases name <;> rfl

end Symbol

namespace Syntax
namespace Cursor
variable {source : SourceText} {c : Cursor} {s : Symbol}

theorem bind?_type {form : TypeForm} (kind : c.kind = .type form)
    (h : c.bind? source = some s) :
    ∃ name, c.node.name? = some name ∧ s.containers = c.containers source ∧
      s.name = .named ⟨name.text source, c.node.typeParameters source⟩ ∧ s.parameters = none := by
  simp only [bind?, kind, bindType?, Option.map_eq_some_iff] at h
  obtain ⟨name, found, rfl⟩ := h
  exact ⟨name, found, rfl, rfl, rfl⟩

theorem bind?_namespace {form : NamespaceForm} (kind : c.kind = .namespace form)
    (h : c.bind? source = some s) :
    ∃ name, c.node.name? = some name ∧
      s.containers = c.containers source ++
        (name.segments source).dropLast.map NamePart.plain ∧
      s.name = .named (.plain ((name.segments source).getLast?.getD [])) ∧
      s.parameters = none := by
  simp only [bind?, kind, bindNamespace?, Option.map_eq_some_iff] at h
  obtain ⟨name, found, rfl⟩ := h
  exact ⟨name, found, rfl, rfl, rfl⟩

theorem containers_single {form : SingleForm} {head : Head Cursor}
    (single : c.classify = .single form head) (h : c.bind? source = some s) :
    s.containers = c.containers source := by
  unfold classify at single
  split at single <;> simp only [Declaration.single.injEq, reduceCtorEq] at single
  · next kind =>
    simp only [bind?, kind, bindType?, Option.map_eq_some_iff] at h
    obtain ⟨_, _, rfl⟩ := h
    rfl
  · next kind =>
    simp only [bind?, kind, bindEnumMember?, Option.map_eq_some_iff] at h
    obtain ⟨_, _, rfl⟩ := h
    rfl
  · next form kind =>
    simp only [bind?, kind, bindMethod?, Option.map_eq_some_iff] at h
    obtain ⟨_, _, rfl⟩ := h
    cases form <;> simp only [member]
    split <;> rfl
  · next form kind =>
    simp only [bind?, kind, bindProperty?, Option.map_eq_some_iff] at h
    obtain ⟨_, _, rfl⟩ := h
    cases form <;> rfl

theorem containers_declarator {form : FieldForm} {v : Declarator Cursor}
    (kind : c.kind = .field form) (listed : v ∈ c.declarators)
    (h : v.node.bind? source = some s) : s.containers = c.containers source := by
  obtain ⟨vKind, statement, _⟩ := declarator_spec kind listed
  simp only [bind?, vKind, bindVariable?, statement, Option.bind_eq_bind, Option.bind_some,
    Option.bind_eq_some_iff] at h
  obtain ⟨_, _, e⟩ := h
  rw [← Option.some.inj e]

end Cursor
end Syntax

namespace Document
open CodeAtlas.Symbol
variable {d : Document} {f : DisplayFormat} {n : Cursor} {r : Resolved Cursor}

/-- What a declaration adds to the names around it: its display without containers, and for a
namespace all segments of its name. -/
def ownName (d : Document) (f : DisplayFormat) (r : Resolved Cursor) : String :=
  match r.form, r.head.node.node.name? with
  | .container .namespace, some name =>
    String.ofList (['.'].intercalate (name.segments d.source))
  | _, _ => r.symbol.display { f with qualification := .nameOnly }

theorem symbol_of_model {symbol : BoundSymbol} (h : d.model n = some symbol) :
    ∃ s, n.bind? d.source = some s ∧ symbol = s.toBound := by
  obtain ⟨s, bound, rfl⟩ := Option.map_eq_some_iff.1 h
  exact ⟨s, bound, rfl⟩

theorem segments_ne_nil (source : SourceText) (name : Node) : name.segments source ≠ [] := by
  intro none
  exact Text.pieces_ne_nil '.' _ (List.map_eq_nil_iff.1 none)

theorem display_of_containers {s : Symbol} {containers : List NamePart}
    (h : s.containers = containers) :
    s.toBound.display f = String.ofList (renderContainers f containers) ++
      s.toBound.display { f with qualification := .nameOnly } := by
  change String.ofList (s.render f) = _ ++ String.ofList (s.render _)
  rw [renderOwn_nameOnly, ← String.ofList_append, render, h]

theorem opensScope_cases (h : n.opensScope) :
    (∃ form, n.kind = .type form) ∨ ∃ form, n.kind = .namespace form := by
  unfold Cursor.opensScope at h
  cases kind : n.kind with
  | type form => exact Or.inl ⟨form, rfl⟩
  | «namespace» form => exact Or.inr ⟨form, rfl⟩
  | _ => simp [kind, NodeKind.isType, NodeKind.isNamespace] at h

theorem render_type {form : TypeForm} {s : Symbol} (hf : f.qualification = .nameAndContainers)
    (kind : n.kind = .type form) (binds : n.bind? d.source = some s) :
    s.render f ++ ['.'] = renderContainers f (n.containers d.source ++ n.node.scope d.source) := by
  obtain ⟨name, found, containers, own, parameters⟩ := Cursor.bind?_type kind binds
  have scope : n.node.scope d.source =
      [⟨name.text d.source, n.node.typeParameters d.source⟩] := by
    unfold Cursor.kind at kind
    simp [Node.scope, kind, found]
  rw [render, containers, renderContainers_append, scope, renderOwn_named f own parameters]
  simp [renderContainers, hf]

theorem render_namespace {form : NamespaceForm} {s : Symbol}
    (hf : f.qualification = .nameAndContainers) (kind : n.kind = .namespace form)
    (binds : n.bind? d.source = some s) :
    ∃ name, n.node.name? = some name ∧
      n.node.scope d.source = (name.segments d.source).map NamePart.plain ∧
      s.render f = renderContainers f (n.containers d.source) ++
        ['.'].intercalate (name.segments d.source) := by
  obtain ⟨name, found, containers, own, parameters⟩ := Cursor.bind?_namespace kind binds
  refine ⟨name, found, ?_, ?_⟩
  · unfold Cursor.kind at kind
    simp [Node.scope, kind, found]
  · rw [render, containers, renderContainers_append, List.append_assoc,
      renderOwn_named f own parameters, render_plain,
      intercalate_segments f hf (segments_ne_nil d.source name)]

theorem display_declared (hf : f.qualification = .nameAndContainers)
    (declares : d.tree.Declares d.model n r) :
    r.symbol.display f =
      String.ofList (renderContainers f (n.containers d.source)) ++ d.ownName f r := by
  cases declares with
  | @container form head members symbol form_eq bound =>
    obtain ⟨rfl, namespace_iff, scope, _⟩ := Cursor.classify_container form_eq
    obtain ⟨s, binds, rfl⟩ := symbol_of_model bound
    change n.bind? d.source = some s at binds
    rcases opensScope_cases scope with ⟨tForm, kind⟩ | ⟨nForm, kind⟩
    · obtain ⟨_, _, containers, _⟩ := Cursor.bind?_type kind binds
      have other : form ≠ .namespace := by simp [namespace_iff, kind, NodeKind.isNamespace]
      cases form with
      | type | enum => exact display_of_containers containers
      | «namespace» => exact absurd rfl other
    · obtain ⟨name, found, _, shown⟩ := render_namespace hf kind binds
      have same : form = .namespace := by simp [namespace_iff, kind, NodeKind.isNamespace]
      subst same
      have own : d.ownName f (.mk (.container .namespace) (n.head n.node.name?) s.toBound
          (d.tree.resolveAll d.model members).found) =
          String.ofList (['.'].intercalate (name.segments d.source)) := by
        simp [ownName, Resolved.form, Resolved.head, Cursor.head, found]
      rw [own, ← String.ofList_append, ← shown]
      rfl
  | single form_eq bound =>
    obtain ⟨name, rfl, _⟩ := Cursor.classify_single form_eq
    obtain ⟨s, binds, rfl⟩ := symbol_of_model bound
    exact display_of_containers (Cursor.containers_single form_eq binds)
  | declarator form_eq listed bound =>
    obtain ⟨⟨form, kind⟩, rfl⟩ := Cursor.classify_fields form_eq
    obtain ⟨s, binds, rfl⟩ := symbol_of_model bound
    exact display_of_containers (Cursor.containers_declarator kind listed binds)

/-- What stands around a member of a container is the display of the container and a dot. -/
theorem display_container (hf : f.qualification = .nameAndContainers)
    (declares : d.tree.Declares d.model n r) (container : d.tree.entered d.model n ≠ []) :
    r.symbol.display f ++ "." =
      String.ofList (renderContainers f (n.containers d.source ++ n.node.scope d.source)) := by
  have dot : "." = String.ofList ['.'] := rfl
  cases declares with
  | @container form head members symbol form_eq bound =>
    obtain ⟨rfl, _, scope, _⟩ := Cursor.classify_container form_eq
    obtain ⟨s, binds, rfl⟩ := symbol_of_model bound
    change n.bind? d.source = some s at binds
    change String.ofList (s.render f) ++ "." = _
    rw [dot, ← String.ofList_append]
    rcases opensScope_cases scope with ⟨tForm, kind⟩ | ⟨nForm, kind⟩
    · rw [render_type hf kind binds]
    · obtain ⟨name, _, names, shown⟩ := render_namespace hf kind binds
      rw [shown, names, renderContainers_append, List.append_assoc,
        renderContainers_segments f hf (segments_ne_nil d.source name)]
  | single form_eq | declarator form_eq =>
    exact absurd (by simp [SyntaxTree.entered, form_eq]) container

/-- The elements of an outline stand where the declarations stand that they show. The qualified name
of a declaration at the top is its own name, and that of any other is the qualified name of its
parent, a dot, and its own name. -/
theorem display_follows_nesting (d : Document) (grammar : d.Grammatical) (f : DisplayFormat)
    (hf : f.qualification = .nameAndContainers) :
    (∀ naming above e, Element.Placed (d.outline naming).elements above e ↔
      ∃ parent r, Resolved.Placed (d.tree.resolution d.model).found parent r ∧
        above = parent.map (Resolved.element naming d.source) ∧
        e = Resolved.element naming d.source r) ∧
    ∀ parent r, Resolved.Placed (d.tree.resolution d.model).found parent r →
      r.symbol.display f =
        match parent with
        | none => d.ownName f r
        | some p => p.symbol.display f ++ "." ++ d.ownName f r := by
  refine ⟨fun naming _ _ => Resolved.placed_elements_iff naming d.source, ?_⟩
  intro parent r placed
  obtain ⟨n, reached, declares, place⟩ := SyntaxTree.declares_of_placed placed
  rw [display_declared hf declares]
  cases parent with
  | none =>
    rw [containers_root grammar place]
    unfold renderContainers
    simp [hf]
  | some p =>
    obtain ⟨m, mReached, mDeclares, member⟩ := place
    rw [containers_member grammar mReached member,
      ← display_container hf mDeclares (List.ne_nil_of_mem member)]

theorem genericClass_field_display :
    ∃ p r, Resolved.Placed (genericClass.tree.resolution genericClass.model).found (some p) r ∧
      r.symbol.display .fullType =
        p.symbol.display .fullType ++ "." ++ genericClass.ownName .fullType r ∧
      p.symbol.display .fullType = "A.B.C<T>" ∧ genericClass.ownName .fullType r = "x" := by
  have grammar : genericClass.Grammatical := by
    constructor <;> decide +kernel
  let forest := (genericClass.tree.resolution genericClass.model).found
  let outer := forest.head (List.isEmpty_eq_false_iff.1 (by decide +kernel))
  let inner := outer.members.head (List.isEmpty_eq_false_iff.1 (by decide +kernel))
  let field := inner.members.head (List.isEmpty_eq_false_iff.1 (by decide +kernel))
  have placed : Resolved.Placed forest (some inner) field :=
    .member (.member (.top (List.head_mem _)) (List.head_mem _)) (List.head_mem _)
  exact ⟨inner, field, placed,
    (display_follows_nesting genericClass grammar .fullType rfl).2 (some inner) field placed,
    by decide +kernel, by decide +kernel⟩

end Document
end CodeAtlas
