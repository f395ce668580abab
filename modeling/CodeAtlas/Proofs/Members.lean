import CodeAtlas.Document
import CodeAtlas.Proofs.Cursor
import CodeAtlas.Proofs.Resolution

/-!
What nodes are as declarations: what names them, where their members stand, and which cursors the
outline of a document comes to.
-/
namespace CodeAtlas
namespace Syntax

namespace Node

theorem mem_of_filter_or {a b : Option Node} {p : Node → Bool} {m : Node}
    (h : (a.or b).filter p = some m) : a = some m ∨ b = some m := by
  have found := (Option.filter_eq_some_iff.1 h).1
  rcases Option.or_eq_some_iff.1 found with first | ⟨_, second⟩
  · exact Or.inl first
  · exact Or.inr second

theorem withRole?_mem {n m : Node} {role : Role} (h : n.withRole? role = some m) :
    m ∈ n.children := List.mem_of_find?_eq_some h

theorem ofKind?_mem {n m : Node} {kind : NodeKind} (h : n.ofKind? kind = some m) :
    m ∈ n.children := List.mem_of_find?_eq_some h

theorem afterOperator?_mem {n m : Node} (h : n.afterOperator? = some m) : m ∈ n.children := by
  have rest := List.mem_of_find?_eq_some h
  exact (List.dropWhile_sublist _).subset (List.mem_of_mem_drop rest)

theorem name?_mem {n m : Node} (h : n.name? = some m) : m ∈ n.children := by
  rcases mem_of_filter_or h with first | second
  · exact withRole?_mem first
  · exact ofKind?_mem second

theorem methodName?_mem {n m : Node} {form : MethodForm} (h : n.methodName? form = some m) :
    m ∈ n.children := by
  cases form with
  | operator | conversion =>
    rcases mem_of_filter_or h with first | second
    · exact withRole?_mem first
    · exact afterOperator?_mem second
  | method | constructor | destructor => exact name?_mem h

theorem propertyName?_mem {n m : Node} {form : PropertyForm} (h : n.propertyName? form = some m) :
    m ∈ n.children := by
  cases form with
  | indexer => exact ofKind?_mem (Option.filter_eq_some_iff.1 h).1
  | property | event => exact name?_mem h

end Node

namespace Cursor

theorem takeThrough_sublist {α : Type} (p : α → Bool) (l : List α) :
    (takeThrough p l).Sublist l := by
  induction l with
  | nil => exact List.Sublist.refl _
  | cons a rest ih =>
    rw [takeThrough]
    split
    · exact List.singleton_sublist.2 List.mem_cons_self
    · exact ih.cons_cons a

theorem takeThrough_pairwise {α : Type} {R : α → α → Prop} {p : α → Bool} {l : List α}
    (h : l.Pairwise R) : (takeThrough p l).Pairwise fun a b => p a = false ∧ R a b := by
  induction l with
  | nil => exact List.Pairwise.nil
  | cons a rest ih =>
    obtain ⟨first, later⟩ := List.pairwise_cons.1 h
    rw [takeThrough]
    split
    · exact List.pairwise_singleton _ _
    · next unmet =>
      refine List.pairwise_cons.2 ⟨?_, ih later⟩
      intro b hb
      exact ⟨by simpa using unmet, first b ((takeThrough_sublist p rest).subset hb)⟩

def opensScope (c : Cursor) : Bool := c.kind.isType || c.kind.isNamespace

theorem classify_container {c : Cursor} {form : ContainerForm} {head : Head Cursor}
    {members : List Cursor} (h : c.classify = .container form head members) :
    head = c.head c.node.name? ∧ (form = .namespace ↔ c.kind.isNamespace) ∧ c.opensScope ∧
      members = if c.kind = .namespace .fileScoped then c.fileMembers else c.bodyMembers := by
  unfold classify at h
  split at h <;> simp_all [NodeKind.isNamespace, NodeKind.isType, opensScope] <;> grind

theorem container_node {c : Cursor} {form : ContainerForm} {head : Head Cursor}
    {members : List Cursor} (h : c.classify = .container form head members) : head.node = c := by
  rw [(classify_container h).1]
  rfl

/-- The members of a node, if it has any, are in the body of a type or block namespace, or in and
after a file-scoped namespace. -/
theorem members_shape (c : Cursor) :
    c.classify.members = [] ∨
      (∃ b, c.body? = some b ∧ c.opensScope ∧ c.kind ≠ .namespace .fileScoped ∧
        c.classify.members = b.namedChildren) ∨
      (c.kind = .namespace .fileScoped ∧ c.classify.members = c.fileMembers) := by
  cases h : c.classify with
  | container form head members =>
    obtain ⟨_, _, scope, shape⟩ := classify_container h
    change members = [] ∨ (∃ b, _ ∧ _ ∧ _ ∧ members = _) ∨ (_ ∧ members = _)
    split at shape
    · next kind => exact Or.inr (Or.inr ⟨kind, shape⟩)
    · next kind =>
      rw [bodyMembers] at shape
      cases found : c.body? with
      | none => exact Or.inl (by simpa [found] using shape)
      | some b => exact Or.inr (Or.inl ⟨b, rfl, scope, kind, by simpa [found] using shape⟩)
  | single | fields | other => exact Or.inl rfl

theorem pair_sublist_named {l earlier : List Cursor} {s x : Cursor}
    (split : l = earlier ++ s :: s.following) (named : s.node.isNamed)
    (later : x ∈ s.namedFollowing) : [s, x].Sublist (l.filter (·.node.isNamed)) := by
  have kept : (s :: s.following).filter (·.node.isNamed) = s :: s.namedFollowing :=
    List.filter_cons_of_pos (p := fun c : Cursor => c.node.isNamed) named
  rw [split, List.filter_append, kept]
  refine List.Sublist.trans ?_ (List.sublist_append_right _ _)
  exact (List.singleton_sublist.2 later).cons_cons s

theorem pair_sublist_namedChildren {c s x : Cursor} (member : s ∈ c.namedChildren)
    (later : x ∈ s.namedFollowing) : [s, x].Sublist c.namedChildren := by
  obtain ⟨child, named⟩ := List.mem_filter.1 member
  obtain ⟨earlier, split, _⟩ := children_split child
  exact pair_sublist_named split named later

theorem pair_sublist_members {c s x : Cursor} (member : s ∈ c.classify.members)
    (later : x ∈ s.namedFollowing) : [s, x].Sublist c.classify.members := by
  rcases c.members_shape with none | ⟨b, _, _, _, shape⟩ | ⟨_, shape⟩
  · simp [none] at member
  · rw [shape] at member ⊢
    exact pair_sublist_namedChildren member later
  · rw [shape] at member ⊢
    rcases List.mem_append.1 member with hs | hs
    · exact (pair_sublist_namedChildren hs later).trans (List.sublist_append_left _ _)
    · obtain ⟨sibling, named⟩ := List.mem_filter.1 hs
      obtain ⟨between, split, _⟩ := following_split sibling
      exact (pair_sublist_named split named later).trans (List.sublist_append_right _ _)

theorem classify_single {c : Cursor} {form : SingleForm} {head : Head Cursor}
    (h : c.classify = .single form head) :
    ∃ name : Option Node, head = c.head name ∧ ∀ n ∈ name, n ∈ c.node.children := by
  unfold classify at h
  split at h <;> simp only [Declaration.single.injEq, reduceCtorEq] at h
  · exact ⟨_, h.2.symm, fun n hn => Node.name?_mem hn⟩
  · exact ⟨_, h.2.symm, fun n hn => Node.name?_mem hn⟩
  · exact ⟨_, h.2.symm, fun n hn => Node.methodName?_mem hn⟩
  · exact ⟨_, h.2.symm, fun n hn => Node.propertyName?_mem hn⟩

theorem classify_fields {c : Cursor} {statement : FieldStatement Cursor}
    (h : c.classify = .fields statement) :
    (∃ form, c.kind = .field form) ∧
      statement = ⟨c.node.attributes?, c.node.span, c.declarators⟩ := by
  unfold classify at h
  split at h <;> simp only [Declaration.fields.injEq, reduceCtorEq] at h
  next form kind => exact ⟨⟨form, kind⟩, h.symm⟩

theorem declarators_eq (c : Cursor) :
    c.declarators = [] ∨ ∃ declaration ∈ c.children,
      declaration.kind = .variableDeclaration ∧
        c.declarators = (declaration.namedChildren.filter fun d =>
          d.kind == .variableDeclarator).map fun d =>
            ⟨d, d.node.span, d.node.name?.map Node.span⟩ := by
  rw [declarators]
  cases found : c.children.find? fun d => d.kind == .variableDeclaration with
  | none => left; simp
  | some declaration =>
    right
    have kind := List.find?_some found
    exact ⟨declaration, List.mem_of_find?_eq_some found, by simpa using kind, by simp⟩

/-- A listed declarator finds its way back to the statement that lists it. -/
theorem declarator_spec {c : Cursor} {form : FieldForm} {v : Declarator Cursor}
    (kind : c.kind = .field form) (listed : v ∈ c.declarators) :
    v.node.kind = .variableDeclarator ∧ v.node.statement? = some (c, form) ∧
      v.name = v.node.node.name?.map Node.span ∧ v.node.parent?.bind parent? = some c := by
  rcases c.declarators_eq with none | ⟨declaration, child, dKind, eq⟩
  · simp [none] at listed
  · rw [eq] at listed
    obtain ⟨d, hd, rfl⟩ := List.mem_map.1 listed
    obtain ⟨hd, vKind⟩ := List.mem_filter.1 hd
    have inner := parent?_child (List.mem_filter.1 hd).1
    have outer := parent?_child child
    refine ⟨eq_of_beq vKind, ?_, rfl, ?_⟩
    · simp [statement?, inner, dKind, outer, kind]
    · rw [inner, Option.bind_some, outer]

theorem members_mem_all {n : Node} {c m : Cursor} (h : c ∈ all n)
    (member : m ∈ c.classify.members) : m ∈ all n ∧ m.node.isNamed := by
  have child : ∀ {p : Cursor}, p ∈ all n → m ∈ p.namedChildren → m ∈ all n ∧ m.node.isNamed := by
    intro p hp hm
    obtain ⟨hm, named⟩ := List.mem_filter.1 hm
    exact ⟨child_mem_all hp hm, named⟩
  rcases c.members_shape with none | ⟨b, body, _, _, shape⟩ | ⟨_, shape⟩
  · simp [none] at member
  · rw [shape] at member
    exact child (child_mem_all h (body?_mem body)) member
  · rw [shape] at member
    rcases List.mem_append.1 member with hm | hm
    · exact child h hm
    · obtain ⟨hm, named⟩ := List.mem_filter.1 hm
      exact ⟨following_mem_all h hm, named⟩

end Cursor
end Syntax

namespace Document
open Syntax

theorem rootMembers_subset {d : Document} {c : Cursor} (h : c ∈ d.rootMembers) :
    c ∈ (Cursor.root d.root).namedChildren := (Cursor.takeThrough_sublist _ _).subset h

theorem reached_mem_all {d : Document} {c : Cursor} (reached : d.tree.Reached d.model c) :
    c ∈ Cursor.all d.root ∧ c.node.isNamed := by
  induction reached with
  | root h =>
    obtain ⟨child, named⟩ := List.mem_filter.1 (rootMembers_subset h)
    exact ⟨Cursor.child_mem_all (Cursor.root_mem_all d.root) child, named⟩
  | member _ h ih =>
    exact Cursor.members_mem_all ih.1 (SyntaxTree.mem_members_of_entered _ _ h)

theorem reached_row_pos {d : Document} {c : Cursor} (reached : d.tree.Reached d.model c) :
    0 < c.row := by
  induction reached with
  | root h => exact (Cursor.reach_child (List.mem_filter.1 (rootMembers_subset h)).1).2
  | member _ h ih =>
    have later := (Cursor.reach_members (SyntaxTree.mem_members_of_entered _ _ h)).2
    omega

theorem reached_child {d : Document} {c : Cursor} (reached : d.tree.Reached d.model c) :
    ∃ p ∈ Cursor.all d.root, c ∈ p.children := by
  rcases Cursor.mem_all_iff.1 (reached_mem_all reached).1 with rfl | child
  -- the root has row zero and is never reached
  · exact absurd (reached_row_pos reached) (Nat.lt_irrefl 0)
  · exact child

def genericClass : Document :=
  { source := .ofString "namespace A.B;\r\n[X] class C<T> \x7b int x, y; \x7d"
    root := .named (.other "compilation_unit") none 0 44
      [.named (.namespace .fileScoped) none 0 14
        [.mark "namespace" 0 9, .named (.other "qualified_name") (some .name) 10 13 [],
         .mark ";" 13 14],
       .named (.type .class) none 16 44
        [.named .attributeList none 16 19 [], .mark "class" 20 25,
         .named .identifier (some .name) 26 27 [],
         .named .typeParameterList none 27 30
          [.mark "<" 27 28,
           .named .typeParameter none 28 29 [.named .identifier (some .name) 28 29 []],
           .mark ">" 29 30],
         .named .memberList (some .body) 31 44
          [.mark "\x7b" 31 32,
           .named (.field .field) none 33 42
            [.named .variableDeclaration none 33 41
              [.named (.other "predefined_type") (some .type) 33 36 [],
               .named .variableDeclarator none 37 38 [.named .identifier (some .name) 37 38 []],
               .mark "," 38 39,
               .named .variableDeclarator none 40 41 [.named .identifier (some .name) 40 41 []]],
             .mark ";" 41 42],
           .mark "\x7d" 43 44]]] }

end Document
end CodeAtlas
