import CodeAtlas.Proofs.Members
import CodeAtlas.Proofs.Points

/-!
Ranges nest and follow the text. In a tree whose nodes cover their children and stand side by side,
the ranges of the outline do so too: what a declaration shows of itself is inside its full range,
members are inside their container, and siblings do not overlap. Two things differ from the tree.
What follows a file-scoped namespace is its member without being inside it, and the variables of a
field statement all have the range of the statement.
-/
namespace CodeAtlas
open Syntax

theorem Ranges.get?_of_isEmpty {r : Ranges} (h : r.isEmpty) (n : RangeName) : r.get? n = none := by
  obtain ⟨attributes, full, name⟩ := r
  cases attributes <;> cases full <;> cases name <;> simp [isEmpty, toList] at h
  cases n <;> rfl

theorem Resolved.range?_element {N : Type} (naming : Naming) (text : SourceText) (r : Resolved N)
    (n : RangeName) :
    (r.element naming text).range? n = (r.head.extent.ranges text r.form).get? n := by
  cases r with
  | mk form head symbol members =>
    rw [element, Element.range?, Resolved.head, Resolved.form]
    dsimp only
    split
    · next none => rw [Ranges.get?_of_isEmpty none, Option.bind_none]
    · rw [Option.bind_some]

namespace SourceText
variable {text : SourceText}

theorem shown?_eq_some {span : Option Span} {r : Range} :
    text.shown? span = some r ↔
      ∃ s, span = some s ∧ s.start < s.stop ∧ text.rangeOf s = r := by
  simp [shown?, Option.filter_eq_some_iff, Span.isEmpty, and_assoc]

theorem shown?_within {inner : Option Span} {outer : Span} {r : Range}
    (within : ∀ s ∈ inner, s.Within outer) (h : text.shown? inner = some r) :
    ∃ full, text.shown? (some outer) = some full ∧ full.Encloses r := by
  obtain ⟨s, present, filled, rfl⟩ := shown?_eq_some.1 h
  obtain ⟨first, last⟩ := within s present
  refine ⟨text.rangeOf outer, shown?_eq_some.2 ⟨outer, rfl, by omega, rfl⟩, ?_, ?_⟩
  · exact Range.contains_iff.2 ⟨text.pointAt_mono first, text.pointAt_mono (by omega)⟩
  · exact Range.contains_iff.2 ⟨text.pointAt_mono (by omega), text.pointAt_mono last⟩

end SourceText

namespace Document

structure Spanned (d : Document) : Prop where
  inside : ∀ c ∈ Cursor.all d.root, ∀ n ∈ c.node.children, n.span.Within c.node.span
  ordered : ∀ c ∈ Cursor.all d.root,
    c.node.children.Pairwise fun a b => a.span.stop ≤ b.span.start

variable {d : Document} {n : Cursor} {r : Resolved Cursor}

def Before (a b : Cursor) : Prop := a.node.span.stop ≤ b.node.span.start

theorem inside_child (spans : d.Spanned) {c : Cursor} (h : n ∈ Cursor.all d.root)
    (child : c ∈ n.children) : c.node.span.Within n.node.span := by
  apply spans.inside n h
  rw [← Cursor.map_node_children]
  exact List.mem_map_of_mem child

theorem ordered_children (spans : d.Spanned) (h : n ∈ Cursor.all d.root) :
    n.children.Pairwise Before := by
  have order := spans.ordered n h
  rw [← Cursor.map_node_children, List.pairwise_map] at order
  exact order

theorem attributes_within (spans : d.Spanned) (h : n ∈ Cursor.all d.root) :
    ∀ s ∈ n.node.attributes?, s.Within n.node.span := by
  intro s covered
  refine Span.coverAll?_within ?_ covered
  intro t listed
  obtain ⟨m, member, rfl⟩ := List.mem_map.1 listed
  exact spans.inside n h m (List.mem_filter.1 member).1

theorem declarator_within (spans : d.Spanned) (h : n ∈ Cursor.all d.root)
    {v : Declarator Cursor} (listed : v ∈ n.declarators) :
    ∀ s ∈ v.name, s.Within n.node.span := by
  rcases n.declarators_eq with none | ⟨declaration, child, _, eq⟩
  · simp [none] at listed
  · rw [eq] at listed
    obtain ⟨e, he, rfl⟩ := List.mem_map.1 listed
    -- from the name to the declarator, to the variable declaration, to the statement
    have inner := (List.mem_filter.1 (List.mem_filter.1 he).1).1
    have outerPlace := Cursor.child_mem_all h child
    have innerPlace := Cursor.child_mem_all outerPlace inner
    intro s named
    obtain ⟨name, found, rfl⟩ := Option.map_eq_some_iff.1 named
    exact ((spans.inside e innerPlace name (Node.name?_mem found)).trans
      (inside_child spans outerPlace inner)).trans (inside_child spans h child)

/-- What a node declares has the span and the attributes of the node, and its name inside it. -/
theorem extent_declared (spans : d.Spanned) (h : n ∈ Cursor.all d.root)
    (declares : d.tree.Declares d.model n r) :
    r.head.extent.full = n.node.span ∧ r.head.extent.attributes = n.node.attributes? ∧
      ∀ s ∈ r.head.extent.name, s.Within n.node.span := by
  have named : ∀ {name : Option Node}, (∀ m ∈ name, m ∈ n.node.children) →
      ∀ s ∈ name.map Node.span, s.Within n.node.span := by
    intro name children s hs
    obtain ⟨m, found, rfl⟩ := Option.map_eq_some_iff.1 hs
    exact spans.inside n h m (children m found)
  cases declares with
  | container form_eq bound =>
    obtain ⟨rfl, _⟩ := Cursor.classify_container form_eq
    exact ⟨rfl, rfl, named fun m found => Node.name?_mem found⟩
  | single form_eq bound =>
    obtain ⟨name, rfl, children⟩ := Cursor.classify_single form_eq
    exact ⟨rfl, rfl, named children⟩
  | declarator form_eq listed bound =>
    obtain ⟨_, rfl⟩ := Cursor.classify_fields form_eq
    exact ⟨rfl, rfl, declarator_within spans h listed⟩

theorem members_within (spans : d.Spanned) (h : n ∈ Cursor.all d.root) {m : Cursor}
    (member : m ∈ n.classify.members) (kind : n.kind ≠ .namespace .fileScoped) :
    m.node.span.Within n.node.span := by
  rcases n.members_shape with none | ⟨b, body, _, _, shape⟩ | ⟨same, _⟩
  · simp [none] at member
  · rw [shape] at member
    have child := Cursor.body?_mem body
    have place := Cursor.child_mem_all h child
    exact (inside_child spans place (List.mem_filter.1 member).1).trans
      (inside_child spans h child)
  · exact absurd same kind

theorem fileMembers_ordered (spans : d.Spanned) {p : Cursor} (h : p ∈ Cursor.all d.root)
    (child : n ∈ p.children) : n.fileMembers.Pairwise Before := by
  have place := Cursor.child_mem_all h child
  obtain ⟨earlier, split, _⟩ := Cursor.children_split child
  have order := ordered_children spans h
  rw [split] at order
  obtain ⟨first, later⟩ := List.pairwise_cons.1 (List.pairwise_append.1 order).2.1
  refine List.pairwise_append.2 ⟨(ordered_children spans place).filter _, later.filter _, ?_⟩
  intro a ha b hb
  have inner := (inside_child spans place (List.mem_filter.1 ha).1).2
  have outer := first b (List.mem_filter.1 hb).1
  exact Nat.le_trans inner outer

theorem members_ordered (spans : d.Spanned) (reached : d.tree.Reached d.model n) :
    n.classify.members.Pairwise Before := by
  rcases n.members_shape with none | ⟨b, body, _, _, shape⟩ | ⟨_, shape⟩
  · rw [none]
    exact List.Pairwise.nil
  · have place := Cursor.child_mem_all (reached_mem_all reached).1 (Cursor.body?_mem body)
    rw [shape]
    exact (ordered_children spans place).filter _
  · obtain ⟨p, hp, child⟩ := reached_child reached
    rw [shape]
    exact fileMembers_ordered spans hp child

theorem rootMembers_ordered (spans : d.Spanned) : d.rootMembers.Pairwise Before := by
  have order := ordered_children spans (Cursor.root_mem_all d.root)
  exact (order.filter _).sublist (Cursor.takeThrough_sublist _ _)

def range? (d : Document) (naming : Naming) (r : Resolved Cursor) (part : RangeName) :
    Option Range := (r.element naming d.source).range? part

theorem range?_full (naming : Naming) (spans : d.Spanned) (h : n ∈ Cursor.all d.root)
    (declares : d.tree.Declares d.model n r) :
    d.range? naming r .full = d.source.shown? (some n.node.span) := by
  rw [range?, Resolved.range?_element, ← (extent_declared spans h declares).1]
  rfl

def SameStatement (d : Document) (a b : Resolved Cursor) : Prop :=
  ∃ n statement, d.tree.Reached d.model n ∧ d.tree.classify n = .fields statement ∧
    d.tree.Declares d.model n a ∧ d.tree.Declares d.model n b

/-- Of two declarations with full ranges, the first ends before the second starts, unless both are
variables of one statement and have its range. -/
def Follows (d : Document) (naming : Naming) (a b : Resolved Cursor) : Prop :=
  ∀ first second, d.range? naming a .full = some first → d.range? naming b .full = some second →
    (first = second ∧ d.SameStatement a b) ∨ first.stop ≤ second.start

theorem follows_of_before (naming : Naming) (spans : d.Spanned) {m : Cursor} {s : Resolved Cursor}
    (hn : n ∈ Cursor.all d.root) (hm : m ∈ Cursor.all d.root) (before : Before n m)
    (first : d.tree.Declares d.model n r) (second : d.tree.Declares d.model m s) :
    d.Follows naming r s := by
  intro a b ha hb
  rw [range?_full naming spans hn first] at ha
  rw [range?_full naming spans hm second] at hb
  obtain ⟨_, ⟨⟩, _, rfl⟩ := SourceText.shown?_eq_some.1 ha
  obtain ⟨_, ⟨⟩, _, rfl⟩ := SourceText.shown?_eq_some.1 hb
  exact Or.inr (d.source.pointAt_mono before)

theorem resolve_follows (naming : Naming) (spans : d.Spanned) (reached : d.tree.Reached d.model n) :
    (d.tree.resolve d.model n).found.Pairwise (d.Follows naming) := by
  have place := (reached_mem_all reached).1
  -- only a field statement declares more than one thing
  cases form_eq : d.tree.classify n with
  | container form head members =>
    cases bound : d.model head.node with
    | none =>
      rw [SyntaxTree.resolve_unbound form_eq bound]
      exact List.Pairwise.nil
    | some symbol =>
      rw [SyntaxTree.resolve_bound form_eq bound]
      exact List.pairwise_singleton _ _
  | single form head =>
    rw [SyntaxTree.resolve_single form_eq, SyntaxTree.resolveHead]
    split
    · exact List.Pairwise.nil
    · exact List.pairwise_singleton _ _
  | fields statement =>
    apply List.pairwise_of_forall_mem_list
    intro a ha b hb first second hFirst hSecond
    have aDeclared := (SyntaxTree.mem_resolve _ _).1 ha
    have bDeclared := (SyntaxTree.mem_resolve _ _).1 hb
    rw [range?_full naming spans place aDeclared] at hFirst
    rw [range?_full naming spans place bDeclared] at hSecond
    left
    exact ⟨Option.some.inj (hFirst.symm.trans hSecond), n, statement, reached, form_eq, aDeclared,
      bDeclared⟩
  | other =>
    rw [SyntaxTree.resolve_other form_eq]
    exact List.Pairwise.nil

theorem resolveAll_follows (naming : Naming) (spans : d.Spanned) {nodes : List Cursor}
    (reached : ∀ m ∈ nodes, d.tree.Reached d.model m) (order : nodes.Pairwise Before) :
    (d.tree.resolveAll d.model nodes).found.Pairwise (d.Follows naming) := by
  rw [SyntaxTree.found_resolveAll, List.pairwise_flatMap]
  refine ⟨fun m hm => resolve_follows naming spans (reached m hm), ?_⟩
  refine order.imp_of_mem ?_
  intro m l hm hl before a ha b hb
  exact follows_of_before naming spans (reached_mem_all (reached m hm)).1
    (reached_mem_all (reached l hl)).1 before ((SyntaxTree.mem_resolve _ _).1 ha)
    ((SyntaxTree.mem_resolve _ _).1 hb)

theorem members_follow (naming : Naming) (spans : d.Spanned) (reached : d.tree.Reached d.model n)
    (declares : d.tree.Declares d.model n r) : r.members.Pairwise (d.Follows naming) := by
  rcases declares.members_eq with eq | eq
  · rw [eq]
    refine resolveAll_follows naming spans (fun m hm => reached.member hm) ?_
    by_cases empty : d.tree.entered d.model n = []
    · rw [empty]
      exact List.Pairwise.nil
    · obtain ⟨m, member⟩ := List.exists_mem_of_ne_nil _ empty
      rw [SyntaxTree.entered_eq_members _ _ member]
      exact members_ordered spans reached
  · rw [eq]
    exact List.Pairwise.nil

theorem parts_enclosed (naming : Naming) (spans : d.Spanned) (h : n ∈ Cursor.all d.root)
    (declares : d.tree.Declares d.model n r) (part : RangeName) {inner : Range}
    (shown : d.range? naming r part = some inner) (other : part ≠ .full) :
    ∃ full, d.range? naming r .full = some full ∧ full.Encloses inner := by
  obtain ⟨_, attributes, name⟩ := extent_declared spans h declares
  rw [range?_full naming spans h declares]
  rw [range?, Resolved.range?_element] at shown
  cases part with
  | attributes =>
    change (if _ then none else _) = some inner at shown
    split at shown
    -- a namespace shows no attributes
    · simp at shown
    · rw [attributes] at shown
      exact SourceText.shown?_within (attributes_within spans h) shown
  | full => exact absurd rfl other
  | name => exact SourceText.shown?_within name shown

theorem member_enclosed (naming : Naming) (spans : d.Spanned) {m : Cursor} {p : Resolved Cursor}
    (reached : d.tree.Reached d.model m) (outer : d.tree.Declares d.model m p)
    (member : n ∈ d.tree.entered d.model m) (declares : d.tree.Declares d.model n r)
    (kind : p.head.node.kind ≠ .namespace .fileScoped) {inner : Range}
    (shown : d.range? naming r .full = some inner) :
    ∃ full, d.range? naming p .full = some full ∧ full.Encloses inner := by
  have place := (reached_mem_all reached).1
  have inside := (reached_mem_all (reached.member member)).1
  have node : p.head.node = m := by
    cases outer with
    | container form_eq bound => exact Cursor.container_node form_eq
    | single form_eq | declarator form_eq => simp [SyntaxTree.entered, form_eq] at member
  rw [node] at kind
  rw [range?_full naming spans inside declares] at shown
  rw [range?_full naming spans place outer]
  refine SourceText.shown?_within ?_ shown
  rintro _ ⟨⟩
  exact members_within spans place (SyntaxTree.mem_members_of_entered _ _ member) kind

/-- The elements of an outline stand where the declarations stand that they show, siblings in the same
order. Names and attributes are inside their declaration, declarations inside their parent unless it
is a file-scoped namespace, and siblings follow one another. -/
theorem ranges_nest_and_follow (d : Document) (spans : d.Spanned) (naming : Naming) :
    (∀ above e, Element.Placed (d.outline naming).elements above e ↔
      ∃ parent r, Resolved.Placed (d.tree.resolution d.model).found parent r ∧
        above = parent.map (Resolved.element naming d.source) ∧
        e = Resolved.element naming d.source r) ∧
    ((d.outline naming).elements =
        (d.tree.resolution d.model).found.map (Resolved.element naming d.source) ∧
      ∀ r : Resolved Cursor, (r.element naming d.source).offspring =
        r.members.map (Resolved.element naming d.source)) ∧
    (∀ parent r, Resolved.Placed (d.tree.resolution d.model).found parent r →
      (∀ part inner, part ≠ .full → d.range? naming r part = some inner →
        ∃ full, d.range? naming r .full = some full ∧ full.Encloses inner) ∧
      (∀ p inner, parent = some p → p.head.node.kind ≠ .namespace .fileScoped →
        d.range? naming r .full = some inner →
        ∃ full, d.range? naming p .full = some full ∧ full.Encloses inner) ∧
      r.members.Pairwise (d.Follows naming)) ∧
    (d.tree.resolution d.model).found.Pairwise (d.Follows naming) := by
  refine ⟨fun _ _ => Resolved.placed_elements_iff naming d.source,
    ⟨Resolved.elements_eq_map naming d.source _, Resolved.offspring_element naming d.source⟩, ?_, ?_⟩
  · intro parent r placed
    obtain ⟨n, reached, declares, place⟩ := SyntaxTree.declares_of_placed placed
    refine ⟨?_, ?_, members_follow naming spans reached declares⟩
    · intro part inner other shown
      exact parts_enclosed naming spans (reached_mem_all reached).1 declares part shown other
    · rintro p inner rfl kind shown
      obtain ⟨m, mReached, outer, member⟩ := place
      exact member_enclosed naming spans mReached outer member declares kind shown
  · exact resolveAll_follows naming spans (fun m hm => .root hm) (rootMembers_ordered spans)

theorem genericClass_fields_nest :
    ∃ p r inner, Resolved.Placed (genericClass.tree.resolution genericClass.model).found (some p) r ∧
      genericClass.range? .standard r .name = some ⟨⟨1, 21⟩, ⟨1, 22⟩⟩ ∧
      (∃ full, genericClass.range? .standard r .full = some full ∧
        full.Encloses ⟨⟨1, 21⟩, ⟨1, 22⟩⟩) ∧
      genericClass.range? .standard r .full = some inner ∧
      (∃ full, genericClass.range? .standard p .full = some full ∧ full.Encloses inner) ∧
      p.members.length = 2 ∧ p.members.Pairwise (genericClass.Follows .standard) := by
  have spans : genericClass.Spanned := by
    constructor <;> decide +kernel
  let forest := (genericClass.tree.resolution genericClass.model).found
  let outer := forest.head (List.isEmpty_eq_false_iff.1 (by decide +kernel))
  let parent := outer.members.head (List.isEmpty_eq_false_iff.1 (by decide +kernel))
  let field := parent.members.head (List.isEmpty_eq_false_iff.1 (by decide +kernel))
  have top : Resolved.Placed forest (some outer) parent :=
    .member (.top (List.head_mem _)) (List.head_mem _)
  have placed : Resolved.Placed forest (some parent) field := .member top (List.head_mem _)
  have name : genericClass.range? .standard field .name = some ⟨⟨1, 21⟩, ⟨1, 22⟩⟩ := by
    decide +kernel
  have full : genericClass.range? .standard field .full = some ⟨⟨1, 17⟩, ⟨1, 26⟩⟩ := by
    decide +kernel
  obtain ⟨_, _, each, _⟩ := ranges_nest_and_follow genericClass spans .standard
  obtain ⟨parts, nested, _⟩ := each (some parent) field placed
  obtain ⟨_, _, follow⟩ := each (some outer) parent top
  exact ⟨parent, field, _, placed, name, parts .name _ (by decide) name, full,
    nested parent _ rfl (by decide +kernel) full, by decide +kernel, follow⟩

end Document
end CodeAtlas
