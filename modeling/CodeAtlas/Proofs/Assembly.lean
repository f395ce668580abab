import CodeAtlas.Proofs.BuildSteps
import CodeAtlas.Proofs.Descent
import CodeAtlas.Proofs.Ranges
import Mathlib.Data.List.Forall2

/-!
Outlines put together step by step. A walk that builds each element by adding ranges, properties and
children to an empty one never adds anything twice, and what it builds are the elements of the
outline. A collection is only there if something was added to it, so that no element has an empty
one; which ranges and properties it has is seen in its declaration.
-/
namespace CodeAtlas

def BoundSymbol.nameSteps (symbol : BoundSymbol) (short full : DisplayFormat) : List BuildStep :=
  [.kind symbol.category.elementKind, .name (symbol.display short),
    .displayName (symbol.display full)]

def SourceText.rangeSteps (text : SourceText) (attributes full name : Option Span) :
    List BuildStep :=
  [(RangeName.attributes, attributes), (.full, full), (.name, name)].filterMap fun (n, span) =>
    (text.shown? span).map (.range n)

def BoundSymbol.propertySteps (symbol : BoundSymbol) : List BuildStep :=
  (symbol.accessibility.tag?.map fun tag => .property .accessibility (.text tag)).toList ++
    [.property .isStatic (.flag symbol.isStatic)]

/-- The steps of an element before its children are added. A namespace gets neither attributes nor
properties. -/
def Form.steps (form : Form) (naming : Naming) (text : SourceText) (extent : Extent)
    (symbol : BoundSymbol) : List BuildStep :=
  match form with
  | .container .namespace =>
    symbol.nameSteps naming.shortType naming.fullType ++
      text.rangeSteps none (some extent.full) extent.name
  | .container _ | .single .delegate =>
    symbol.nameSteps naming.shortType naming.fullType ++
      text.rangeSteps extent.attributes (some extent.full) extent.name ++ symbol.propertySteps
  | .single _ | .declarator =>
    symbol.nameSteps naming.shortMember naming.fullMember ++
      text.rangeSteps extent.attributes (some extent.full) extent.name ++ symbol.propertySteps

namespace SyntaxTree
variable {N : Type}

def assembleHead (model : Model N) (naming : Naming) (text : SourceText) (form : Form)
    (head : Head N) : Except Duplicate (List Element) :=
  match model head.node with
  | none => .ok []
  | some symbol =>
    (Element.empty.build (form.steps naming text head.extent symbol)).map fun e => [e]

/-- The elements of all that a node declares, each built step by step. -/
def assemble (tree : SyntaxTree N) (model : Model N) (naming : Naming) (text : SourceText)
    (n : N) : Except Duplicate (List Element) :=
  match _h : tree.classify n with
  | .container form head members =>
    match model head.node with
    | none => .ok []
    | some symbol => do
      let opened ← Element.empty.build (Form.steps (.container form) naming text head.extent symbol)
      let children ← members.attach.mapM fun ⟨m, _⟩ => tree.assemble model naming text m
      let e ← opened.build (children.flatten.map .child)
      pure [e]
  | .single form head => assembleHead model naming text (.single form) head
  | .fields statement => do
    let found ← statement.declarators.mapM fun v =>
      assembleHead model naming text .declarator (statement.head v)
    pure found.flatten
  | .other => .ok []
termination_by tree.rank n
decreasing_by
  apply tree.rank_lt n m
  simp_all [Declaration.members]

def assembled (tree : SyntaxTree N) (model : Model N) (naming : Naming) (text : SourceText) :
    Except Duplicate (List Element) :=
  (tree.roots.mapM (tree.assemble model naming text)).map List.flatten

end SyntaxTree

namespace Element

theorem build_nameSteps (e : Element) (symbol : BoundSymbol) (short full : DisplayFormat) :
    e.build (symbol.nameSteps short full) =
      .ok { e with
        kind := symbol.category.elementKind
        name := symbol.display short
        displayName := symbol.display full } := rfl

theorem build_rangeSteps {e : Element} (blank : e.ranges = none) (text : SourceText)
    (attributes full name : Option Span) :
    let ranges : Ranges := ⟨text.shown? attributes, text.shown? full, text.shown? name⟩
    e.build (text.rangeSteps attributes full name) =
      .ok { e with ranges := if ranges.isEmpty then none else some ranges } := by
  intro ranges
  obtain ⟨kind, label, displayName, children, _, properties⟩ := e
  cases blank
  have steps : text.rangeSteps attributes full name =
      (ranges.attributes.map (BuildStep.range .attributes)).toList ++
        ((ranges.full.map (BuildStep.range .full)).toList ++
          (ranges.name.map (BuildStep.range .name)).toList) := by
    simp [SourceText.rangeSteps, List.filterMap_eq_flatMap_toList, ranges]
  rw [steps]
  -- only which of the three ranges are there matters from here on
  clear_value ranges
  obtain ⟨a, f, n⟩ := ranges
  cases a <;> cases f <;> cases n <;> rfl

theorem build_propertySteps {e : Element} (blank : e.properties = none) (symbol : BoundSymbol) :
    e.build symbol.propertySteps =
      .ok { e with
        properties := some
          { accessibility := symbol.accessibility.tag?.map .text
            isStatic := some (.flag symbol.isStatic) } } := by
  obtain ⟨kind, name, displayName, children, ranges, _⟩ := e
  cases blank
  unfold BoundSymbol.propertySteps
  cases symbol.accessibility.tag? <;> rfl

theorem build_described (symbol : BoundSymbol) (short full : DisplayFormat) (text : SourceText)
    (attributes whole name : Option Span) :
    let ranges : Ranges := ⟨text.shown? attributes, text.shown? whole, text.shown? name⟩
    empty.build (symbol.nameSteps short full ++ text.rangeSteps attributes whole name) =
      .ok
        { kind := symbol.category.elementKind
          name := symbol.display short
          displayName := symbol.display full
          ranges := if ranges.isEmpty then none else some ranges } := by
  rw [build_append, build_nameSteps]
  exact build_rangeSteps rfl text attributes whole name

theorem build_declared (symbol : BoundSymbol) (short full : DisplayFormat) (text : SourceText)
    (attributes whole name : Option Span) :
    let ranges : Ranges := ⟨text.shown? attributes, text.shown? whole, text.shown? name⟩
    empty.build (symbol.nameSteps short full ++ text.rangeSteps attributes whole name ++
        symbol.propertySteps) =
      .ok
        { kind := symbol.category.elementKind
          name := symbol.display short
          displayName := symbol.display full
          ranges := if ranges.isEmpty then none else some ranges
          properties := some
            { accessibility := symbol.accessibility.tag?.map .text
              isStatic := some (.flag symbol.isStatic) } } := by
  rw [build_append, build_described]
  exact build_propertySteps rfl symbol

theorem build_children (e : Element) (children : List Element) :
    e.build (children.map .child) =
      .ok { e with
        children :=
          if children.isEmpty then e.children else some (e.children.getD [] ++ children) } := by
  induction children generalizing e with
  | nil =>
    cases e
    rfl
  | cons c rest ih =>
    rw [List.map_cons, build]
    change (e.addChild c).build _ = _
    rw [ih]
    cases rest with
    | nil => simp [addChild]
    | cons d rest => simp [addChild]

end Element

namespace Resolved
variable {N : Type} (naming : Naming) (text : SourceText)

theorem build_steps (form : Form) (head : Head N) (symbol : BoundSymbol) :
    Element.empty.build (form.steps naming text head.extent symbol) =
      .ok (element naming text (.mk form head symbol [])) := by
  rw [element]
  cases form with
  | container form =>
    cases form with
    | type | enum => exact Element.build_declared symbol _ _ text _ _ _
    | «namespace» => exact Element.build_described symbol _ _ text _ _ _
  | single form => cases form <;> exact Element.build_declared symbol _ _ text _ _ _
  | declarator => exact Element.build_declared symbol _ _ text _ _ _

theorem elements_flatMap {α : Type} (l : List α) (f : α → List (Resolved N)) :
    elements naming text (l.flatMap f) = (l.map fun a => elements naming text (f a)).flatten := by
  simp only [elements_eq_map, List.flatMap_def, List.map_flatten, List.map_map, Function.comp_def]

theorem build_members (form : Form) (head : Head N) (symbol : BoundSymbol)
    (members : List (Resolved N)) :
    (element naming text (.mk form head symbol [])).build
        ((elements naming text members).map .child) =
      .ok (element naming text (.mk form head symbol members)) := by
  rw [Element.build_children]
  simp [element, elements]

end Resolved

namespace SyntaxTree
variable {N : Type} (tree : SyntaxTree N) (model : Model N) (naming : Naming) (text : SourceText)

theorem assembleHead_eq (form : Form) (head : Head N) :
    assembleHead model naming text form head =
      .ok (Resolved.elements naming text (resolveHead model form head).found) := by
  rw [assembleHead, resolveHead]
  cases model head.node with
  | none => rfl
  | some symbol =>
    dsimp only
    rw [Resolved.build_steps]
    rfl

/-- Step by step, a node's elements are built without a duplicate. -/
theorem assemble_eq (n : N) :
    tree.assemble model naming text n =
      .ok (Resolved.elements naming text (tree.resolve model n).found) := by
  induction n using tree.member_induction with
  | step n ih =>
    rw [assemble]
    split
    · next form head members form_eq =>
      cases bound : model head.node with
      | none =>
        rw [resolve_unbound form_eq bound]
        rfl
      | some symbol =>
        have below : ∀ m ∈ members.attach, tree.assemble model naming text m.1 =
            pure (Resolved.elements naming text (tree.resolve model m.1).found) := by
          rintro ⟨m, member⟩ _
          exact ih m (by simpa [form_eq, Declaration.members] using member)
        have children : (members.attach.map fun m =>
              Resolved.elements naming text (tree.resolve model m.1).found).flatten =
            Resolved.elements naming text (tree.resolveAll model members).found := by
          rw [found_resolveAll, Resolved.elements_flatMap]
          simp
        -- the steps of the head cannot fail, nor can a member, and children have no names to repeat
        dsimp only
        rw [resolve_bound form_eq bound, Resolved.build_steps, mapM_eq_pure below]
        change (Element.build _ ((List.flatten _).map _)).bind _ = _
        rw [children, Resolved.build_members]
        rfl
    · next form head form_eq => rw [resolve_single form_eq, assembleHead_eq]
    · next statement form_eq =>
      have each : ∀ v ∈ statement.declarators,
          assembleHead model naming text .declarator (statement.head v) =
            pure (Resolved.elements naming text
              (resolveHead model .declarator (statement.head v)).found) := by
        intro v _
        exact assembleHead_eq model naming text .declarator (statement.head v)
      rw [resolve_fields form_eq, mapM_eq_pure each, Resolution.found_concat, List.flatMap_map,
        Resolved.elements_flatMap]
      rfl
    · next form_eq =>
      rw [resolve_other form_eq]
      rfl

theorem assembled_eq :
    tree.assembled model naming text = .ok (tree.outline model naming text).elements := by
  have each : ∀ n ∈ tree.roots, tree.assemble model naming text n =
      pure (Resolved.elements naming text (tree.resolve model n).found) := by
    intro n _
    exact tree.assemble_eq model naming text n
  change _ = Except.ok (Resolved.elements naming text (tree.resolveAll model tree.roots).found)
  rw [assembled, mapM_eq_pure each, found_resolveAll, Resolved.elements_flatMap]
  rfl

end SyntaxTree

def Extent.span? (extent : Extent) (form : Form) : RangeName → Option Span
  | .attributes => if form.isNamespace then none else extent.attributes
  | .full => some extent.full
  | .name => extent.name

theorem Extent.get?_ranges (extent : Extent) (text : SourceText) (form : Form) (n : RangeName) :
    (extent.ranges text form).get? n = text.shown? (extent.span? form n) := by
  cases n with
  | attributes =>
    change (if _ then none else _) = _
    rw [span?]
    split <;> rfl
  | full | name => rfl

/-- An element has no empty collection. It has a range for each span of its declaration that is not
empty, and what it has as properties is seen in its form and its symbol. -/
structure Element.Canonical (text : SourceText) (form : Form) (extent : Extent)
    (symbol : BoundSymbol) (e : Element) : Prop where
  children : e.children ≠ some []
  ranges : ∀ r, e.ranges = some r → r.toList ≠ []
  range : ∀ n r, e.range? n = some r ↔
    ∃ s, extent.span? form n = some s ∧ s.start < s.stop ∧ text.rangeOf s = r
  properties : e.properties = none ↔ form.isNamespace
  isStatic : e.properties ≠ none → e.property? .isStatic = some (.flag symbol.isStatic)
  accessibility : e.properties ≠ none →
    e.property? .accessibility = symbol.accessibility.tag?.map .text

namespace Resolved
variable {N : Type} (naming : Naming) (text : SourceText)

theorem properties_element (r : Resolved N) :
    (r.element naming text).properties = r.symbol.properties? r.form := by
  cases r with
  | mk form head symbol members =>
    rw [element]
    rfl

theorem properties_of_ne_none {r : Resolved N} (h : (r.element naming text).properties ≠ none) :
    (r.element naming text).properties = some
      { accessibility := r.symbol.accessibility.tag?.map .text
        isStatic := some (.flag r.symbol.isStatic) } := by
  rw [properties_element, BoundSymbol.properties?] at h ⊢
  split at h
  · exact absurd rfl h
  · next other => rw [if_neg other]

theorem canonical_element (r : Resolved N) :
    (r.element naming text).Canonical text r.form r.head.extent r.symbol where
  children := by
    cases r with
    | mk form head symbol members =>
      rw [element]
      dsimp only
      split <;> simp_all
  ranges := by
    cases r with
    | mk form head symbol members =>
      rw [element]
      dsimp only
      split <;> simp_all [Ranges.isEmpty]
  range n shown := by rw [range?_element, Extent.get?_ranges, SourceText.shown?_eq_some]
  properties := by simp [properties_element, BoundSymbol.properties?]
  isStatic h := by
    rw [Element.property?, properties_of_ne_none naming text h]
    rfl
  accessibility h := by
    rw [Element.property?, properties_of_ne_none naming text h]
    rfl

end Resolved

namespace SyntaxTree
variable {N : Type} (tree : SyntaxTree N) (model : Model N) (naming : Naming) (text : SourceText)

def boundHandles : List (Handle N × BoundSymbol) :=
  (tree.rootHandles model).filterMap fun h => (model h.head.node).map (h, ·)

theorem listings_shown :
    List.Forall₂
      (fun p q => p.1 = q.1.depth ∧
        p.2.bare = Resolved.element naming text (.mk q.1.form q.1.head q.2 []))
      (Element.listings 0 (tree.outline model naming text).elements) (tree.boundHandles model) := by
  have same : (Element.listings 0 (tree.outline model naming text).elements).map
        (fun p => (p.1, p.2.bare)) =
      (tree.boundHandles model).map fun q =>
        (q.1.depth, Resolved.element naming text (.mk q.1.form q.1.head q.2 [])) := by
    refine (tree.bareListing_outline model naming text).trans ?_
    rw [boundHandles, List.map_filterMap]
    simp only [Option.map_map]
    rfl
  rw [← List.forall₂_eq_eq_eq, List.forall₂_map_left_iff, List.forall₂_map_right_iff] at same
  exact same.imp fun p q => Prod.mk.inj

theorem children_listed :
    ∀ p ∈ Element.listings 0 (tree.outline model naming text).elements,
      p.2.children ≠ some [] := by
  intro p listed
  have member := List.mem_map_of_mem (f := Prod.snd) listed
  rw [SyntaxTree.outline, Resolved.map_listings_elements] at member
  obtain ⟨r, _, same⟩ := List.mem_map.1 member
  rw [← same]
  exact (r.canonical_element naming text).children

end SyntaxTree

/-- An outline can be put together step by step, and no step ever repeats another. Each of its
elements, listed parents first, is in canonical form for the declaration that it shows. -/
theorem outline_assembled_canonical {N : Type} (tree : SyntaxTree N) (model : Model N)
    (naming : Naming) (text : SourceText) :
    let o := tree.outline model naming text
    tree.assembled model naming text = .ok o.elements ∧
      List.Forall₂
        (fun p q => p.1 = q.1.depth ∧ p.2.Canonical text q.1.form q.1.head.extent q.2)
        (Element.listings 0 o.elements) (tree.boundHandles model) := by
  intro o
  refine ⟨tree.assembled_eq model naming text, ?_⟩
  have both := (List.forall₂_and_left _ _).2
    ⟨tree.children_listed model naming text, tree.listings_shown model naming text⟩
  refine both.imp ?_
  rintro p q ⟨children, depth, bare⟩
  -- taking the children away changes neither ranges nor properties
  have canonical := Resolved.canonical_element naming text (.mk q.1.form q.1.head q.2 [])
  rw [← bare] at canonical
  exact ⟨depth, { canonical with children := children }⟩

end CodeAtlas
