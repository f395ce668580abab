import CodeAtlas.Proofs.Binding
import CodeAtlas.Proofs.Qualification
import CodeAtlas.Proofs.Ranges

/-!
Which declarations have names. A declaration is left out when the node in the place of its name is
absent or the parser marked it as missing or wrong. Whether that node covers any text does not
matter: an identifier that the parser invented and did not mark still names a declaration, and its
element has neither a name range nor, in general, a name.
-/
namespace CodeAtlas
open Syntax

namespace SourceText

theorem takeBytes?_isSome (n : Nat) (s : List Char) (h : (dropBytes? n s).isSome) :
    (takeBytes? n s).isSome := by
  fun_induction dropBytes? n s with
  | case1 s => cases s <;> rfl
  | case2 => simp at h
  | case3 n c tail fits ih =>
    rw [takeBytes?, if_pos fits, Option.isSome_map]
    exact ih h
  | case4 => simp at h

theorem takeBytes?_ne_nil {n : Nat} (pos : 0 < n) (s : List Char) : takeBytes? n s ≠ some [] := by
  cases n with
  | zero => omega
  | succ n =>
    cases s with
    | nil => simp [takeBytes?]
    | cons c rest =>
      rw [takeBytes?]
      split <;> simp

theorem slice_ne_nil {text : SourceText} {span : Span} (first : text.isBoundary span.start)
    (last : text.isBoundary span.stop) (filled : span.start < span.stop) :
    text.slice span ≠ [] := by
  obtain ⟨rest, found⟩ := Option.isSome_iff_exists.1 first
  have width : span.start + (span.stop - span.start) = span.stop := by omega
  have ends : (dropBytes? (span.stop - span.start) rest).isSome := by
    rw [← dropBytes?_add _ found, width]
    exact last
  obtain ⟨taken, ht⟩ := Option.isSome_iff_exists.1 (takeBytes?_isSome _ _ ends)
  rw [slice, found, Option.bind_some, ht, Option.getD_some]
  rintro rfl
  exact takeBytes?_ne_nil (by omega) _ ht

end SourceText

namespace Form

/-- The node in the place of the name, be it usable or not. -/
def place? (form : Form) (n : Node) : Option Node :=
  match form with
  | .single (.method .operator) => (n.withRole? .operator).or n.afterOperator?
  | .single (.method .conversion) => (n.withRole? .type).or n.afterOperator?
  | .single (.property .indexer) => n.ofKind? (.token .this)
  | _ => (n.withRole? .name).or (n.ofKind? .identifier)

/-- Which marks of the parser a name may have; one that must be a word may not be an error. -/
def accepts (form : Form) (t : Node) : Bool :=
  match form with
  | .single (.method .operator) | .single (.method .conversion) | .single (.property .indexer) =>
    !t.isMissing
  | _ => !t.isMissing && !t.label.isError

theorem token?_eq_some {form : Form} {n t : Node} :
    form.token? n = some t ↔ form.place? n = some t ∧ form.accepts t := by
  have same : form.token? n = (form.place? n).filter form.accepts := by
    cases form with
    | container | declarator => rfl
    | single form =>
      cases form with
      | delegate | enumMember => rfl
      | method form => cases form <;> rfl
      | property form => cases form <;> rfl
  rw [same, Option.filter_eq_some_iff]

theorem token?_mem {form : Form} {n t : Node} (h : form.token? n = some t) : t ∈ n.children := by
  cases form with
  | container | declarator => exact Node.name?_mem h
  | single form =>
    cases form with
    | delegate | enumMember => exact Node.name?_mem h
    | method form => exact Node.methodName?_mem h
    | property form => exact Node.propertyName?_mem h

end Form

namespace Symbol

theorem render_ne_nil {f : DisplayFormat} {s : Symbol} (h : renderName f s.name ≠ []) :
    s.render f ≠ [] := by
  intro none
  rw [render, renderOwn] at none
  exact h (List.append_eq_nil_iff.1 (List.append_eq_nil_iff.1 none).2).1

theorem renderName_nameAs (f : DisplayFormat) {source : SourceText} (c : Cursor) {form : Form}
    {t : Node} (other : form.isNamespace = false) (filled : t.text source ≠ []) :
    renderName f (c.nameAs source t form) ≠ [] := by
  have part : ∀ parameters, NamePart.render f ⟨t.text source, parameters⟩ ≠ [] := by
    intro parameters
    rw [NamePart.render]
    split
    · simp
    · exact filled
  cases form with
  | declarator => exact part _
  | container form =>
    cases form with
    | type | enum => exact part _
    | «namespace» => simp [Form.isNamespace] at other
  | single form =>
    cases form with
    | delegate | enumMember => exact part _
    | method form =>
      cases form with
      | method => exact part _
      | constructor => exact filled
      | destructor => exact List.cons_ne_nil _ _
      | operator => exact List.append_ne_nil_of_left_ne_nil (by decide) _
      | conversion =>
        apply List.append_ne_nil_of_left_ne_nil
        exact List.append_ne_nil_of_right_ne_nil _ (by decide)
    | property form =>
      cases form with
      | property | event => exact part _
      | indexer => exact (by decide : "this".toList ≠ [])

end Symbol

namespace Resolved
variable {N : Type}

theorem name_element (naming : Naming) (text : SourceText) (r : Resolved N) :
    (r.element naming text).name =
      r.symbol.display (if r.form.isTypeLike then naming.shortType else naming.shortMember) := by
  cases r with
  | mk form head symbol members =>
    rw [element]
    rfl

end Resolved

namespace Document
variable {d : Document}

def Aligned (d : Document) : Prop :=
  ∀ c ∈ Cursor.all d.root, ∀ n ∈ c.node.children,
    d.source.isBoundary n.span.start ∧ d.source.isBoundary n.span.stop

theorem head_mem_all {n : Cursor} {form : Form} {head : Head Cursor}
    (place : n ∈ Cursor.all d.root) (introduces : n.Introduces form head) :
    head.node ∈ Cursor.all d.root := by
  cases introduces with
  | declarator kind listed =>
    rcases n.declarators_eq with none | ⟨declaration, child, _, eq⟩
    · simp [none] at listed
    · rw [eq] at listed
      obtain ⟨v, hv, rfl⟩ := List.mem_map.1 listed
      have inner := (List.mem_filter.1 (List.mem_filter.1 hv).1).1
      exact Cursor.child_mem_all (Cursor.child_mem_all place child) inner
  | _ => exact place

theorem listed_iff {c : Cursor} (reached : d.tree.Reached d.model c) {form : Form}
    {head : Head Cursor} (listed : (form, head) ∈ (d.tree.classify c).heads) :
    (∃ r ∈ d.declarations, r.form = form ∧ r.head = head) ↔
      ∃ t, form.place? head.node.node = some t ∧ form.accepts t := by
  constructor
  · rintro ⟨r, declared, rfl, rfl⟩
    obtain ⟨_, placed⟩ := placed_of_mem declared
    obtain ⟨_, _, declares, _⟩ := SyntaxTree.declares_of_placed placed
    obtain ⟨_, t, _, token, _⟩ := bound_of_declares declares
    exact ⟨t, Form.token?_eq_some.1 token⟩
  · rintro ⟨t, token⟩
    have binds : (head.node.bind? d.source).isSome ↔ (form.token? head.node.node).isSome :=
      (Cursor.introduces_of_mem listed).binds_iff
    rw [Form.token?_eq_some.2 token] at binds
    obtain ⟨s, bound⟩ := Option.isSome_iff_exists.1 (binds.2 rfl)
    have known : d.model head.node = some s.toBound := by rw [model, bound, Option.map_some]
    obtain ⟨r, declares, same⟩ := SyntaxTree.declares_of_listed listed known
    obtain ⟨_, placed⟩ := SyntaxTree.placed_of_declares reached declares
    exact ⟨r, Resolved.mem_families_of_placed placed, same⟩

theorem isSome_nameRange (naming : Naming) {n : Cursor} {r : Resolved Cursor} {t : Node}
    (introduces : n.Introduces r.form r.head) (token : r.form.token? r.head.node.node = some t) :
    ((r.element naming d.source).range? .name).isSome ↔ t.span.start < t.span.stop := by
  have shown : (r.element naming d.source).range? .name = d.source.shown? (some t.span) := by
    rw [Resolved.range?_element]
    change d.source.shown? r.head.extent.name = _
    rw [introduces.name_eq, token, Option.map_some]
  rw [shown]
  simp [SourceText.shown?, Span.isEmpty, Option.isSome_filter]

theorem display_namespace {f : DisplayFormat} (nameOnly : f.qualification = .nameOnly) {n : Cursor}
    {r : Resolved Cursor} {t : Node} (declares : d.tree.Declares d.model n r)
    (isNamespace : r.form.isNamespace) (token : r.form.token? r.head.node.node = some t) :
    r.symbol.display f = String.ofList ((t.segments d.source).getLast?.getD []) := by
  obtain ⟨listed, bound⟩ := declares.listed
  obtain ⟨s, binds, symbol⟩ := symbol_of_model bound
  have introduces := Cursor.introduces_of_mem listed
  rw [symbol]
  generalize r.form = form at *
  generalize r.head = head at *
  cases introduces with
  | «namespace» kind =>
    obtain ⟨name, found, _, own, parameters⟩ := Cursor.bind?_namespace kind binds
    obtain rfl := Option.some.inj (token.symm.trans found)
    change String.ofList (s.render f) = _
    rw [Symbol.render, Symbol.renderOwn_named f own parameters, Symbol.render_plain,
      Symbol.renderContainers, nameOnly, List.nil_append]
  | _ => simp [Form.isNamespace] at isNamespace

theorem name_ne_empty_iff (aligned : d.Aligned) {naming : Naming}
    (nameOnly : naming.shortType.qualification = .nameOnly) {n : Cursor} {r : Resolved Cursor}
    {t : Node} (place : n ∈ Cursor.all d.root) (declares : d.tree.Declares d.model n r)
    (token : r.form.token? r.head.node.node = some t) (filled : t.span.start < t.span.stop) :
    (r.element naming d.source).name ≠ "" ↔
      (r.form.isNamespace → (t.segments d.source).getLast? ≠ some []) := by
  rw [Resolved.name_element]
  by_cases isNamespace : r.form.isNamespace
  · have typeLike : r.form.isTypeLike := by
      cases form : r.form with
      | container => rfl
      | _ => simp [form, Form.isNamespace] at isNamespace
    have some := List.getLast?_eq_some_getLast (segments_ne_nil d.source t)
    rw [if_pos typeLike, display_namespace nameOnly declares isNamespace token, some]
    simp [isNamespace]
  · obtain ⟨introduces, u, s, same, symbol, known⟩ := bound_of_declares declares
    obtain rfl := Option.some.inj (token.symm.trans same)
    obtain ⟨first, last⟩ := aligned _ (head_mem_all place introduces) t (Form.token?_mem token)
    have text : t.text d.source ≠ [] := SourceText.slice_ne_nil first last filled
    rw [Bool.not_eq_true] at isNamespace
    simp only [isNamespace, Bool.false_eq_true, false_implies, iff_true]
    rw [symbol]
    intro empty
    refine Symbol.render_ne_nil ?_ (String.ofList_eq_empty_iff.1 empty)
    rw [known.name]
    exact Symbol.renderName_nameAs _ n isNamespace text

/-- A declaration is listed when the node in the place of its name is there and bears no mark
against it, whatever its width. Its element has a name and a name range exactly when that node
covers some text, whose last segment for a namespace is not blank. -/
theorem named_iff_filled (d : Document) (aligned : d.Aligned) :
    (∀ c form head, d.tree.Reached d.model c → (form, head) ∈ (d.tree.classify c).heads →
      ((∃ r ∈ d.declarations, r.form = form ∧ r.head = head) ↔
        ∃ t, form.place? head.node.node = some t ∧ form.accepts t)) ∧
    ∀ naming : Naming, naming.shortType.qualification = .nameOnly →
      (Element.listings 0 (d.outline naming).elements).map Prod.snd =
        d.declarations.map (Resolved.element naming d.source) ∧
      ∀ r ∈ d.declarations, ∃ t, r.form.place? r.head.node.node = some t ∧ r.form.accepts t ∧
        ((r.element naming d.source).name ≠ "" ∧
            ((r.element naming d.source).range? .name).isSome ↔
          t.span.start < t.span.stop ∧
            (r.form.isNamespace → (t.segments d.source).getLast? ≠ some [])) := by
  constructor
  · intro c form head reached listed
    exact listed_iff reached listed
  · intro naming nameOnly
    refine ⟨d.listing_eq_declarations naming, ?_⟩
    intro r declared
    obtain ⟨_, placed⟩ := placed_of_mem declared
    obtain ⟨n, reached, declares, _⟩ := SyntaxTree.declares_of_placed placed
    obtain ⟨introduces, t, _, token, _⟩ := bound_of_declares declares
    obtain ⟨found, accepted⟩ := Form.token?_eq_some.1 token
    refine ⟨t, found, accepted, ?_⟩
    rw [isSome_nameRange naming introduces token, and_comm]
    apply and_congr_right
    exact name_ne_empty_iff aligned nameOnly (reached_mem_all reached).1 declares token

/-- A class with two classes inside; the first has no name in the text, and the parser put in an
identifier without marking it. -/
def unnamedClass : Document :=
  { source := .ofString "class C \x7b class \x7b int x; \x7d class D \x7b \x7d \x7d"
    root := .named (.other "compilation_unit") none 0 40
      [.named (.type .class) none 0 40
        [.mark "class" 0 5, .named .identifier (some .name) 6 7 [],
         .named .memberList (some .body) 8 40
          [.mark "\x7b" 8 9,
           .named (.type .class) none 10 26
            [.mark "class" 10 15, .named .identifier (some .name) 15 15 [],
             .named .memberList (some .body) 16 26
              [.mark "\x7b" 16 17,
               .named (.field .field) none 18 24
                [.named .variableDeclaration none 18 23
                  [.named (.other "predefined_type") (some .type) 18 21 [],
                   .named .variableDeclarator none 22 23
                    [.named .identifier (some .name) 22 23 []]],
                 .mark ";" 23 24],
               .mark "\x7d" 25 26]],
           .named (.type .class) none 27 38
            [.mark "class" 27 32, .named .identifier (some .name) 33 34 [],
             .named .memberList (some .body) 35 38 [.mark "\x7b" 35 36, .mark "\x7d" 37 38]],
           .mark "\x7d" 39 40]]] }

theorem unnamedClass_lists_empty_name :
    ∃ p ∈ Element.listings 0 (unnamedClass.outline .standard).elements,
      p.2.name = "" ∧ p.2.range? .name = none := by
  let listing := Element.listings 0 (unnamedClass.outline .standard).elements
  exact ⟨listing.get ⟨1, by decide +kernel⟩, List.get_mem _ _, by decide +kernel, by decide +kernel⟩

theorem unnamedClass_others_named :
    ∃ r ∈ unnamedClass.declarations, (r.element .standard unnamedClass.source).name ≠ "" ∧
      ((r.element .standard unnamedClass.source).range? .name).isSome := by
  have aligned : unnamedClass.Aligned := by
    unfold Aligned
    decide +kernel
  let last := unnamedClass.declarations.getLast (List.isEmpty_eq_false_iff.1 (by decide +kernel))
  have declared : last ∈ unnamedClass.declarations := List.getLast_mem _
  obtain ⟨_, named⟩ := named_iff_filled unnamedClass aligned
  obtain ⟨t, found, _, iff⟩ := (named .standard rfl).2 last declared
  refine ⟨last, declared, iff.2 ⟨?_, ?_⟩⟩
  · revert t
    decide +kernel
  · intro isNamespace
    exact absurd isNamespace (by decide +kernel)

end Document
end CodeAtlas
