import CodeAtlas.Index
import CodeAtlas.Proofs.Resolution

/-!
An outline, listed parents first with depths, is the list of the declarations met on the way down
from the roots, less those that do not bind. The way down is defined here on the tree alone, before
any symbol is shown or any element is made.
-/
namespace CodeAtlas

namespace Element

def bare (e : Element) : Element := { e with children := none }

theorem listings_eq_flatMap (depth : Nat) (es : List Element) :
    listings depth es = es.flatMap (listing depth) := by
  induction es with
  | nil => rfl
  | cons e rest ih => rw [listings, ih, List.flatMap_cons]

theorem totals_eq_sum (es : List Element) : totals es = (es.map total).sum := by
  induction es with
  | nil => rfl
  | cons e rest ih => rw [totals, ih, List.map_cons, List.sum_cons]

mutual

theorem length_listing (depth : Nat) : (e : Element) → (listing depth e).length = e.total
  | ⟨_, _, _, some children, _, _⟩ => by
    rw [listing, total, List.length_cons, length_listings (depth + 1) children]
    omega
  | ⟨_, _, _, none, _, _⟩ => by rw [listing, total, List.length_singleton]

theorem length_listings (depth : Nat) :
    (es : List Element) → (listings depth es).length = totals es
  | [] => rfl
  | e :: rest => by
    rw [listings, totals, List.length_append, length_listing depth e, length_listings depth rest]

end

end Element

namespace Resolved
variable {N : Type} (naming : Naming) (text : SourceText)

theorem bare_element (form : Form) (head : Head N) (symbol : BoundSymbol)
    (members : List (Resolved N)) :
    (element naming text (.mk form head symbol members)).bare =
      element naming text (.mk form head symbol []) := by
  simp [element, elements, Element.bare]

theorem listing_element (depth : Nat) (form : Form) (head : Head N) (symbol : BoundSymbol)
    (members : List (Resolved N)) :
    Element.listing depth (element naming text (.mk form head symbol members)) =
      (depth, element naming text (.mk form head symbol members)) ::
        Element.listings (depth + 1) (elements naming text members) := by
  rw [element]
  cases elements naming text members with
  | nil => simp [Element.listing, Element.listings]
  | cons e rest => simp [Element.listing]

end Resolved

/-- A declaration met on the way down, whether it binds or not. -/
structure Handle (N : Type) where
  depth : Nat
  form : Form
  head : Head N

def Handle.shown? {N : Type} (model : Model N) (naming : Naming) (text : SourceText)
    (h : Handle N) : Option (Nat × Element) :=
  (model h.head.node).map fun symbol =>
    (h.depth, Resolved.element naming text (.mk h.form h.head symbol []))

namespace SyntaxTree
variable {N : Type}

/-- The declarations met from a node on, in order: the node's own, and below a container that binds
those of its members. -/
def handles (tree : SyntaxTree N) (model : Model N) (depth : Nat) (n : N) : List (Handle N) :=
  match _h : tree.classify n with
  | .container form head members =>
    ⟨depth, .container form, head⟩ ::
      if (model head.node).isSome then
        members.attach.flatMap fun ⟨m, _⟩ => tree.handles model (depth + 1) m
      else []
  | .single form head => [⟨depth, .single form, head⟩]
  | .fields statement =>
    statement.declarators.map fun v => ⟨depth, .declarator, statement.head v⟩
  | .other => []
termination_by tree.rank n
decreasing_by
  apply tree.rank_lt n m
  simp_all [Declaration.members]

variable {tree : SyntaxTree N} {model : Model N}

theorem handles_container {n : N} {form : ContainerForm} {head : Head N} {members : List N}
    (depth : Nat) (h : tree.classify n = .container form head members) :
    tree.handles model depth n =
      ⟨depth, .container form, head⟩ ::
        if (model head.node).isSome then members.flatMap (tree.handles model (depth + 1))
        else [] := by
  rw [handles]
  split <;> simp_all [List.flatMap]

theorem handles_single {n : N} {form : SingleForm} {head : Head N} (depth : Nat)
    (h : tree.classify n = .single form head) :
    tree.handles model depth n = [⟨depth, .single form, head⟩] := by
  rw [handles]
  split <;> simp_all

theorem handles_fields {n : N} {statement : FieldStatement N} (depth : Nat)
    (h : tree.classify n = .fields statement) :
    tree.handles model depth n =
      statement.declarators.map fun v => ⟨depth, .declarator, statement.head v⟩ := by
  rw [handles]
  split <;> simp_all

theorem handles_other {n : N} (depth : Nat) (h : tree.classify n = .other) :
    tree.handles model depth n = [] := by
  rw [handles]
  split <;> simp_all

variable (tree model) (naming : Naming) (text : SourceText)

def bareListing (depth : Nat) (found : List (Resolved N)) : List (Nat × Element) :=
  (Element.listings depth (Resolved.elements naming text found)).map fun p => (p.1, p.2.bare)

theorem bareListing_flatMap {α : Type} (depth : Nat) (l : List α) (f : α → List (Resolved N)) :
    bareListing naming text depth (l.flatMap f) =
      l.flatMap fun a => bareListing naming text depth (f a) := by
  simp [bareListing, Resolved.elements_eq_map, Element.listings_eq_flatMap, List.flatMap_map,
    List.map_flatMap, List.flatMap_assoc]

theorem bareListing_singleton (depth : Nat) (form : Form) (head : Head N) (symbol : BoundSymbol)
    (members : List (Resolved N)) :
    bareListing naming text depth [.mk form head symbol members] =
      (depth, Resolved.element naming text (.mk form head symbol [])) ::
        bareListing naming text (depth + 1) members := by
  rw [bareListing, Resolved.elements, Resolved.elements, Element.listings, Element.listings,
    List.append_nil, Resolved.listing_element, List.map_cons, Resolved.bare_element, bareListing]

theorem bareListing_resolveHead (depth : Nat) (form : Form) (head : Head N) :
    bareListing naming text depth (resolveHead model form head).found =
      (Handle.shown? model naming text ⟨depth, form, head⟩).toList := by
  rw [resolveHead, Handle.shown?]
  cases model head.node with
  | none => rfl
  | some symbol => exact bareListing_singleton naming text depth form head symbol []

theorem bareListing_resolve (depth : Nat) (n : N) :
    bareListing naming text depth (tree.resolve model n).found =
      (tree.handles model depth n).filterMap (Handle.shown? model naming text) := by
  induction n using tree.member_induction generalizing depth with
  | step n ih =>
    cases form_eq : tree.classify n with
    | container form head members =>
      have below : ∀ m ∈ members, bareListing naming text (depth + 1) (tree.resolve model m).found =
          (tree.handles model (depth + 1) m).filterMap (Handle.shown? model naming text) := by
        intro m hm
        exact ih m (by simpa [form_eq, Declaration.members] using hm) (depth + 1)
      rw [handles_container depth form_eq]
      cases bound : model head.node with
      | none =>
        rw [resolve_unbound form_eq bound]
        simp [Resolution.missing, bareListing, Resolved.elements, Element.listings,
          Handle.shown?, bound]
      -- a container that binds is listed first, and `below` lists its members one level deeper
      | some symbol =>
        rw [resolve_bound form_eq bound, bareListing_singleton, found_resolveAll,
          bareListing_flatMap, List.flatMap_congr below]
        simp [Handle.shown?, bound, List.filterMap_flatMap]
    | single form head =>
      rw [resolve_single form_eq, handles_single depth form_eq, bareListing_resolveHead]
      rfl
    | fields statement =>
      rw [resolve_fields form_eq, handles_fields depth form_eq, Resolution.found_concat,
        List.flatMap_map, bareListing_flatMap]
      simp only [bareListing_resolveHead]
      rw [List.filterMap_map, List.filterMap_eq_flatMap_toList]
      rfl
    | other =>
      rw [resolve_other form_eq, handles_other depth form_eq]
      rfl

theorem unbound_resolveHead (form : Form) (head : Head N) :
    (resolveHead model form head).unbound = if (model head.node).isNone then 1 else 0 := by
  rw [resolveHead]
  cases model head.node <;> rfl

theorem unbound_resolve (depth : Nat) (n : N) :
    (tree.resolve model n).unbound =
      (tree.handles model depth n).countP fun h => (model h.head.node).isNone := by
  induction n using tree.member_induction generalizing depth with
  | step n ih =>
    cases form_eq : tree.classify n with
    | container form head members =>
      have below : ∀ m ∈ members, (tree.resolve model m).unbound =
          (tree.handles model (depth + 1) m).countP fun h => (model h.head.node).isNone := by
        intro m hm
        exact ih m (by simpa [form_eq, Declaration.members] using hm) (depth + 1)
      rw [handles_container depth form_eq]
      cases bound : model head.node with
      | none =>
        rw [resolve_unbound form_eq bound]
        simp [Resolution.missing, bound]
      | some symbol =>
        rw [resolve_bound form_eq bound, unbound_resolveAll, List.map_congr_left below]
        simp [bound, List.countP_flatMap, Function.comp_def]
    | single form head =>
      rw [resolve_single form_eq, handles_single depth form_eq, unbound_resolveHead]
      simp [List.countP_singleton]
    | fields statement =>
      rw [resolve_fields form_eq, handles_fields depth form_eq, Resolution.unbound_concat,
        List.countP_map]
      induction statement.declarators with
      | nil => rfl
      | cons v rest ih => simp_all [unbound_resolveHead, List.countP_cons, Nat.add_comm]
    | other =>
      rw [resolve_other form_eq, handles_other depth form_eq]
      rfl

def rootHandles : List (Handle N) := tree.roots.flatMap (tree.handles model 0)

theorem bareListing_outline :
    bareListing naming text 0 (tree.resolution model).found =
      (tree.rootHandles model).filterMap (Handle.shown? model naming text) := by
  change bareListing naming text 0 (tree.resolveAll model tree.roots).found = _
  rw [found_resolveAll, bareListing_flatMap, rootHandles, List.filterMap_flatMap]
  simp only [bareListing_resolve]

theorem unbound_outline :
    (tree.outline model naming text).unbound =
      (tree.rootHandles model).countP fun h => (model h.head.node).isNone := by
  change (tree.resolveAll model tree.roots).unbound = _
  rw [unbound_resolveAll, rootHandles, List.countP_flatMap]
  simp only [unbound_resolve tree model 0, Function.comp_def]

end SyntaxTree

namespace Outline

theorem message_outlined_ne (top total : Nat) :
    (Event.outlined top total).message ≠ Event.message .unboundDeclaration := by
  intro same
  have first := congrArg (fun s => s.toList.head?) same
  change ("Extracted " ++ toString top ++ " top-level elements (" ++ toString total ++
    " total)").toList.head? = "Skipping declaration without a bound symbol".toList.head? at first
  simp [String.toList_append] at first

theorem count_unbound_messages (o : Outline) :
    (o.events.map Event.message).count (Event.message .unboundDeclaration) = o.unbound := by
  have last := message_outlined_ne o.elements.length (Element.totals o.elements)
  simp [events, List.count_append, last]

end Outline

/-- An outline lists, with their depths, exactly the declarations that are met and bind. Each that
is met and does not bind is reported once, and the last record gives the number of elements at the
top and of all of them. -/
theorem outline_lists_met_declarations {N : Type} (tree : SyntaxTree N) (model : Model N)
    (naming : Naming) (text : SourceText) :
    let o := tree.outline model naming text
    let met := tree.rootHandles model
    let total := (o.elements.map Element.total).sum
    (Element.listings 0 o.elements).map (fun p => (p.1, p.2.bare)) =
        met.filterMap (Handle.shown? model naming text) ∧
      (o.events.map Event.message).count "Skipping declaration without a bound symbol" =
        met.countP (fun h => (model h.head.node).isNone) ∧
      (o.events.map Event.message).getLast? =
        some ("Extracted " ++ toString o.elements.length ++ " top-level elements (" ++
          toString total ++ " total)") ∧
      total = (Element.listings 0 o.elements).length := by
  intro o met total
  have sum : Element.totals o.elements = total := Element.totals_eq_sum o.elements
  refine ⟨tree.bareListing_outline model naming text, ?_, ?_, ?_⟩
  · rw [← tree.unbound_outline model naming text]
    exact o.count_unbound_messages
  · rw [Outline.events, List.map_append, List.map_cons, List.map_nil, List.getLast?_append, sum]
    rfl
  · rw [Element.length_listings, sum]

end CodeAtlas
