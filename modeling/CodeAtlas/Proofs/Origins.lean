import CodeAtlas.Proofs.Listing
import CodeAtlas.Proofs.Members
import Mathlib.Data.List.Flatten

/-!
Where the elements of an outline come from. Bodies and file-scoped namespaces both give members, and
a node can be a member of two containers only if one of them is a file-scoped namespace that is
itself a member. Without such a namespace the rows of the elements grow along the listing.
-/
namespace CodeAtlas
open Syntax

namespace Resolved
variable {N : Type}

mutual

def family : Resolved N → List (Resolved N)
  | mk form head symbol members => mk form head symbol members :: families members

def families : List (Resolved N) → List (Resolved N)
  | [] => []
  | r :: rest => family r ++ families rest

end

theorem families_eq_flatMap (rs : List (Resolved N)) : families rs = rs.flatMap family := by
  induction rs with
  | nil => rfl
  | cons r rest ih => rw [families, ih, List.flatMap_cons]

mutual

theorem map_listing_element (naming : Naming) (text : SourceText) (depth : Nat) :
    (r : Resolved N) → (Element.listing depth (element naming text r)).map Prod.snd =
      (family r).map (element naming text)
  | mk form head symbol members => by
    rw [listing_element, family, List.map_cons, List.map_cons,
      map_listings_elements naming text (depth + 1) members]

theorem map_listings_elements (naming : Naming) (text : SourceText) (depth : Nat) :
    (rs : List (Resolved N)) → (Element.listings depth (elements naming text rs)).map Prod.snd =
      (families rs).map (element naming text)
  | [] => rfl
  | r :: rest => by
    rw [elements, Element.listings, families, List.map_append, List.map_append,
      map_listing_element naming text depth r, map_listings_elements naming text depth rest]

end

mutual

theorem placed_of_mem_family {forest : List (Resolved N)} :
    (r : Resolved N) → (∃ parent, Placed forest parent r) →
      ∀ q ∈ family r, ∃ parent, Placed forest parent q
  | mk form head symbol members, placed, q, member => by
    rw [family, List.mem_cons] at member
    rcases member with rfl | below
    · exact placed
    · obtain ⟨_, here⟩ := placed
      exact placed_of_mem_families members (fun m hm => ⟨_, here.member hm⟩) q below

theorem placed_of_mem_families {forest : List (Resolved N)} :
    (rs : List (Resolved N)) → (∀ r ∈ rs, ∃ parent, Placed forest parent r) →
      ∀ q ∈ families rs, ∃ parent, Placed forest parent q
  | [], _, q, member => by simp [families] at member
  | r :: rest, placed, q, member => by
    rw [families, List.mem_append] at member
    rcases member with first | later
    · exact placed_of_mem_family r (placed r List.mem_cons_self) q first
    · refine placed_of_mem_families rest (fun m hm => ?_) q later
      exact placed m (List.mem_cons_of_mem _ hm)

end

theorem mem_family (r : Resolved N) : r ∈ family r := by
  cases r with
  | mk form head symbol members =>
    rw [family]
    exact List.mem_cons_self

mutual

theorem members_of_mem_family {p q : Resolved N} (member : q ∈ p.members) :
    (r : Resolved N) → p ∈ family r → q ∈ family r
  | mk form head symbol members, h => by
    rw [family, List.mem_cons] at h ⊢
    right
    rcases h with rfl | below
    · rw [families_eq_flatMap]
      exact List.mem_flatMap.2 ⟨q, member, mem_family q⟩
    · exact members_of_mem_families member members below

theorem members_of_mem_families {p q : Resolved N} (member : q ∈ p.members) :
    (rs : List (Resolved N)) → p ∈ families rs → q ∈ families rs
  | [], h => by simp [families] at h
  | r :: rest, h => by
    rw [families, List.mem_append] at h ⊢
    rcases h with first | later
    · exact Or.inl (members_of_mem_family member r first)
    · exact Or.inr (members_of_mem_families member rest later)

end

theorem mem_families_of_placed {forest : List (Resolved N)} {parent : Option (Resolved N)}
    {r : Resolved N} (h : Placed forest parent r) : r ∈ families forest := by
  induction h with
  | top h =>
    rw [families_eq_flatMap]
    exact List.mem_flatMap.2 ⟨_, h, mem_family _⟩
  | member _ h ih => exact members_of_mem_families h _ ih

def rows (rs : List (Resolved Cursor)) : List Nat := (families rs).map fun r => r.head.node.row

theorem rows_flatMap {α : Type} (l : List α) (f : α → List (Resolved Cursor)) :
    rows (l.flatMap f) = l.flatMap fun a => rows (f a) := by
  simp [rows, families_eq_flatMap, List.flatMap_assoc, List.map_flatMap]

theorem rows_singleton (form : Form) (head : Head Cursor) (symbol : BoundSymbol)
    (members : List (Resolved Cursor)) :
    rows [.mk form head symbol members] = head.node.row :: rows members := by
  rw [rows, families, families, family, List.append_nil, List.map_cons]
  rfl

end Resolved

namespace Document
open Resolved SyntaxTree

def declarations (d : Document) : List (Resolved Cursor) :=
  families (d.tree.resolution d.model).found

def origins (d : Document) : List Nat := d.declarations.map fun r => r.head.node.row

theorem placed_of_mem {d : Document} {r : Resolved Cursor} (h : r ∈ d.declarations) :
    ∃ parent, Placed (d.tree.resolution d.model).found parent r :=
  placed_of_mem_families _ (fun _ top => ⟨none, .top top⟩) r h

def rowsAt (d : Document) (c : Cursor) : List Nat := rows (d.tree.resolve d.model c).found

/-- A file-scoped namespace `s` that binds is a member of `p`, so that a later sibling `x` of it,
which declares something, is a member of both. -/
structure Overlap (d : Document) (p s x : Cursor) : Prop where
  reached : d.tree.Reached d.model p
  member : s ∈ d.tree.entered d.model p
  fileScoped : s.kind = .namespace .fileScoped
  binds : (d.model s).isSome
  later : x ∈ s.namedFollowing
  declares : (d.tree.resolve d.model x).found ≠ []

theorem origins_eq (d : Document) : d.origins = d.rootMembers.flatMap d.rowsAt := by
  change rows (d.tree.resolveAll d.model d.rootMembers).found = _
  rw [found_resolveAll, rows_flatMap]
  rfl

theorem rowsAt_eq_nil {d : Document} {c : Cursor} (h : (d.tree.resolve d.model c).found = []) :
    d.rowsAt c = [] := by
  rw [rowsAt, h]
  rfl

theorem rowsAt_ne_nil {d : Document} {c : Cursor} (h : (d.tree.resolve d.model c).found ≠ []) :
    d.rowsAt c ≠ [] := by
  obtain ⟨r, rest, e⟩ := List.exists_cons_of_ne_nil h
  obtain ⟨form, head, symbol, members⟩ := r
  simp [rowsAt, e, rows, families, family]

theorem entered_of_binds {d : Document} {c : Cursor} {form : ContainerForm} {head : Head Cursor}
    {members : List Cursor} (h : c.classify = .container form head members)
    (binds : (d.model c).isSome) : d.tree.entered d.model c = members := by
  simp [entered, show d.tree.classify c = _ from h, Cursor.container_node h, binds]

theorem rowsAt_container {d : Document} {c : Cursor} {form : ContainerForm} {head : Head Cursor}
    {members : List Cursor} (h : c.classify = .container form head members)
    (binds : (d.model c).isSome) : d.rowsAt c = c.row :: members.flatMap d.rowsAt := by
  have node := Cursor.container_node h
  obtain ⟨symbol, bound⟩ := Option.isSome_iff_exists.1 binds
  rw [rowsAt, resolve_bound (show d.tree.classify c = _ from h) (by rw [node]; exact bound),
    rows_singleton, node, found_resolveAll, rows_flatMap]
  rfl

theorem rowsAt_unbound {d : Document} {c : Cursor} {form : ContainerForm} {head : Head Cursor}
    {members : List Cursor} (h : c.classify = .container form head members)
    (unbound : d.model c = none) : d.rowsAt c = [] := by
  have node := Cursor.container_node h
  have missing : d.tree.resolve d.model c = .missing :=
    resolve_unbound (show d.tree.classify c = _ from h) (by rw [node]; exact unbound)
  exact rowsAt_eq_nil (by rw [missing]; rfl)

def Ascending (low high : Nat) (rows : List Nat) : Prop :=
  rows.Pairwise (· < ·) ∧ ∀ r ∈ rows, low ≤ r ∧ r < high

theorem Ascending.nil (low high : Nat) : Ascending low high [] := ⟨List.Pairwise.nil, by simp⟩

theorem Ascending.mono {low high low' high' : Nat} {rows : List Nat}
    (h : Ascending low high rows) (lower : low' ≤ low) (higher : high ≤ high') :
    Ascending low' high' rows := by
  refine ⟨h.1, ?_⟩
  intro r member
  have bounds := h.2 r member
  omega

theorem Ascending.cons {low high : Nat} {rows : List Nat} (h : Ascending (low + 1) high rows)
    (room : low < high) : Ascending low high (low :: rows) := by
  refine ⟨List.pairwise_cons.2 ⟨?_, h.1⟩, ?_⟩
  · intro r member
    have bounds := h.2 r member
    omega
  · intro r member
    rcases List.mem_cons.1 member with rfl | member
    · omega
    · have bounds := h.2 r member
      omega

theorem Ascending.append {a b c : Nat} {front back : List Nat} (left : Ascending a b front)
    (right : Ascending b c back) (lower : a ≤ b) (higher : b ≤ c) :
    Ascending a c (front ++ back) := by
  refine ⟨List.pairwise_append.2 ⟨left.1, right.1, ?_⟩, ?_⟩
  · intro x hx y hy
    have below := left.2 x hx
    have above := right.2 y hy
    omega
  · intro r member
    rcases List.mem_append.1 member with member | member
    · have bounds := left.2 r member
      omega
    · have bounds := right.2 r member
      omega

theorem ascending_resolveHead (d : Document) (form : Form) (head : Head Cursor) :
    Ascending head.node.row (head.node.row + head.node.node.size)
      (rows (resolveHead d.model form head).found) := by
  rw [resolveHead]
  cases d.model head.node with
  | none => exact Ascending.nil _ _
  | some symbol =>
    have room := head.node.node.size_pos
    rw [rows_singleton]
    exact (Ascending.nil _ _).cons (by omega)

theorem ascending_flatMap {f : Cursor → List Nat} {l : List Cursor} {low high : Nat}
    (disjoint : l.Pairwise fun c e => c.row + c.node.size ≤ e.row)
    (within : ∀ c ∈ l, low ≤ c.row ∧ c.row + c.node.size ≤ high)
    (each : ∀ c ∈ l, Ascending c.row (c.row + c.node.size) (f c)) :
    Ascending low high (l.flatMap f) := by
  constructor
  · refine List.pairwise_flatMap.2 ⟨fun c hc => (each c hc).1, ?_⟩
    refine disjoint.imp_of_mem ?_
    intro c e hc he apart x hx y hy
    have left := (each c hc).2 x hx
    have right := (each e he).2 y hy
    omega
  · intro r member
    obtain ⟨c, hc, hr⟩ := List.mem_flatMap.1 member
    have bounds := (each c hc).2 r hr
    have outer := within c hc
    omega

theorem ascending_namedChildren {f : Cursor → List Nat} (c : Cursor)
    (each : ∀ m ∈ c.namedChildren, Ascending m.row (m.row + m.node.size) (f m)) :
    Ascending (c.row + 1) (c.row + c.node.size) (c.namedChildren.flatMap f) := by
  refine ascending_flatMap (c.children_disjoint.filter _) ?_ each
  intro m hm
  have bounds := Cursor.row_child (List.mem_filter.1 hm).1
  omega

theorem ascending_bodyMembers {f : Cursor → List Nat} (c : Cursor)
    (each : ∀ m ∈ c.bodyMembers, Ascending m.row (m.row + m.node.size) (f m)) :
    Ascending (c.row + 1) (c.row + c.node.size) (c.bodyMembers.flatMap f) := by
  rw [Cursor.bodyMembers] at each ⊢
  cases found : c.body? with
  | none => exact Ascending.nil _ _
  | some b =>
    rw [found] at each
    have bounds := Cursor.row_child (Cursor.body?_mem found)
    exact (ascending_namedChildren b each).mono (by omega) (by omega)

theorem ascending_fields (d : Document) {c : Cursor} {statement : FieldStatement Cursor}
    (h : c.classify = .fields statement) :
    Ascending c.row (c.row + c.node.size) (d.rowsAt c) := by
  rw [rowsAt, resolve_fields (show d.tree.classify c = _ from h), Resolution.found_concat,
    List.flatMap_map, rows_flatMap, (Cursor.classify_fields h).2]
  rcases c.declarators_eq with none | ⟨declaration, child, _, some⟩
  · simp only [none]
    exact Ascending.nil _ _
  · simp only [some, List.flatMap_map]
    have outer := Cursor.row_child child
    refine ascending_flatMap ((declaration.children_disjoint.filter _).filter _) ?_ ?_
    · intro v hv
      have bounds := Cursor.row_child (List.mem_filter.1 (List.mem_filter.1 hv).1).1
      omega
    · intro v _
      exact ascending_resolveHead d .declarator _

theorem ascending_single (d : Document) {c : Cursor} {form : SingleForm} {head : Head Cursor}
    (h : c.classify = .single form head) :
    Ascending c.row (c.row + c.node.size) (d.rowsAt c) := by
  obtain ⟨name, rfl, _⟩ := Cursor.classify_single h
  rw [rowsAt, resolve_single (show d.tree.classify c = _ from h)]
  exact ascending_resolveHead d (.single form) (c.head name)

theorem ascending_rowsAt (d : Document) (clear : ∀ p s x, ¬ d.Overlap p s x) (c : Cursor)
    (reached : d.tree.Reached d.model c)
    (alone : c.kind = .namespace .fileScoped → (d.model c).isSome →
      ∀ x ∈ c.namedFollowing, (d.tree.resolve d.model x).found = []) :
    Ascending c.row (c.row + c.node.size) (d.rowsAt c) := by
  -- `alone` is what a member needs for its rows to stay below it; where it fails there is overlap
  induction c using d.tree.member_induction with
  | step c ih =>
    cases h : c.classify with
    | container form head members =>
      cases bound : d.model c with
      | none =>
        rw [rowsAt_unbound h bound]
        exact Ascending.nil _ _
      | some symbol =>
        have binds : (d.model c).isSome := by rw [bound]; rfl
        have each : ∀ m ∈ members, Ascending m.row (m.row + m.node.size) (d.rowsAt m) := by
          intro m hm
          have owned : m ∈ d.tree.entered d.model c := by rwa [entered_of_binds h binds]
          refine ih m (mem_members_of_entered _ _ owned) (reached.member owned) ?_
          intro kind mBinds x later
          by_contra declares
          exact clear c m x ⟨reached, owned, kind, mBinds, later, declares⟩
        have room := c.node.size_pos
        rw [rowsAt_container h binds]
        refine Ascending.cons ?_ (by omega)
        have shape := (Cursor.classify_container h).2.2.2
        split at shape
        · next kind =>
          subst shape
          rw [Cursor.fileMembers, List.flatMap_append]
          have silent : c.namedFollowing.flatMap d.rowsAt = [] := by
            refine List.flatMap_eq_nil_iff.2 fun x hx => ?_
            exact rowsAt_eq_nil (alone kind binds x hx)
          rw [silent, List.append_nil]
          exact ascending_namedChildren c fun m hm => each m (List.mem_append_left _ hm)
        · subst shape
          exact ascending_bodyMembers c each
    | single form head => exact ascending_single d h
    | fields statement => exact ascending_fields d h
    | other =>
      have empty : d.tree.resolve d.model c = .empty :=
        resolve_other (show d.tree.classify c = _ from h)
      rw [rowsAt_eq_nil (by rw [empty]; rfl)]
      exact Ascending.nil _ _

theorem ascending_rootNamespace (d : Document) (clear : ∀ p s x, ¬ d.Overlap p s x) {c : Cursor}
    (root : c ∈ d.rootMembers) (kind : c.kind = .namespace .fileScoped) :
    Ascending c.row (c.row + c.reach) (d.rowsAt c) := by
  have h : c.classify = .container .namespace (c.head c.node.name?) c.fileMembers := by
    simp [Cursor.classify, kind]
  cases bound : d.model c with
  | none =>
    rw [rowsAt_unbound h bound]
    exact Ascending.nil _ _
  | some symbol =>
    have binds : (d.model c).isSome := by rw [bound]; rfl
    have each : ∀ m ∈ c.fileMembers, Ascending m.row (m.row + m.node.size) (d.rowsAt m) := by
      intro m hm
      have owned : m ∈ d.tree.entered d.model c := by rwa [entered_of_binds h binds]
      refine ascending_rowsAt d clear m ((Reached.root root).member owned) ?_
      intro kind mBinds x later
      by_contra declares
      exact clear c m x ⟨.root root, owned, kind, mBinds, later, declares⟩
    have room := c.node.size_pos
    have reach : c.reach = c.node.size + Node.sizes c.after := rfl
    rw [rowsAt_container h binds, Cursor.fileMembers, List.flatMap_append]
    refine Ascending.cons ?_ (by omega)
    refine Ascending.append ?_ ?_ (by omega) (by omega) (b := c.row + c.node.size)
    · exact ascending_namedChildren c fun m hm => each m (List.mem_append_left _ hm)
    · refine ascending_flatMap (c.following_disjoint.filter _) ?_ fun m hm =>
        each m (List.mem_append_right _ hm)
      intro m hm
      exact Cursor.row_later (List.mem_filter.1 hm).1

theorem origins_ascend (d : Document) (clear : ∀ p s x, ¬ d.Overlap p s x) :
    d.origins.Pairwise (· < ·) := by
  have plain : ∀ c ∈ d.rootMembers, c.kind ≠ .namespace .fileScoped →
      Ascending c.row (c.row + c.node.size) (d.rowsAt c) := by
    intro c hc kind
    exact ascending_rowsAt d clear c (.root hc) fun same => absurd same kind
  have each : ∀ c ∈ d.rootMembers, Ascending c.row (c.row + c.reach) (d.rowsAt c) := by
    intro c hc
    have reach : c.reach = c.node.size + Node.sizes c.after := rfl
    by_cases kind : c.kind = .namespace .fileScoped
    · exact ascending_rootNamespace d clear hc kind
    · exact (plain c hc kind).mono (by omega) (by omega)
  rw [origins_eq]
  -- only the last root can be a file-scoped namespace, so all before it keep to themselves
  refine List.pairwise_flatMap.2 ⟨fun c hc => (each c hc).1, ?_⟩
  have line := Cursor.takeThrough_pairwise (p := fun c => c.kind == .namespace .fileScoped)
    ((Cursor.root d.root).children_disjoint.filter (·.node.isNamed))
  refine List.Pairwise.imp_of_mem ?_ line
  intro c e hc he apart x hx y hy
  have left := (plain c hc (by simpa using apart.1)).2 x hx
  have right := (each e he).2 y hy
  have gap := apart.2
  omega

theorem entered_sublist (d : Document) (c : Cursor) :
    ((d.tree.entered d.model c).flatMap d.rowsAt).Sublist (d.rowsAt c) := by
  cases h : c.classify with
  | container form head members =>
    cases bound : d.model c with
    | none =>
      have node := Cursor.container_node h
      simp [entered, show d.tree.classify c = _ from h, node, bound]
    | some symbol =>
      have binds : (d.model c).isSome := by rw [bound]; rfl
      rw [entered_of_binds h binds, rowsAt_container h binds]
      exact List.sublist_cons_self _ _
  | single | fields | other => simp [entered, show d.tree.classify c = _ from h]

theorem rowsAt_sublist (d : Document) {c : Cursor} {nodes : List Cursor} (h : c ∈ nodes) :
    (d.rowsAt c).Sublist (nodes.flatMap d.rowsAt) := by
  have alone := (List.singleton_sublist.2 h).flatMap d.rowsAt
  rwa [List.flatMap_singleton] at alone

theorem rowsAt_sublist_origins (d : Document) {c : Cursor} (reached : d.tree.Reached d.model c) :
    (d.rowsAt c).Sublist d.origins := by
  induction reached with
  | @root n h =>
    rw [origins_eq]
    exact d.rowsAt_sublist h
  | @member p n _ h ih =>
    exact (d.rowsAt_sublist h).trans ((d.entered_sublist p).trans ih)

theorem origins_repeat (d : Document) {p s x : Cursor} (overlap : d.Overlap p s x) :
    ¬ d.origins.Nodup := by
  intro nodup
  obtain ⟨reached, member, kind, binds, later, declares⟩ := overlap
  have h : s.classify = .container .namespace (s.head s.node.name?) s.fileMembers := by
    simp [Cursor.classify, kind]
  have form := mem_members_of_entered _ _ member
  have members : d.tree.entered d.model p = p.classify.members :=
    entered_eq_members _ _ member
  -- `p` gives the rows of `x` after those of `s`, which already have them
  have both : (d.rowsAt s ++ d.rowsAt x).Sublist d.origins := by
    have pair := (Cursor.pair_sublist_members form later).flatMap d.rowsAt
    rw [← members] at pair
    simpa using pair.trans ((d.entered_sublist p).trans (d.rowsAt_sublist_origins reached))
  have inside : (d.rowsAt x).Sublist (d.rowsAt s) := by
    have owned : x ∈ d.tree.entered d.model s := by
      rw [entered_of_binds h binds]
      exact List.mem_append_right _ later
    exact (d.rowsAt_sublist owned).trans (d.entered_sublist s)
  obtain ⟨row, hrow⟩ := List.exists_mem_of_ne_nil _ (rowsAt_ne_nil declares)
  exact (List.nodup_append.1 (nodup.sublist both)).2.2 row (inside.subset hrow) row hrow rfl

theorem listing_eq_declarations (d : Document) (naming : Naming) :
    (Element.listings 0 (d.outline naming).elements).map Prod.snd =
      d.declarations.map (element naming d.source) :=
  map_listings_elements naming d.source 0 _

theorem mem_listing {d : Document} {naming : Naming} {p : Nat × Element}
    (h : p ∈ Element.listings 0 (d.outline naming).elements) :
    ∃ r ∈ d.declarations, p.2 = element naming d.source r := by
  have shown := List.mem_map_of_mem (f := Prod.snd) h
  rw [listing_eq_declarations] at shown
  obtain ⟨r, declared, same⟩ := List.mem_map.1 shown
  exact ⟨r, declared, same.symm⟩

/-- Each element listed shows one declaration, and no two elements show the same one exactly when no
member of a file-scoped namespace is a member of the namespace's own container as well. -/
theorem elements_distinct_iff (d : Document) (naming : Naming) :
    (Element.listings 0 (d.outline naming).elements).map Prod.snd =
        d.declarations.map (element naming d.source) ∧
      ((d.declarations.map fun r => r.head.node.row).Nodup ↔ ∀ p s x, ¬ d.Overlap p s x) := by
  refine ⟨d.listing_eq_declarations naming, ?_, ?_⟩
  · intro nodup p s x overlap
    exact d.origins_repeat overlap nodup
  · intro clear
    exact (d.origins_ascend clear).imp fun {_ _} h => Nat.ne_of_lt h

def twoNamespaces : Document :=
  { source := .ofString "namespace A;\nnamespace B;\nclass C \x7b \x7d"
    root := .named (.other "compilation_unit") none 0 37
      [.named (.namespace .fileScoped) none 0 12
        [.mark "namespace" 0 9, .named .identifier (some .name) 10 11 [], .mark ";" 11 12],
       .named (.namespace .fileScoped) none 13 25
        [.mark "namespace" 13 22, .named .identifier (some .name) 23 24 [], .mark ";" 24 25],
       .named (.type .class) none 26 37
        [.mark "class" 26 31, .named .identifier (some .name) 32 33 [],
         .named .memberList (some .body) 34 37 [.mark "\x7b" 34 35, .mark "\x7d" 36 37]]] }

theorem twoNamespaces_repeats_class :
    ¬ (twoNamespaces.declarations.map fun r => r.head.node.row).Nodup := by
  decide +kernel

end Document
end CodeAtlas
