import CodeAtlas.Proofs.Origins

/-!
Going down a tree goes forward in its rows. The members of a file-scoped namespace are not below it,
but like all members they come after their container in pre-order, and so do the declarators of a
field statement. A way down is therefore never longer than the list of rows, and a walk that is
allowed that many nested calls finds all that resolving finds.
-/
namespace CodeAtlas
open Syntax

theorem mapM_eq_pure {m : Type → Type} [Monad m] [LawfulMonad m] {α β : Type} {f : α → m β}
    {g : α → β} {l : List α} (h : ∀ a ∈ l, f a = pure (g a)) : l.mapM f = pure (l.map g) := by
  induction l with
  | nil => simp
  | cons a rest ih =>
    have others : rest.mapM f = pure (rest.map g) :=
      ih fun b later => h b (List.mem_cons_of_mem a later)
    simp [List.mapM_cons, h a List.mem_cons_self, others]

/-- The nodes that a declaration hands on: the members of a container, the declarators of a field
statement. -/
def Declaration.reported {N : Type} : Declaration N → List N
  | .container _ _ members => members
  | .fields statement => statement.declarators.map (·.node)
  | _ => []

theorem Declaration.reported_of_members {N : Type} {d : Declaration N} {m : N}
    (h : m ∈ d.members) : m ∈ d.reported := by
  cases d with
  | container => exact h
  | single | fields | other => cases h

namespace Syntax

namespace Node

mutual

theorem length_rows (depth : Nat) : (n : Node) → (n.rows depth).length = n.size
  | mk label children => by
    rw [rows, size, List.length_cons, length_rowsOf (depth + 1) children]
    omega

theorem length_rowsOf (depth : Nat) : (nodes : List Node) → (rowsOf depth nodes).length = sizes nodes
  | [] => rfl
  | n :: rest => by
    rw [rowsOf, sizes, List.length_append, length_rows depth n, length_rowsOf depth rest]

end

end Node

namespace Cursor

mutual

theorem map_row_walk (above : List Place) (row : Nat) (before after : List Node) :
    (n : Node) → (walk above row before after n).map (·.row) = List.range' row n.size
  | .mk label children => by
    rw [walk, Node.size, List.map_cons, map_row_walkLine _ (row + 1) [] children, Nat.add_comm 1,
      List.range'_succ]

theorem map_row_walkLine (above : List Place) (row : Nat) (before : List Node) :
    (nodes : List Node) →
      (walkLine above row before nodes).map (·.row) = List.range' row (Node.sizes nodes)
  | [] => rfl
  | n :: rest => by
    rw [walkLine, Node.sizes, List.map_append, map_row_walk above row before rest n,
      map_row_walkLine above (row + n.size) (n :: before) rest, ← List.range'_append, Nat.one_mul]

end

mutual

theorem map_label_walk (above : List Place) (row depth : Nat) (before after : List Node) :
    (n : Node) →
      (walk above row before after n).map (·.node.label) = (n.rows depth).map Prod.snd
  | .mk label children => by
    rw [walk, Node.rows, List.map_cons, List.map_cons,
      map_label_walkLine _ (row + 1) (depth + 1) [] children]
    rfl

theorem map_label_walkLine (above : List Place) (row depth : Nat) (before : List Node) :
    (nodes : List Node) →
      (walkLine above row before nodes).map (·.node.label) = (Node.rowsOf depth nodes).map Prod.snd
  | [] => rfl
  | n :: rest => by
    rw [walkLine, Node.rowsOf, List.map_append, List.map_append,
      map_label_walk above row depth before rest n,
      map_label_walkLine above (row + n.size) depth (n :: before) rest]

end

theorem map_row_all (n : Node) : (all n).map (·.row) = List.range (n.rows 0).length := by
  rw [Node.length_rows, List.range_eq_range']
  exact map_row_walk [] 0 [] [] n

theorem row_lt_of_mem_all {n : Node} {c : Cursor} (h : c ∈ all n) : c.row < (n.rows 0).length := by
  have member : c.row ∈ (all n).map (·.row) := List.mem_map_of_mem h
  rwa [map_row_all, List.mem_range] at member

theorem reported_forward {n : Node} {c m : Cursor} (h : c ∈ all n)
    (reported : m ∈ c.classify.reported) : m ∈ all n ∧ c.row < m.row := by
  cases form : c.classify with
  | container _ _ members =>
    rw [form] at reported
    have member : m ∈ c.classify.members := by rwa [form]
    exact ⟨(members_mem_all h member).1, (reach_members member).2⟩
  | fields statement =>
    rw [form] at reported
    obtain ⟨v, listed, rfl⟩ := List.mem_map.1 reported
    rw [(classify_fields form).2] at listed
    rcases c.declarators_eq with none | ⟨declaration, child, _, eq⟩
    · simp [none] at listed
    · rw [eq] at listed
      obtain ⟨d, found, rfl⟩ := List.mem_map.1 listed
      have inner : d ∈ declaration.children := (List.mem_filter.1 (List.mem_filter.1 found).1).1
      refine ⟨child_mem_all (child_mem_all h child) inner, ?_⟩
      exact Nat.lt_trans (reach_child child).2 (reach_child inner).2
  | single | other =>
    rw [form] at reported
    cases reported

end Cursor
end Syntax

namespace SyntaxTree
variable {N : Type}

/-- All that a node declares, found with at most `limit` calls inside one another. -/
def resolveWithin (classify : N → Declaration N) (model : Model N) :
    Nat → N → Option (Resolution N)
  | 0, _ => none
  | limit + 1, n =>
    match classify n with
    | .container form head members =>
      match model head.node with
      | none => some .missing
      | some symbol => do
        let inner := Resolution.concat (← members.mapM (resolveWithin classify model limit))
        pure ⟨[.mk (.container form) head symbol inner.found], inner.unbound⟩
    | .single form head => some (resolveHead model (.single form) head)
    | .fields statement =>
      some (Resolution.concat (statement.declarators.map fun v =>
        resolveHead model .declarator (statement.head v)))
    | .other => some .empty

def outlineWithin (limit : Nat) (roots : List N) (classify : N → Declaration N) (model : Model N)
    (naming : Naming) (text : SourceText) : Option Outline := do
  let resolution := Resolution.concat (← roots.mapM (resolveWithin classify model limit))
  pure ⟨Resolved.elements naming text resolution.found, resolution.unbound⟩

/-- A walk whose calls go forward among `count` numbers never nests deeper than the numbers left. -/
theorem resolveWithin_eq (tree : SyntaxTree N) (model : Model N) {number : N → Nat} {count : Nat}
    {Known : N → Prop} (within : ∀ n, Known n → number n < count)
    (forward : ∀ n, Known n → ∀ m ∈ (tree.classify n).members, Known m ∧ number n < number m)
    (limit : Nat) (n : N) (known : Known n) (enough : count ≤ number n + limit) :
    resolveWithin tree.classify model limit n = some (tree.resolve model n) := by
  induction limit generalizing n with
  | zero =>
    have := within n known
    omega
  | succ limit ih =>
    cases form_eq : tree.classify n with
    | container form head members =>
      have later : ∀ m ∈ members,
          resolveWithin tree.classify model limit m = pure (tree.resolve model m) := by
        intro m member
        obtain ⟨known, ahead⟩ := forward n known m (by rwa [form_eq])
        exact ih m known (by omega)
      cases bound : model head.node with
      | none => simp only [resolveWithin, form_eq, bound, resolve_unbound form_eq bound]
      | some symbol =>
        simp only [resolveWithin, form_eq, bound, mapM_eq_pure later, resolve_bound form_eq bound]
        rfl
    | single form head => simp only [resolveWithin, form_eq, resolve_single form_eq]
    | fields statement => simp only [resolveWithin, form_eq, resolve_fields form_eq]
    | other => simp only [resolveWithin, form_eq, resolve_other form_eq]

end SyntaxTree

namespace Document
open SyntaxTree

/-- Every row hands on later rows only, so the walk over a document ends whatever its tree: from any
row it needs no more nested calls than there are rows from there on, and from the top no more than
there are rows. -/
theorem descent_within_rows (d : Document) :
    let rows := d.root.rows 0
    ((Cursor.all d.root).map (·.row) = List.range rows.length ∧
        (Cursor.all d.root).map (·.node.label) = rows.map Prod.snd) ∧
      (∀ c ∈ Cursor.all d.root, ∀ m ∈ c.classify.reported,
        m ∈ Cursor.all d.root ∧ c.row < m.row) ∧
      (∀ (model : Model Cursor), ∀ c ∈ Cursor.all d.root,
        resolveWithin Cursor.classify model (rows.length - c.row) c =
          some (d.tree.resolve model c)) ∧
      ∀ naming, outlineWithin rows.length d.rootMembers Cursor.classify d.model naming d.source =
        some (d.outline naming) := by
  intro rows
  have forward : ∀ c, c ∈ Cursor.all d.root → ∀ m ∈ (d.tree.classify c).members,
      m ∈ Cursor.all d.root ∧ c.row < m.row := by
    intro c h m member
    exact Cursor.reported_forward h (Declaration.reported_of_members member)
  have resolved : ∀ (model : Model Cursor) (limit : Nat), ∀ c ∈ Cursor.all d.root,
      rows.length ≤ c.row + limit →
        resolveWithin Cursor.classify model limit c = pure (d.tree.resolve model c) := by
    intro model limit c h
    exact resolveWithin_eq d.tree model (fun _ h => Cursor.row_lt_of_mem_all h) forward limit c h
  refine ⟨⟨Cursor.map_row_all d.root, Cursor.map_label_walk [] 0 0 [] [] d.root⟩,
    fun c h m => Cursor.reported_forward h, ?_, ?_⟩
  · intro model c h
    exact resolved model _ c h (by omega)
  · intro naming
    have tops : ∀ c ∈ d.rootMembers,
        resolveWithin Cursor.classify d.model rows.length c = pure (d.tree.resolve d.model c) := by
      intro c top
      exact resolved d.model _ c (reached_mem_all (.root top)).1 (by omega)
    rw [outlineWithin, mapM_eq_pure tops]
    rfl

theorem twoNamespaces_descends :
    ∃ a b c : Cursor, (a.row, b.row, c.row) = (1, 5, 9) ∧ a ∈ Cursor.all twoNamespaces.root ∧
      b ∈ a.classify.reported ∧ c ∈ a.classify.reported ∧ c ∈ b.classify.reported ∧
      (b ∈ Cursor.all twoNamespaces.root ∧ a.row < b.row) ∧
      (c ∈ Cursor.all twoNamespaces.root ∧ b.row < c.row) ∧
      resolveWithin Cursor.classify twoNamespaces.model 10 b =
        some (twoNamespaces.tree.resolve twoNamespaces.model b) ∧
      outlineWithin 15 twoNamespaces.rootMembers Cursor.classify twoNamespaces.model .standard
        twoNamespaces.source = some (twoNamespaces.outline .standard) := by
  obtain ⟨_, forward, resolved, outlined⟩ := twoNamespaces.descent_within_rows
  let all := Cursor.all twoNamespaces.root
  let a := all.get ⟨1, by decide⟩
  let b := all.get ⟨5, by decide⟩
  let c := all.get ⟨9, by decide⟩
  have ab : b ∈ a.classify.reported := .tail _ (.head _)
  have ac : c ∈ a.classify.reported := .tail _ (.tail _ (.head _))
  have bc : c ∈ b.classify.reported := .tail _ (.head _)
  have here : a ∈ all := List.get_mem all ⟨1, by decide⟩
  have next := forward a here b ab
  exact ⟨a, b, c, rfl, here, ab, ac, bc, next, forward b next.1 c bc,
    resolved twoNamespaces.model b next.1, outlined .standard⟩

end Document
end CodeAtlas
