import CodeAtlas.Outline
import Mathlib.Algebra.GroupWithZero.Nat
import Mathlib.Algebra.Order.BigOperators.Group.List
import Mathlib.Algebra.Order.Group.Nat
import Mathlib.Data.Fintype.Card
import Mathlib.Order.WellFounded

/-!
What resolving gives, declaration by declaration. `Declares` says which resolved declarations a
node stands for, `Reached` which nodes resolving comes to, and `Placed` where a resolved declaration
stands in a forest. Facts about a forest are proved from these three and not from the recursion.
-/
namespace CodeAtlas

namespace Resolution
variable {N : Type}

theorem found_concat (rs : List (Resolution N)) :
    (concat rs).found = rs.flatMap Resolution.found := by
  induction rs with
  | nil => rfl
  | cons r rest ih => rw [concat, append, ih, List.flatMap_cons]

theorem unbound_concat (rs : List (Resolution N)) :
    (concat rs).unbound = (rs.map Resolution.unbound).sum := by
  induction rs with
  | nil => rfl
  | cons r rest ih => rw [concat, append, ih, List.map_cons, List.sum_cons]

end Resolution

namespace SyntaxTree
variable {N : Type}

noncomputable def height {classify : N → Declaration N}
    (founded : WellFounded fun m n => m ∈ (classify n).members) : N → Nat :=
  founded.fix fun n below => ((classify n).members.attach.map fun m => below m.1 m.2).sum + 1

theorem height_lt {classify : N → Declaration N}
    (founded : WellFounded fun m n => m ∈ (classify n).members) (n m : N)
    (h : m ∈ (classify n).members) : height founded m < height founded n := by
  have unfolded : height founded n =
      ((classify n).members.attach.map fun m => height founded m.1).sum + 1 :=
    founded.fix_eq _ n
  have bound : height founded m ≤
      ((classify n).members.attach.map fun m => height founded m.1).sum :=
    List.single_le_sum (by simp) _ (List.mem_map.2 ⟨⟨m, h⟩, List.mem_attach _ _, rfl⟩)
  omega

/-- A sorting of nodes can be ranked exactly when going from containers to members ends. -/
theorem exists_iff_wellFounded (roots : List N) (classify : N → Declaration N) :
    (∃ tree : SyntaxTree N, tree.roots = roots ∧ tree.classify = classify) ↔
      WellFounded fun m n => m ∈ (classify n).members := by
  constructor
  · rintro ⟨tree, rfl, rfl⟩
    exact Subrelation.wf (fun {m n} h => tree.rank_lt n m h) (measure tree.rank).wf
  · intro founded
    exact ⟨⟨roots, classify, height founded, height_lt founded⟩, rfl, rfl⟩

/-- With finitely many nodes, that is when no node is a member of itself at any depth. -/
theorem exists_iff_acyclic [Finite N] (roots : List N) (classify : N → Declaration N) :
    (∃ tree : SyntaxTree N, tree.roots = roots ∧ tree.classify = classify) ↔
      ∀ n, ¬ Relation.TransGen (fun m n => m ∈ (classify n).members) n n := by
  rw [exists_iff_wellFounded]
  constructor
  · intro founded n cycle
    exact founded.transGen.irrefl.irrefl n cycle
  · intro acyclic
    have : Std.Irrefl (Relation.TransGen fun m n => m ∈ (classify n).members) := ⟨acyclic⟩
    exact Subrelation.wf (fun h => .single h) (Finite.wellFounded_of_trans_of_irrefl
      (Relation.TransGen fun m n => m ∈ (classify n).members))

variable (tree : SyntaxTree N) (model : Model N)

def resolveAll (nodes : List N) : Resolution N := Resolution.concat (nodes.map (tree.resolve model))

theorem found_resolveAll (nodes : List N) :
    (tree.resolveAll model nodes).found = nodes.flatMap fun n => (tree.resolve model n).found := by
  rw [resolveAll, Resolution.found_concat, List.flatMap_map]

theorem unbound_resolveAll (nodes : List N) :
    (tree.resolveAll model nodes).unbound =
      (nodes.map fun n => (tree.resolve model n).unbound).sum := by
  rw [resolveAll, Resolution.unbound_concat, List.map_map]
  rfl

variable {tree model}

theorem resolve_bound {n : N} {form : ContainerForm} {head : Head N} {members : List N}
    {symbol : BoundSymbol} (h : tree.classify n = .container form head members)
    (bound : model head.node = some symbol) :
    tree.resolve model n =
      ⟨[.mk (.container form) head symbol (tree.resolveAll model members).found],
        (tree.resolveAll model members).unbound⟩ := by
  rw [resolve]
  split <;> simp_all [resolveAll]

theorem resolve_unbound {n : N} {form : ContainerForm} {head : Head N} {members : List N}
    (h : tree.classify n = .container form head members) (unbound : model head.node = none) :
    tree.resolve model n = .missing := by
  rw [resolve]
  split <;> simp_all

theorem resolve_single {n : N} {form : SingleForm} {head : Head N}
    (h : tree.classify n = .single form head) :
    tree.resolve model n = resolveHead model (.single form) head := by
  rw [resolve]
  split <;> simp_all

theorem resolve_fields {n : N} {statement : FieldStatement N}
    (h : tree.classify n = .fields statement) :
    tree.resolve model n =
      Resolution.concat (statement.declarators.map fun v =>
        resolveHead model .declarator (statement.head v)) := by
  rw [resolve]
  split <;> simp_all

theorem resolve_other {n : N} (h : tree.classify n = .other) :
    tree.resolve model n = .empty := by
  rw [resolve]
  split <;> simp_all

theorem mem_resolveHead {form : Form} {head : Head N} {r : Resolved N} :
    r ∈ (resolveHead model form head).found ↔
      ∃ symbol, model head.node = some symbol ∧ r = .mk form head symbol [] := by
  rw [resolveHead]
  split <;> simp_all [Resolution.missing]

variable (tree model)

inductive Declares (n : N) : Resolved N → Prop where
  | container {form : ContainerForm} {head : Head N} {members : List N} {symbol : BoundSymbol}
      (form_eq : tree.classify n = .container form head members)
      (bound : model head.node = some symbol) :
      Declares n (.mk (.container form) head symbol (tree.resolveAll model members).found)
  | single {form : SingleForm} {head : Head N} {symbol : BoundSymbol}
      (form_eq : tree.classify n = .single form head)
      (bound : model head.node = some symbol) : Declares n (.mk (.single form) head symbol [])
  | declarator {statement : FieldStatement N} {v : Declarator N} {symbol : BoundSymbol}
      (form_eq : tree.classify n = .fields statement) (listed : v ∈ statement.declarators)
      (bound : model v.node = some symbol) :
      Declares n (.mk .declarator (statement.head v) symbol [])

theorem mem_resolve {n : N} {r : Resolved N} :
    r ∈ (tree.resolve model n).found ↔ tree.Declares model n r := by
  constructor
  · intro h
    cases form_eq : tree.classify n with
    | container form head members =>
      cases bound : model head.node with
      | none => simp [resolve_unbound form_eq bound, Resolution.missing] at h
      | some symbol =>
        rw [resolve_bound form_eq bound, List.mem_singleton] at h
        subst h
        exact .container form_eq bound
    | single form head =>
      rw [resolve_single form_eq, mem_resolveHead] at h
      obtain ⟨symbol, bound, rfl⟩ := h
      exact .single form_eq bound
    | fields statement =>
      rw [resolve_fields form_eq, Resolution.found_concat, List.flatMap_map] at h
      obtain ⟨v, listed, hv⟩ := List.mem_flatMap.1 h
      obtain ⟨symbol, bound, rfl⟩ := mem_resolveHead.1 hv
      exact .declarator form_eq listed bound
    | other =>
      rw [resolve_other form_eq] at h
      simp [Resolution.empty] at h
  · intro h
    cases h with
    | container form_eq bound => simp [resolve_bound form_eq bound]
    | single form_eq bound =>
      rw [resolve_single form_eq, mem_resolveHead]
      exact ⟨_, bound, rfl⟩
    | @declarator statement v symbol form_eq listed bound =>
      rw [resolve_fields form_eq, Resolution.found_concat, List.flatMap_map]
      exact List.mem_flatMap.2 ⟨v, listed, mem_resolveHead.2 ⟨symbol, bound, rfl⟩⟩

theorem member_induction {P : N → Prop}
    (step : ∀ n, (∀ m ∈ (tree.classify n).members, P m) → P n) (n : N) : P n := by
  induction h : tree.rank n using Nat.strongRecOn generalizing n with
  | ind k ih =>
    apply step
    intro m hm
    have lower := tree.rank_lt n m hm
    exact ih (tree.rank m) (by omega) m rfl

def entered (n : N) : List N :=
  match tree.classify n with
  | .container _ head members => if (model head.node).isSome then members else []
  | _ => []

/-- The nodes to which going from the roots to the members of what binds leads. -/
inductive Reached : N → Prop where
  | root {n : N} (h : n ∈ tree.roots) : Reached n
  | member {p n : N} (reached : Reached p) (h : n ∈ tree.entered model p) : Reached n

theorem entered_eq_members {p n : N} (h : n ∈ tree.entered model p) :
    tree.entered model p = (tree.classify p).members := by
  rw [entered] at h ⊢
  cases form_eq : tree.classify p with
  | container form head members =>
    simp only [form_eq] at h ⊢
    split at h
    · next bound => rw [if_pos bound, Declaration.members]
    · simp at h
  | single | fields | other => simp [form_eq] at h

theorem mem_members_of_entered {p n : N} (h : n ∈ tree.entered model p) :
    n ∈ (tree.classify p).members := by
  rwa [← entered_eq_members tree model h]

end SyntaxTree

/-- Where a resolved declaration stands in a forest: at its top, or among the members of another
declaration of the forest. -/
inductive Resolved.Placed {N : Type} (forest : List (Resolved N)) :
    Option (Resolved N) → Resolved N → Prop where
  | top {r : Resolved N} (h : r ∈ forest) : Placed forest none r
  | member {parent : Option (Resolved N)} {p r : Resolved N} (placed : Placed forest parent p)
      (h : r ∈ p.members) : Placed forest (some p) r

namespace SyntaxTree
variable {N : Type} {tree : SyntaxTree N} {model : Model N}

theorem Declares.members_eq {n : N} {r : Resolved N} (h : tree.Declares model n r) :
    r.members = (tree.resolveAll model (tree.entered model n)).found ∨ r.members = [] := by
  cases h with
  | container form_eq bound => left; simp [Resolved.members, entered, form_eq, bound]
  | single | declarator => right; rfl

theorem Declares.of_member {n : N} {p r : Resolved N} (h : tree.Declares model n p)
    (hr : r ∈ p.members) : ∃ m ∈ tree.entered model n, tree.Declares model m r := by
  rcases h.members_eq with e | e
  · rw [e, found_resolveAll] at hr
    obtain ⟨m, hm, hr⟩ := List.mem_flatMap.1 hr
    exact ⟨m, hm, (mem_resolve tree model).1 hr⟩
  · simp [e] at hr

theorem mem_resolution {r : Resolved N} :
    r ∈ (tree.resolution model).found ↔ ∃ n ∈ tree.roots, tree.Declares model n r := by
  change r ∈ (tree.resolveAll model tree.roots).found ↔ _
  rw [found_resolveAll, List.mem_flatMap]
  simp only [mem_resolve]

/-- A placed declaration comes from a reached node: a root if it is at the top, and otherwise a
member of the node from which its parent comes. -/
theorem declares_of_placed {parent : Option (Resolved N)} {r : Resolved N}
    (h : Resolved.Placed (tree.resolution model).found parent r) :
    ∃ n, tree.Reached model n ∧ tree.Declares model n r ∧
      match parent with
      | none => n ∈ tree.roots
      | some p => ∃ m, tree.Reached model m ∧ tree.Declares model m p ∧
          n ∈ tree.entered model m := by
  induction h with
  | top h =>
    obtain ⟨n, hn, declares⟩ := mem_resolution.1 h
    exact ⟨n, .root hn, declares, hn⟩
  | member placed h ih =>
    obtain ⟨m, reached, declares, _⟩ := ih
    obtain ⟨n, hn, below⟩ := declares.of_member h
    exact ⟨n, reached.member hn, below, m, reached, declares, hn⟩

theorem placed_of_declares {n : N} {r : Resolved N} (reached : tree.Reached model n)
    (declares : tree.Declares model n r) :
    ∃ parent, Resolved.Placed (tree.resolution model).found parent r := by
  induction reached generalizing r with
  | root h => exact ⟨none, .top (mem_resolution.2 ⟨_, h, declares⟩)⟩
  | @member p n _ h ih =>
    cases form_eq : tree.classify p with
    | container form head members =>
      cases bound : model head.node with
      | none => simp [entered, form_eq, bound] at h
      | some symbol =>
        obtain ⟨_, placed⟩ := ih (.container form_eq bound)
        simp only [entered, form_eq, bound, Option.isSome_some, if_true] at h
        refine ⟨_, placed.member ?_⟩
        rw [Resolved.members, found_resolveAll]
        exact List.mem_flatMap.2 ⟨n, h, (mem_resolve tree model).2 declares⟩
    | single | fields | other => simp [entered, form_eq] at h

end SyntaxTree

namespace Element

def offspring (e : Element) : List Element := e.children.getD []

inductive Placed (forest : List Element) : Option Element → Element → Prop where
  | top {e : Element} (h : e ∈ forest) : Placed forest none e
  | child {above : Option Element} {p e : Element} (placed : Placed forest above p)
      (h : e ∈ p.offspring) : Placed forest (some p) e

end Element

namespace Resolved
variable {N : Type} (naming : Naming) (text : SourceText)

theorem elements_eq_map (rs : List (Resolved N)) :
    elements naming text rs = rs.map (element naming text) := by
  induction rs with
  | nil => rfl
  | cons r rest ih => rw [elements, ih, List.map_cons]

theorem offspring_element (r : Resolved N) :
    (r.element naming text).offspring = r.members.map (element naming text) := by
  cases r with
  | mk form head symbol members =>
    rw [element, Element.offspring, elements_eq_map, Resolved.members]
    cases members <;> rfl

/-- Elements stand where the declarations stand that they show. -/
theorem placed_elements_iff {forest : List (Resolved N)} {above : Option Element} {e : Element} :
    Element.Placed (elements naming text forest) above e ↔
      ∃ parent r, Placed forest parent r ∧ above = parent.map (element naming text) ∧
        e = element naming text r := by
  constructor
  · intro placed
    induction placed with
    | top h =>
      rw [elements_eq_map] at h
      obtain ⟨r, member, rfl⟩ := List.mem_map.1 h
      exact ⟨none, r, .top member, rfl, rfl⟩
    | child _ h ih =>
      obtain ⟨_, p, placed, _, rfl⟩ := ih
      rw [offspring_element] at h
      obtain ⟨r, member, rfl⟩ := List.mem_map.1 h
      exact ⟨some p, r, placed.member member, rfl, rfl⟩
  · rintro ⟨parent, r, placed, rfl, rfl⟩
    induction placed with
    | top h =>
      refine .top ?_
      rw [elements_eq_map]
      exact List.mem_map_of_mem h
    | member _ h ih =>
      refine .child ih ?_
      rw [offspring_element]
      exact List.mem_map_of_mem h

end Resolved
end CodeAtlas
