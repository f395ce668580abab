import CodeAtlas.Declaration.Basic

/-!
Syntax trees given as a table of numbered declarations. A number outside the table is no
declaration. An outline goes from the roots to the members of each container that binds to a
symbol, so a table is cut down to the declarations that are met on the way. What is left is a
syntax tree if no declaration is a member, at any depth, of itself; this is decided by ranking each
declaration above all its members.
-/
namespace CodeAtlas

structure DeclarationTable where
  rows : Array (Declaration Nat)

namespace DeclarationTable

def get (t : DeclarationTable) (i : Nat) : Declaration Nat := t.rows.getD i .other

/-- A container that binds to no symbol is not entered, so its members do not count. -/
def entered (model : Model Nat) : Declaration Nat → Declaration Nat
  | .container form head members =>
    .container form head (if (model head.node).isSome then members else [])
  | d => d

def met (t : DeclarationTable) (left : List Nat) : List Nat → List Nat
  | [] => []
  | i :: pending =>
    if i ∈ left then i :: t.met (left.erase i) ((t.get i).members ++ pending)
    else t.met left pending
termination_by pending => (left.length, pending.length)
decreasing_by
  · have := List.length_erase_of_mem ‹i ∈ left›
    have := List.length_pos_of_mem ‹i ∈ left›
    exact Prod.Lex.left _ _ (by omega)
  · exact Prod.Lex.right _ (by simp)

def visited (t : DeclarationTable) (model : Model Nat) (roots : List Nat) : DeclarationTable :=
  let bound : DeclarationTable := ⟨t.rows.map (entered model)⟩
  let numbers := bound.met (List.range bound.rows.size) roots
  ⟨bound.rows.mapIdx fun i d => if i ∈ numbers then d else .other⟩

def rankAbove (ranks : Array Nat) (d : Declaration Nat) : Nat :=
  (d.members.map fun m => ranks.getD m 0).foldl max 0 + 1

/-- Ranks after the given number of rounds; a chain of members needs a round for each link. -/
def ranksAfter (t : DeclarationTable) : Nat → Array Nat
  | 0 => t.rows.map fun _ => 0
  | rounds + 1 =>
    let ranks := t.ranksAfter rounds
    t.rows.map (rankAbove ranks)

def ranks (t : DeclarationTable) : Array Nat := t.ranksAfter (t.rows.size + 1)

def Ranked (rank : Nat → Nat) (t : DeclarationTable) : Prop :=
  ∀ i, i < t.rows.size → ∀ m ∈ (t.get i).members, rank m < rank i

instance (rank : Nat → Nat) (t : DeclarationTable) : Decidable (Ranked rank t) :=
  inferInstanceAs (Decidable (∀ i, i < t.rows.size → ∀ m ∈ (t.get i).members, rank m < rank i))

theorem Ranked.lt {rank : Nat → Nat} {t : DeclarationTable} (h : Ranked rank t) (i m : Nat)
    (hm : m ∈ (t.get i).members) : rank m < rank i := by
  by_cases hi : i < t.rows.size
  · exact h i hi m hm
  · simp [get, Array.getD, hi, Declaration.members] at hm

def tree? (t : DeclarationTable) (model : Model Nat) (roots : List Nat) :
    Option (SyntaxTree Nat) :=
  let seen := t.visited model roots
  let ranks := seen.ranks
  let rank := fun i => ranks.getD i 0
  if h : Ranked rank seen then some ⟨roots, seen.get, rank, h.lt⟩ else none

end DeclarationTable
end CodeAtlas
