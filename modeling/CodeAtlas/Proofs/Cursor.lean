import CodeAtlas.Syntax.Classify

/-!
Where the nodes of a tree stand. The places of a line of siblings follow one another without
overlap, each knows the nodes on both sides of it, and the cursors of a tree are its root and the
children of its cursors.
-/
namespace CodeAtlas.Syntax

namespace Node

def named (kind : NodeKind) (role : Option Role) (start stop : Nat) (children : List Node) : Node :=
  .mk ⟨kind, role, ⟨start, stop⟩, true, false, false, false⟩ children

def mark (text : String) (start stop : Nat) : Node :=
  .mk ⟨.ofName text, none, ⟨start, stop⟩, false, false, false, false⟩ []

end Node

namespace Place

theorem map_node_line (row : Nat) (before nodes : List Node) :
    (line row before nodes).map node = nodes := by
  induction nodes generalizing row before with
  | nil => rfl
  | cons n rest ih => rw [line, List.map_cons, ih]

theorem line_within (row : Nat) (before nodes : List Node) :
    ∀ p ∈ line row before nodes, row ≤ p.row ∧ p.row + p.node.size ≤ row + Node.sizes nodes := by
  induction nodes generalizing row before with
  | nil => simp [line]
  | cons n rest ih =>
    intro p member
    rw [line, List.mem_cons] at member
    simp only [Node.sizes]
    rcases member with rfl | member
    · dsimp only
      omega
    · have bounds := ih _ _ p member
      omega

theorem line_disjoint (row : Nat) (before nodes : List Node) :
    (line row before nodes).Pairwise fun p q => p.row + p.node.size ≤ q.row := by
  induction nodes generalizing row before with
  | nil => exact List.Pairwise.nil
  | cons n rest ih =>
    rw [line, List.pairwise_cons]
    refine ⟨?_, ih _ _⟩
    intro q member
    exact (line_within _ _ _ q member).1

theorem line_split {row : Nat} {before nodes : List Node} {p : Place}
    (h : p ∈ line row before nodes) :
    ∃ earlier, line row before nodes = earlier ++ p :: p.following ∧
      p.before = (earlier.map node).reverse ++ before := by
  induction nodes generalizing row before with
  | nil => simp [line] at h
  | cons n rest ih =>
    rw [line, List.mem_cons] at h
    rcases h with rfl | h
    · exact ⟨[], rfl, rfl⟩
    · obtain ⟨earlier, split, sides⟩ := ih h
      refine ⟨⟨n, row, before, rest⟩ :: earlier, ?_, ?_⟩
      · rw [line, split, List.cons_append]
      · rw [sides]
        simp

end Place

namespace Cursor

theorem child_place {c d : Cursor} (h : d ∈ c.children) :
    d.toPlace ∈ c.toPlace.children ∧ d.above = c.toPlace :: c.above := by
  obtain ⟨p, hp, rfl⟩ := List.mem_map.1 h
  exact ⟨hp, rfl⟩

theorem parent?_child {c d : Cursor} (h : d ∈ c.children) : d.parent? = some c := by
  rw [parent?, (child_place h).2]

theorem map_node_children (c : Cursor) : c.children.map (fun d => d.node) = c.node.children := by
  rw [children, List.map_map]
  exact Place.map_node_line _ _ _

theorem children_split {c d : Cursor} (h : d ∈ c.children) :
    ∃ earlier, c.children = earlier ++ d :: d.following ∧
      d.before = (earlier.map fun e => e.node).reverse := by
  obtain ⟨p, hp, rfl⟩ := List.mem_map.1 h
  obtain ⟨earlier, split, sides⟩ := Place.line_split hp
  refine ⟨earlier.map fun q => ⟨q, c.toPlace :: c.above⟩, ?_, ?_⟩
  · rw [children, Place.children, split, List.map_append, List.map_cons, following]
  · rw [List.map_map, sides, List.append_nil]
    rfl

theorem following_split {c d : Cursor} (h : d ∈ c.following) :
    ∃ between, c.following = between ++ d :: d.following ∧
      d.before = (between.map fun e => e.node).reverse ++ c.node :: c.before := by
  obtain ⟨p, hp, rfl⟩ := List.mem_map.1 h
  obtain ⟨between, split, sides⟩ := Place.line_split hp
  refine ⟨between.map fun q => ⟨q, c.above⟩, ?_, ?_⟩
  · rw [following, Place.following, split, List.map_append, List.map_cons, following]
  · rw [List.map_map, sides]
    rfl

theorem following_child {c d e : Cursor} (h : d ∈ c.children) (later : e ∈ d.following) :
    e ∈ c.children := by
  obtain ⟨earlier, split, _⟩ := children_split h
  rw [split]
  exact List.mem_append_right _ (List.mem_cons_of_mem _ later)

theorem children_disjoint (c : Cursor) :
    c.children.Pairwise fun d e => d.row + d.node.size ≤ e.row :=
  (Place.line_disjoint _ _ _).map _ fun _ _ h => h

theorem following_disjoint (c : Cursor) :
    c.following.Pairwise fun d e => d.row + d.node.size ≤ e.row :=
  (Place.line_disjoint _ _ _).map _ fun _ _ h => h

theorem row_child {c d : Cursor} (h : d ∈ c.children) :
    c.row < d.row ∧ d.row + d.node.size ≤ c.row + c.node.size := by
  have bounds := Place.line_within _ _ _ _ (child_place h).1
  have size : c.node.size = 1 + Node.sizes c.node.children := by
    cases c.node
    rfl
  omega

theorem row_later {c d : Cursor} (h : d ∈ c.following) :
    c.row + c.node.size ≤ d.row ∧ d.row + d.node.size ≤ c.row + c.reach := by
  obtain ⟨p, hp, rfl⟩ := List.mem_map.1 h
  have bounds := Place.line_within _ _ _ _ hp
  rw [Place.reach, ← Nat.add_assoc]
  exact bounds

theorem child_induction {P : Cursor → Prop} (step : ∀ c, (∀ d ∈ c.children, P d) → P c)
    (c : Cursor) : P c := by
  induction h : c.reach using Nat.strongRecOn generalizing c with
  | ind k ih =>
    apply step
    intro d hd
    have lower := (reach_child hd).1
    exact ih d.reach (by omega) d rfl

def below (c : Cursor) : List Cursor := walk c.above c.row c.before c.after c.node

theorem walkLine_eq (above : List Place) (row : Nat) (before nodes : List Node) :
    walkLine above row before nodes =
      (Place.line row before nodes).flatMap fun p => below ⟨p, above⟩ := by
  induction nodes generalizing row before with
  | nil => simp [walkLine, Place.line]
  | cons n rest ih => rw [walkLine, Place.line, List.flatMap_cons, ih, below]

theorem below_eq (c : Cursor) : c.below = c :: c.children.flatMap below := by
  obtain ⟨⟨⟨label, nodes⟩, row, before, after⟩, above⟩ := c
  rw [below, walk, walkLine_eq, children, List.flatMap_map]
  rfl

theorem mem_below_iff {c d : Cursor} :
    d ∈ c.below ↔ d = c ∨ ∃ e ∈ c.below, d ∈ e.children := by
  induction c using child_induction with
  | step c ih =>
    rw [below_eq]
    simp only [List.mem_cons, List.mem_flatMap]
    -- a step below `c` starts at `c` itself or stays below one of its children
    constructor
    · rintro (same | ⟨b, hb, hd⟩)
      · exact Or.inl same
      · right
        rcases (ih b hb).1 hd with rfl | ⟨e, he, hde⟩
        · exact ⟨c, Or.inl rfl, hb⟩
        · exact ⟨e, Or.inr ⟨b, hb, he⟩, hde⟩
    · rintro (same | ⟨e, he, hd⟩)
      · exact Or.inl same
      · right
        rcases he with rfl | ⟨b, hb, he⟩
        · refine ⟨d, hd, ?_⟩
          rw [below_eq]
          exact List.mem_cons_self
        · exact ⟨b, hb, (ih b hb).2 (Or.inr ⟨e, he, hd⟩)⟩

theorem mem_all_iff {n : Node} {c : Cursor} :
    c ∈ all n ↔ c = root n ∨ ∃ p ∈ all n, c ∈ p.children :=
  mem_below_iff (c := root n)

theorem root_mem_all (n : Node) : root n ∈ all n := mem_all_iff.2 (Or.inl rfl)

theorem child_mem_all {n : Node} {c d : Cursor} (h : c ∈ all n) (child : d ∈ c.children) :
    d ∈ all n := mem_all_iff.2 (Or.inr ⟨c, h, child⟩)

theorem following_mem_all {n : Node} {c d : Cursor} (h : c ∈ all n) (later : d ∈ c.following) :
    d ∈ all n := by
  rcases mem_all_iff.1 h with rfl | ⟨p, hp, hc⟩
  · simp [root, following, Place.following, Place.line] at later
  · exact child_mem_all hp (following_child hc later)

end Cursor
end CodeAtlas.Syntax
