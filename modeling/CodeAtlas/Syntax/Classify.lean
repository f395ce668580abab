import CodeAtlas.Syntax.Cursor
import CodeAtlas.Syntax.Parts

/-!
Nodes as declarations. The members of a type, an enum or a block namespace are in its body. A
file-scoped namespace owns all that follows it, and so ends what the compilation unit owns.
-/
namespace CodeAtlas.Syntax.Cursor

/-- The body of a container, by its role or else as its first list of members. -/
def body? (c : Cursor) : Option Cursor :=
  (c.children.find? fun d => d.node.label.role == some .body).or
    (c.children.find? fun d => d.kind == .memberList)

def bodyMembers (c : Cursor) : List Cursor := (c.body?.map namedChildren).getD []

/-- The members of a file-scoped namespace: its own children, then its later siblings. -/
def fileMembers (c : Cursor) : List Cursor := c.namedChildren ++ c.namedFollowing

def takeThrough {α : Type} (p : α → Bool) : List α → List α
  | [] => []
  | a :: rest => if p a then [a] else a :: takeThrough p rest

def rootMembers (root : Cursor) : List Cursor :=
  takeThrough (fun c => c.kind == .namespace .fileScoped) root.namedChildren

def head (c : Cursor) (name : Option Node) : Head Cursor :=
  ⟨c, ⟨c.node.attributes?, c.node.span, name.map Node.span⟩⟩

def declarators (c : Cursor) : List (Declarator Cursor) :=
  let declaration := c.children.find? fun d => d.kind == .variableDeclaration
  let found := ((declaration.map namedChildren).getD []).filter fun d =>
    d.kind == .variableDeclarator
  found.map fun d => ⟨d, d.node.span, d.node.name?.map Node.span⟩

def classify (c : Cursor) : Declaration Cursor :=
  match c.kind with
  | .type .enum => .container .enum (c.head c.node.name?) c.bodyMembers
  | .type _ => .container .type (c.head c.node.name?) c.bodyMembers
  | .namespace .block => .container .namespace (c.head c.node.name?) c.bodyMembers
  | .namespace .fileScoped => .container .namespace (c.head c.node.name?) c.fileMembers
  | .delegate => .single .delegate (c.head c.node.name?)
  | .enumMember => .single .enumMember (c.head c.node.name?)
  | .method form => .single (.method form) (c.head (c.node.methodName? form))
  | .property form => .single (.property form) (c.head (c.node.propertyName? form))
  | .field _ => .fields ⟨c.node.attributes?, c.node.span, c.declarators⟩
  | _ => .other

theorem reach_child {c d : Cursor} (h : d ∈ c.children) :
    d.reach < c.reach ∧ c.row < d.row := by
  obtain ⟨p, hp, rfl⟩ := List.mem_map.1 h
  exact ⟨Place.reach_children _ _ hp, Place.row_children _ _ hp⟩

theorem reach_sibling {c d : Cursor} (h : d ∈ c.following) :
    d.reach < c.reach ∧ c.row < d.row := by
  obtain ⟨p, hp, rfl⟩ := List.mem_map.1 h
  exact ⟨Place.reach_following _ _ hp, Place.row_following _ _ hp⟩

theorem body?_mem {c d : Cursor} (h : c.body? = some d) : d ∈ c.children := by
  rw [body?, Option.or_eq_some_iff] at h
  rcases h with h | ⟨_, h⟩ <;> exact List.mem_of_find?_eq_some h

theorem reach_bodyMembers {c d : Cursor} (h : d ∈ c.bodyMembers) :
    d.reach < c.reach ∧ c.row < d.row := by
  rw [bodyMembers] at h
  cases hb : c.body? with
  | none => simp [hb] at h
  | some b =>
    simp only [hb, Option.map_some, Option.getD_some] at h
    have h1 := reach_child (body?_mem hb)
    have h2 := reach_child ((List.mem_filter.1 h).1)
    omega

theorem reach_fileMembers {c d : Cursor} (h : d ∈ c.fileMembers) :
    d.reach < c.reach ∧ c.row < d.row := by
  rcases List.mem_append.1 h with h | h
  · exact reach_child ((List.mem_filter.1 h).1)
  · exact reach_sibling ((List.mem_filter.1 h).1)

/-- Members come after their container and reach less far, so that going down ends. -/
theorem reach_members {c d : Cursor} (h : d ∈ c.classify.members) :
    d.reach < c.reach ∧ c.row < d.row := by
  unfold classify at h
  split at h <;> simp only [Declaration.members, List.not_mem_nil] at h
  · exact reach_bodyMembers h
  · exact reach_bodyMembers h
  · exact reach_bodyMembers h
  · exact reach_fileMembers h

end CodeAtlas.Syntax.Cursor
