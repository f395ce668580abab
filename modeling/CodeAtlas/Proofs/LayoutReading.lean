import CodeAtlas.Proofs.Layout

/-!
What is read of a declaration does not depend on its layout. Twins are two layouts of one node in
which names, operators and modifiers have no gaps and names of namespaces are joined by dots. All that
is read of twins is the same, but for one thing: after `params` the second node that is no punctuation
is taken as a name and read as it stands, whatever it is.
-/
namespace CodeAtlas

section Relations
variable {α β γ δ : Type} {R : α → β → Prop} {l : List α} {l' : List β} {p : α → Bool} {q : β → Bool}

theorem forall₂_mem (h : List.Forall₂ R l l') : List.Forall₂ (fun a b => a ∈ l ∧ R a b) l l' := by
  induction h with
  | nil => exact .nil
  | cons first _ ih =>
    refine .cons ⟨List.mem_cons_self, first⟩ (ih.imp ?_)
    intro a b later
    exact ⟨List.mem_cons_of_mem _ later.1, later.2⟩

theorem rel_find? (h : List.Forall₂ R l l') (same : ∀ a b, R a b → p a = q b) :
    Option.Rel R (l.find? p) (l'.find? q) := by
  induction h with
  | nil => exact .none
  | @cons a b _ _ first _ ih =>
    rw [List.find?_cons, List.find?_cons, same a b first]
    cases q b with
    | true => exact .some first
    | false => exact ih

theorem rel_dropWhile (h : List.Forall₂ R l l') (same : ∀ a b, R a b → p a = q b) :
    List.Forall₂ R (l.dropWhile p) (l'.dropWhile q) := by
  induction h with
  | nil => exact .nil
  | @cons a b _ _ first rest ih =>
    rw [List.dropWhile_cons, List.dropWhile_cons, same a b first]
    split
    · exact ih
    · exact .cons first rest

theorem rel_head? (h : List.Forall₂ R l l') : Option.Rel R l.head? l'.head? := by
  cases h with
  | nil => exact .none
  | cons first _ => exact .some first

theorem rel_cases {a : Option α} {b : Option β} (h : Option.Rel R a b) :
    (a = none ∧ b = none) ∨ ∃ x y, a = some x ∧ b = some y ∧ R x y := by
  cases h with
  | none => exact .inl ⟨rfl, rfl⟩
  | some related => exact .inr ⟨_, _, rfl, rfl, related⟩

theorem rel_or {a c : Option α} {b d : Option β} (first : Option.Rel R a b)
    (second : Option.Rel R c d) : Option.Rel R (a.or c) (b.or d) := by
  cases first with
  | none => exact second
  | some h => exact .some h

theorem rel_optionFilter {a : Option α} {b : Option β} (h : Option.Rel R a b)
    (same : ∀ a b, R a b → p a = q b) : Option.Rel R (a.filter p) (b.filter q) := by
  cases h with
  | none => exact .none
  | @some a b h =>
    rw [Option.filter_some, Option.filter_some, same a b h]
    split
    · exact .some h
    · exact .none

theorem rel_optionMap {f : α → γ} {g : β → δ} {S : γ → δ → Prop} {a : Option α} {b : Option β}
    (h : Option.Rel R a b) (each : ∀ x y, a = some x → R x y → S (f x) (g y)) :
    Option.Rel S (a.map f) (b.map g) := by
  cases h with
  | none => exact .none
  | some related => exact .some (each _ _ rfl related)

theorem map_filter_eq {f : α → γ} {g : β → γ} (h : List.Forall₂ R l l')
    (same : ∀ a b, R a b → p a = q b ∧ (p a → f a = g b)) :
    (l.filter p).map f = (l'.filter q).map g := by
  induction h with
  | nil => rfl
  | @cons a b _ _ first _ ih =>
    obtain ⟨kept, alike⟩ := same a b first
    rw [List.filter_cons, List.filter_cons, ← kept]
    split
    · next keep => rw [List.map_cons, List.map_cons, alike keep, ih]
    · exact ih

theorem findSome?_eq {f : α → Option γ} {g : β → Option γ} (h : List.Forall₂ R l l')
    (same : ∀ a b, R a b → f a = g b) : l.findSome? f = l'.findSome? g := by
  induction h with
  | nil => rfl
  | cons first _ ih => rw [List.findSome?_cons, List.findSome?_cons, same _ _ first, ih]

theorem foldl_eq {f : γ → α → γ} {g : γ → β → γ} (h : List.Forall₂ R l l')
    (same : ∀ a b, R a b → ∀ c, f c a = g c b) (c : γ) : l.foldl f c = l'.foldl g c := by
  induction h generalizing c with
  | nil => rfl
  | cons first _ ih => rw [List.foldl_cons, List.foldl_cons, same _ _ first, ih]

theorem map_eq_of_rel {f : α → γ} {g : β → γ} {a : Option α} {b : Option β} (h : Option.Rel R a b)
    (same : ∀ x y, R x y → f x = g y) : a.map f = b.map g := by
  cases h with
  | none => rfl
  | some related => rw [Option.map_some, Option.map_some, same _ _ related]

theorem isSome_eq_of_rel {a : Option α} {b : Option β} (h : Option.Rel R a b) :
    a.isSome = b.isSome := by
  cases h <;> rfl

end Relations

structure Parameter.Alike (p q : Parameter) : Prop where
  modifiers : p.modifiers = q.modifiers
  type : p.type = q.type
  defaultValue : p.defaultValue = q.defaultValue
  name : Option.Rel Text.Respaced p.name q.name

theorem Parameter.Alike.refl (p : Parameter) : p.Alike p := by
  refine ⟨rfl, rfl, rfl, ?_⟩
  cases p.name with
  | none => exact .none
  | some name => exact .some (.refl name)

namespace Syntax.Node
open Text

/-- The nodes of a parameter list that are taken as names after `params`. -/
def paramsNames (source : SourceText) : ListState → List Node → List Node
  | _, [] => []
  | .between, c :: rest =>
    match c.kind with
    | .token .params => paramsNames source .paramsType rest
    | _ => paramsNames source .between rest
  | .paramsType, c :: rest =>
    if c.isNamed then paramsNames source (.paramsName (c.phrase source)) rest
    else paramsNames source .paramsType rest
  | .paramsName type, c :: rest =>
    if c.isNamed then c :: paramsNames source .between rest
    else paramsNames source (.paramsName type) rest

def looseNames (source : SourceText) (n : Node) : List Node :=
  match n.parameterList? with
  | none => []
  | some list => paramsNames source .between list.children

def nameNodes (n : Node) : List Node :=
  match n.kind with
  | .type _ | .delegate | .typeParameter | .enumMember | .variableDeclarator => n.name?.toList
  | .method .conversion | .property .indexer => []
  | .method form => (n.methodName? form).toList
  | .property form => (n.propertyName? form).toList
  | .parameter => n.children.filter fun c => c.label.role == some .name
  | _ => []

/-- Identifiers, modifiers, names and operators have no gaps, and the name of a namespace is made of
names with dots between them. -/
structure Plain (source : SourceText) (n : Node) : Prop where
  words : n.kind = .identifier ∨ isParameterModifier n.kind → Tight source n.leaves
  names : ∀ t ∈ n.nameNodes, Tight source t.leaves
  dotted : n.kind.isNamespace → ∀ t ∈ n.name?, Dotted source t.leaves

instance (source : SourceText) (n : Node) : Decidable (n.Plain source) :=
  decidable_of_iff (_ ∧ _ ∧ _)
    ⟨fun ⟨words, names, dotted⟩ => ⟨words, names, dotted⟩, fun h => ⟨h.words, h.names, h.dotted⟩⟩

/-- Two layouts of one node in which only what may have gaps has any. -/
structure Twin (s s' : SourceText) (n n' : Node) : Prop extends Matched s s' n n' where
  plain : ∀ m ∈ n.nodes, m.Plain s

namespace Twin
variable {s s' : SourceText} {n n' : Node}

theorem self_plain (h : Twin s s' n n') : n.Plain s := h.plain n n.self_mem_nodes

theorem children (h : Twin s s' n n') : List.Forall₂ (Twin s s') n.children n'.children := by
  apply (forall₂_mem h.toMatched.children).imp
  rintro c c' ⟨child, matched⟩
  exact ⟨matched, fun m below => h.plain m (nodes_of_child child below)⟩

section Parts

theorem withRole? (h : Twin s s' n n') (role : Role) :
    Option.Rel (Twin s s') (n.withRole? role) (n'.withRole? role) :=
  rel_find? h.children fun c c' twin => by rw [twin.role_eq]

theorem ofKind? (h : Twin s s' n n') (kind : NodeKind) :
    Option.Rel (Twin s s') (n.ofKind? kind) (n'.ofKind? kind) :=
  rel_find? h.children fun c c' twin => by rw [twin.kind_eq]

theorem hasKind_eq (h : Twin s s' n n') (kind : NodeKind) : n.hasKind kind = n'.hasKind kind :=
  isSome_eq_of_rel (h.ofKind? kind)

theorem name? (h : Twin s s' n n') : Option.Rel (Twin s s') n.name? n'.name? :=
  rel_optionFilter (rel_or (h.withRole? .name) (h.ofKind? .identifier))
    fun _ _ twin => twin.isUsableName_eq

theorem namedChildren (h : Twin s s' n n') :
    List.Forall₂ (Twin s s') n.namedChildren n'.namedChildren :=
  List.rel_filter (fun _ _ twin => Bool.eq_iff_iff.1 twin.isNamed_eq) h.children

theorem afterOperator? (h : Twin s s' n n') :
    Option.Rel (Twin s s') n.afterOperator? n'.afterOperator? := by
  apply rel_find?
  · apply List.forall₂_drop
    exact rel_dropWhile h.children fun c c' twin => by rw [twin.kind_eq]
  · intro c c' twin
    rw [twin.kind_eq]

theorem methodName? (h : Twin s s' n n') (form : MethodForm) :
    Option.Rel (Twin s s') (n.methodName? form) (n'.methodName? form) := by
  have found : ∀ role, Option.Rel (Twin s s')
      (((n.withRole? role).or n.afterOperator?).filter fun t => !t.isMissing)
      (((n'.withRole? role).or n'.afterOperator?).filter fun t => !t.isMissing) := by
    intro role
    apply rel_optionFilter (rel_or (h.withRole? role) h.afterOperator?)
    intro c c' twin
    rw [twin.isMissing_eq]
  cases form with
  | operator => exact found .operator
  | conversion => exact found .type
  | method | constructor | destructor => exact h.name?

theorem propertyName? (h : Twin s s' n n') (form : PropertyForm) :
    Option.Rel (Twin s s') (n.propertyName? form) (n'.propertyName? form) := by
  cases form with
  | indexer =>
    apply rel_optionFilter (h.ofKind? (.token .this))
    intro c c' twin
    rw [twin.isMissing_eq]
  | property | event => exact h.name?

theorem typeParameterList? (h : Twin s s' n n') :
    Option.Rel (Twin s s') n.typeParameterList? n'.typeParameterList? :=
  rel_or (h.withRole? .typeParameters) (h.ofKind? .typeParameterList)

theorem parameterList? (h : Twin s s' n n') :
    Option.Rel (Twin s s') n.parameterList? n'.parameterList? :=
  rel_or (h.withRole? .parameters) (h.ofKind? .parameterList)

end Parts

section Reading

theorem modifiers_eq (h : Twin s s' n n') : n.modifiers s = n'.modifiers s' := by
  apply map_filter_eq h.children
  intro c c' twin
  refine ⟨by rw [twin.kind_eq], ?_⟩
  intro modifier
  have tight := twin.self_plain.words (.inr (by rw [beq_iff_eq.1 modifier]; rfl))
  rw [twin.text_eq tight]

theorem variance?_eq (h : Twin s s' n n') : n.variance? = n'.variance? := by
  unfold variance?
  apply findSome?_eq h.children
  intro c c' twin
  rw [twin.kind_eq]

theorem nameText_eq {t t' : Node} (h : Twin s s' n n') (twin : Twin s s' t t')
    (named : t ∈ n.nameNodes) : t.text s = t'.text s' :=
  twin.text_eq (h.self_plain.names t named)

theorem typeParameter?_eq (h : Twin s s' n n') (kind : n.kind = .typeParameter) :
    n.typeParameter? s = n'.typeParameter? s' := by
  unfold typeParameter?
  rcases rel_cases h.name? with ⟨none, none'⟩ | ⟨t, t', found, found', twin⟩
  · rw [none, none']
    rfl
  · have named : t ∈ n.nameNodes := by
      unfold nameNodes
      rw [kind, found]
      exact List.mem_cons_self
    rw [found, found', Option.map_some, Option.map_some, h.variance?_eq, h.nameText_eq twin named]

theorem typeParameters_eq (h : Twin s s' n n') : n.typeParameters s = n'.typeParameters s' := by
  unfold typeParameters
  rcases rel_cases h.typeParameterList? with ⟨none, none'⟩ | ⟨t, t', found, found', twin⟩
  · rw [none, none']
  · rw [found, found']
    have same : (t.namedChildren.filter fun c => c.kind == .typeParameter).map (Node.typeParameter? s) =
        (t'.namedChildren.filter fun c => c.kind == .typeParameter).map (Node.typeParameter? s') := by
      apply map_filter_eq twin.namedChildren
      intro c c' twin
      refine ⟨by rw [twin.kind_eq], ?_⟩
      intro kind
      exact twin.typeParameter?_eq (beq_iff_eq.1 kind)
    have kept := congrArg (List.filterMap id) same
    rwa [List.filterMap_map, List.filterMap_map] at kept

theorem readPlain_eq (h : Twin s s' n n') (hasName hasType : Bool) (state : ParameterState) :
    readPlain s hasName hasType state n = readPlain s' hasName hasType state n' := by
  have value : n.namedChildren.head?.map (phrase s) = n'.namedChildren.head?.map (phrase s') :=
    map_eq_of_rel (rel_head? h.namedChildren) fun _ _ twin => twin.phrase_eq
  unfold readPlain
  rw [← h.kind_eq, ← h.isNamed_eq, ← h.phrase_eq, ← value]
  -- only modifiers and identifiers are read as they stand
  by_cases modifier : isParameterModifier n.kind
  · rw [h.text_eq (h.self_plain.words (.inr modifier))]
  · by_cases identifier : n.kind = .identifier
    · rw [h.text_eq (h.self_plain.words (.inl identifier))]
    · simp [modifier, identifier]

theorem readPart_eq (h : Twin s s' n n') (named : n.label.role = some .name → Tight s n.leaves)
    (hasName hasType : Bool) (state : ParameterState) :
    readPart s hasName hasType state n = readPart s' hasName hasType state n' := by
  unfold readPart
  rw [← h.role_eq, ← h.phrase_eq, ← h.readPlain_eq]
  by_cases name : n.label.role = some .name
  · rw [h.text_eq (named name)]
  · simp [name]

theorem parameter_eq (h : Twin s s' n n') (kind : n.kind = .parameter) :
    n.parameter s = n'.parameter s' := by
  unfold parameter
  dsimp only
  rw [isSome_eq_of_rel (h.withRole? .name), isSome_eq_of_rel (h.withRole? .type)]
  congr 1
  apply foldl_eq (forall₂_mem h.children)
  rintro c c' ⟨child, twin⟩ state
  apply twin.readPart_eq
  intro name
  apply h.self_plain.names
  unfold nameNodes
  rw [kind]
  exact List.mem_filter.2 ⟨child, beq_iff_eq.2 name⟩

/-- Parameter lists are the same up to the blanks in names after `params`. -/
theorem readList_alike {l l' : List Node} (h : List.Forall₂ (Twin s s') l l') (state : ListState) :
    List.Forall₂ Parameter.Alike (readList s state l) (readList s' state l') ∧
      ((∀ t ∈ paramsNames s state l, Tight s t.leaves) →
        readList s state l = readList s' state l') := by
  induction h generalizing state with
  | nil =>
    cases state with
    | between => exact ⟨.nil, fun _ => rfl⟩
    | paramsType | paramsName => exact ⟨.cons (.refl _) .nil, fun _ => rfl⟩
  | @cons c c' l l' twin _ ih =>
    cases state with
    | between =>
      unfold readList paramsNames
      rw [← twin.kind_eq]
      by_cases parameter : c.kind = .parameter
      · rw [parameter]
        obtain ⟨alike, same⟩ := ih .between
        dsimp only
        rw [← twin.parameter_eq parameter]
        exact ⟨.cons (.refl _) alike, fun tight => by rw [same tight]⟩
      · by_cases word : c.kind = .token .params
        · rw [word]
          exact ih .paramsType
        · split <;> first | contradiction | skip
          split <;> first | contradiction | exact ih .between
    | paramsType =>
      unfold readList paramsNames
      rw [← twin.isNamed_eq, ← twin.phrase_eq]
      split
      · exact ih _
      · exact ih .paramsType
    | paramsName type =>
      unfold readList paramsNames
      rw [← twin.isNamed_eq]
      split
      · obtain ⟨alike, same⟩ := ih .between
        constructor
        · exact .cons ⟨rfl, rfl, rfl, .some twin.text_respaced⟩ alike
        · intro tight
          have first := twin.text_eq (tight c List.mem_cons_self)
          rw [first, same fun t later => tight t (List.mem_cons_of_mem c later)]
      · exact ih (.paramsName type)

theorem parameters_alike (h : Twin s s' n n') :
    List.Forall₂ Parameter.Alike (n.parameters s) (n'.parameters s') ∧
      ((∀ t ∈ n.looseNames s, Tight s t.leaves) → n.parameters s = n'.parameters s') := by
  unfold parameters looseNames
  rcases rel_cases h.parameterList? with ⟨none, none'⟩ | ⟨t, t', found, found', twin⟩
  · rw [none, none']
    exact ⟨.nil, fun _ => rfl⟩
  · rw [found, found']
    exact readList_alike twin.children .between

theorem scope_eq (h : Twin s s' n n') : n.scope s = n'.scope s' := by
  unfold scope
  rw [← h.kind_eq]
  cases kind : n.kind with
  | type form =>
    rcases rel_cases h.name? with ⟨none, none'⟩ | ⟨t, t', found, found', twin⟩
    · rw [none, none']
    · have named : t ∈ n.nameNodes := by
        unfold nameNodes
        rw [kind, found]
        exact List.mem_cons_self
      rw [found, found']
      dsimp only
      rw [h.nameText_eq twin named, h.typeParameters_eq]
  | «namespace» form =>
    rcases rel_cases h.name? with ⟨none, none'⟩ | ⟨t, t', found, found', twin⟩
    · rw [none, none']
    · have dotted := h.self_plain.dotted (by rw [kind]; rfl) t found
      rw [found, found']
      dsimp only
      rw [twin.segments_eq dotted]
  | _ => rfl

end Reading
end Twin
end Syntax.Node
end CodeAtlas
