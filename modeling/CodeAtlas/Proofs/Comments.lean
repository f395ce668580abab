import CodeAtlas.Proofs.LayoutOutline
import CodeAtlas.Proofs.Phrases

/-!
Comments in parameter lists. Between parameters a comment is passed over. After `params` the next two
nodes that are no punctuation are taken as a type and a name, and a comment there takes the place of one
of them. So a list with comments is read as without them exactly if no comment comes right after
`params` or right after its type, and where one does it is shown.
-/
namespace CodeAtlas

namespace Syntax.Node
open Text

section Moving
variable {s s' : SourceText} {n n' : Node}

/-- The same tree in another place: it is the same but for spans, and its nodes say the same. -/
structure Moved (s s' : SourceText) (n n' : Node) : Prop where
  shape : n.unplaced = n'.unplaced
  texts : n.nodes.map (text s) = n'.nodes.map (text s')

theorem length_nodes_unplaced (n : Node) : n.unplaced.nodes.length = n.nodes.length := by
  induction n using child_induct with
  | step n ih =>
    rw [nodes_eq, nodes_eq n, children_unplaced, List.length_cons, List.length_cons,
      List.flatMap_map, List.length_flatMap, List.length_flatMap, List.map_congr_left ih]

namespace Moved

theorem text_eq (h : Moved s s' n n') : n.text s = n'.text s' := by
  have texts := h.texts
  rw [nodes_eq, nodes_eq n', List.map_cons, List.map_cons] at texts
  exact (List.cons.inj texts).1

theorem phrase_eq (h : Moved s s' n n') : n.phrase s = n'.phrase s' := by
  unfold phrase
  rw [h.text_eq]

theorem forall₂_of_texts {ns ns' : List Node} (shapes : ns.map unplaced = ns'.map unplaced)
    (texts : (ns.flatMap nodes).map (text s) = (ns'.flatMap nodes).map (text s')) :
    List.Forall₂ (Moved s s') ns ns' := by
  induction ns generalizing ns' with
  | nil =>
    rw [List.map_eq_nil_iff.1 shapes.symm]
    exact .nil
  | cons c ns ih =>
    cases ns' with
    | nil => cases shapes
    | cons c' ns' =>
      obtain ⟨shape, others⟩ := List.cons.inj shapes
      have size : (c.nodes.map (text s)).length = (c'.nodes.map (text s')).length := by
        rw [List.length_map, List.length_map, ← length_nodes_unplaced, shape, length_nodes_unplaced]
      rw [List.flatMap_cons, List.flatMap_cons, List.map_append, List.map_append] at texts
      obtain ⟨first, rest⟩ := List.append_inj texts size
      exact .cons ⟨shape, first⟩ (ih others rest)

theorem children (h : Moved s s' n n') : List.Forall₂ (Moved s s') n.children n'.children := by
  have texts := h.texts
  rw [nodes_eq, nodes_eq n', List.map_cons, List.map_cons] at texts
  apply forall₂_of_texts _ (List.cons.inj texts).2
  rw [← children_unplaced, h.shape, children_unplaced]

theorem label_eq {α : Type} (h : Moved s s' n n') (part : Label → α)
    (free : ∀ l, part l.unplaced = part l) : part n.label = part n'.label := by
  rw [← free, ← label_unplaced, h.shape, label_unplaced, free]

theorem kind_eq (h : Moved s s' n n') : n.kind = n'.kind := h.label_eq Label.kind fun _ => rfl

theorem role_eq (h : Moved s s' n n') : n.label.role = n'.label.role :=
  h.label_eq Label.role fun _ => rfl

theorem isNamed_eq (h : Moved s s' n n') : n.isNamed = n'.isNamed :=
  h.label_eq Label.isNamed fun _ => rfl

theorem withRole?_isSome_eq (h : Moved s s' n n') (role : Role) :
    (n.withRole? role).isSome = (n'.withRole? role).isSome :=
  isSome_eq_of_rel (rel_find? h.children fun c c' moved => by rw [moved.role_eq])

theorem readPart_eq (h : Moved s s' n n') (hasName hasType : Bool) (state : ParameterState) :
    readPart s hasName hasType state n = readPart s' hasName hasType state n' := by
  have named : List.Forall₂ (Moved s s') n.namedChildren n'.namedChildren :=
    List.rel_filter (fun _ _ moved => Bool.eq_iff_iff.1 moved.isNamed_eq) h.children
  have value : n.namedChildren.head?.map (phrase s) = n'.namedChildren.head?.map (phrase s') :=
    map_eq_of_rel (rel_head? named) fun _ _ moved => moved.phrase_eq
  unfold readPart readPlain
  rw [h.kind_eq, h.role_eq, h.isNamed_eq, h.text_eq, h.phrase_eq, value]

theorem parameter_eq (h : Moved s s' n n') : n.parameter s = n'.parameter s' := by
  unfold parameter
  dsimp only
  rw [h.withRole?_isSome_eq, h.withRole?_isSome_eq]
  congr 1
  exact foldl_eq h.children (fun _ _ moved state => moved.readPart_eq _ _ state) {}

end Moved
end Moving

section Lists
variable {s s' : SourceText} {l l' notes : List Node}

structure IsComment (source : SourceText) (n : Node) : Prop where
  kind : n.kind = .other "comment"
  named : n.isNamed
  opens : (n.text source).head? = some '/'

instance (source : SourceText) (n : Node) : Decidable (IsComment source n) :=
  decidable_of_iff (n.kind = .other "comment" ∧ n.isNamed ∧ (n.text source).head? = some '/')
    ⟨fun ⟨kind, named, opens⟩ => ⟨kind, named, opens⟩, fun h => ⟨h.kind, h.named, h.opens⟩⟩

/-- The nodes of the second list are those of the first, elsewhere, with comments between them. -/
inductive Commented (s s' : SourceText) : List Node → List Node → Prop where
  | nil {notes : List Node} (comments : ∀ c ∈ notes, IsComment s' c) : Commented s s' [] notes
  | cons {notes : List Node} {n n' : Node} {l l' : List Node} (comments : ∀ c ∈ notes, IsComment s' c)
      (moved : Moved s s' n n') (rest : Commented s s' l l') :
      Commented s s' (n :: l) (notes ++ n' :: l')

theorem commented_of_filter (comments : ∀ c ∈ l', c.kind = .other "comment" → IsComment s' c)
    (moved : List.Forall₂ (Moved s s') l (l'.filter fun c => c.kind != .other "comment")) :
    Commented s s' l l' := by
  generalize others : l'.filter (fun c => c.kind != .other "comment") = ns at moved
  induction moved generalizing l' with
  | nil =>
    refine .nil fun c listed => comments c listed ?_
    simpa using List.filter_eq_nil_iff.1 others c listed
  | cons first rest ih =>
    obtain ⟨notes, l', rfl, passed, -, others⟩ := List.filter_eq_cons_iff.1 others
    refine .cons (fun c listed => comments c (List.mem_append_left _ listed) ?_) first (ih ?_ others)
    · simpa using passed c listed
    · intro c listed
      exact comments c (List.mem_append_right _ (List.mem_cons_of_mem _ listed))

@[mk_iff isWord_iff]
structure IsWord (source : SourceText) (n : Node) : Prop where
  named : n.isNamed
  other : n.kind ≠ .other "comment" ∧ n.kind ≠ .token .params
  opens : ∀ c ∈ (n.text source).head?, c ≠ '/' ∧ isBlank c = false

instance (source : SourceText) (n : Node) : Decidable (IsWord source n) :=
  decidable_of_iff (n.isNamed ∧ (n.kind ≠ .other "comment" ∧ n.kind ≠ .token .params) ∧
      (n.text source).head?.all fun c => c != '/' && !isBlank c) (by
    rw [isWord_iff]
    simp [Option.all_eq_true])

/-- The children of a parameter list: each `params` has its type and its name right after it. -/
inductive Items (source : SourceText) : List Node → Prop where
  | nil : Items source []
  | other {c : Node} {rest : List Node} (kind : c.kind ≠ .token .params) (later : Items source rest) :
      Items source (c :: rest)
  | array {word type name : Node} {rest : List Node} (kind : word.kind = .token .params)
      (isType : IsWord source type) (isName : IsWord source name) (later : Items source rest) :
      Items source (word :: type :: name :: rest)

def interrupted : List Node → Bool
  | [] => false
  | c :: rest =>
    (c.kind == .token .params && (rest.take 2).any fun d => d.kind == .other "comment") ||
      interrupted rest

theorem interrupted_cons {c : Node} (kind : c.kind ≠ .token .params) (rest : List Node) :
    interrupted (c :: rest) = interrupted rest := by
  rw [interrupted, beq_eq_false_iff_ne.2 kind]
  rfl

theorem interrupted_notes (comments : ∀ c ∈ notes, IsComment s c) (l : List Node) :
    interrupted (notes ++ l) = interrupted l := by
  induction notes with
  | nil => rfl
  | cons c notes ih =>
    have kind : c.kind ≠ .token .params := by
      rw [(comments c List.mem_cons_self).kind]
      exact fun same => nomatch same
    rw [List.cons_append, interrupted_cons kind]
    exact ih fun d later => comments d (List.mem_cons_of_mem c later)

theorem readList_other {c : Node} (parameter : c.kind ≠ .parameter) (word : c.kind ≠ .token .params)
    (rest : List Node) : readList s .between (c :: rest) = readList s .between rest := by
  rw [readList]
  split <;> first | contradiction | rfl

theorem readList_notes (comments : ∀ c ∈ notes, IsComment s c) (l : List Node) :
    readList s .between (notes ++ l) = readList s .between l := by
  induction notes with
  | nil => rfl
  | cons c notes ih =>
    have kind := (comments c List.mem_cons_self).kind
    rw [List.cons_append, readList_other (by rw [kind]; simp) (by rw [kind]; simp)]
    exact ih fun d later => comments d (List.mem_cons_of_mem c later)

theorem readList_parameter {c : Node} (kind : c.kind = .parameter) (rest : List Node) :
    readList s .between (c :: rest) = c.parameter s :: readList s .between rest := by
  rw [readList, kind]

theorem readList_params {word type : Node} (kind : word.kind = .token .params) (named : type.isNamed)
    (rest : List Node) : readList s .between (word :: type :: rest) =
      readList s (.paramsName (type.phrase s)) rest := by
  rw [readList, kind]
  dsimp only
  rw [readList, if_pos named]

theorem readList_name {name : Node} (named : name.isNamed) (type : List Char) (rest : List Node) :
    readList s (.paramsName type) (name :: rest) =
      { modifiers := [paramsWord], type := some type, name := some (name.text s) } ::
        readList s .between rest := by
  rw [readList, if_pos named]

theorem readList_paramsName (type : List Char) (l : List Node) : ∃ name rest,
    readList s (.paramsName type) l =
      { modifiers := [paramsWord], type := some type, name := name } :: rest := by
  induction l with
  | nil => exact ⟨none, [], rfl⟩
  | cons c l ih =>
    rw [readList]
    split
    · exact ⟨some (c.text s), _, rfl⟩
    · exact ih

end Lists
end Syntax.Node

/-- The first parameter is the second with a comment in the place of its type or of its name. -/
inductive Parameter.Mistaken : Parameter → Parameter → Prop where
  | type {note type name : List Char} {shown : Option (List Char)} (opens : note.head? = some '/')
      (differs : type.head? ≠ some '/') :
      Mistaken { modifiers := [Syntax.Node.paramsWord], type := some note, name := shown }
        { modifiers := [Syntax.Node.paramsWord], type := some type, name := some name }
  | name {type note name : List Char} (opens : note.head? = some '/')
      (differs : name.head? ≠ some '/') :
      Mistaken { modifiers := [Syntax.Node.paramsWord], type := some type, name := some note }
        { modifiers := [Syntax.Node.paramsWord], type := some type, name := some name }

/-- Two lists of parameters are the same up to one that is mistaken in the first. -/
def Parameter.Parted (ps qs : List Parameter) : Prop :=
  ∃ front p q rest rest', ps = front ++ p :: rest ∧ qs = front ++ q :: rest' ∧ Mistaken p q

section Shown
open Text Syntax.Node
variable {p q : Parameter} {ps qs : List Parameter} {style : ParameterStyle}

theorem commaSeparated_cons (first : List Char) (rest : List (List Char)) :
    commaSeparated (first :: rest) = first ++ rest.flatMap ([',', ' '] ++ ·) := by
  unfold commaSeparated
  induction rest generalizing first with
  | nil => rw [List.intercalate_singleton, List.flatMap_nil, List.append_nil]
  | cons second rest ih =>
    rw [List.intercalate_cons_cons, ih, List.flatMap_cons, List.append_assoc, List.append_assoc]

theorem commaSeparated_split (front : List (List Char)) : ∃ lead, ∀ item rest,
    commaSeparated (front ++ item :: rest) = lead ++ (item ++ rest.flatMap ([',', ' '] ++ ·)) := by
  cases front with
  | nil => exact ⟨[], commaSeparated_cons⟩
  | cons first front =>
    refine ⟨first ++ front.flatMap ([',', ' '] ++ ·) ++ [',', ' '], fun item rest => ?_⟩
    rw [List.cons_append, commaSeparated_cons, List.flatMap_append, List.flatMap_cons]
    simp only [List.append_assoc]

theorem Parameter.render_params (types : style.types) (names : style.names) (type : List Char)
    (name : Option (List Char)) :
    ({ modifiers := [paramsWord], type := some type, name := name } : Parameter).render style =
      (if style.modifiers then paramsWord ++ [' '] else []) ++
        (type ++ name.toList.flatMap (' ' :: ·)) := by
  obtain ⟨modifiers, _, _, values⟩ := style
  subst types names
  cases modifiers <;> cases values <;> cases name <;> simp [render, spaceSeparated]

theorem Symbol.render_parameters {format : DisplayFormat} (shown : format.parameters = some style)
    (symbol : Symbol) : ∃ lead close, close ≠ '/' ∧ ∀ ps,
      { symbol with parameters := some ps }.render format =
        lead ++ (commaSeparated (ps.map (·.render style)) ++ [close]) := by
  have written : ∀ ps, { symbol with parameters := some ps }.renderParameters? format =
      some (commaSeparated (ps.map (·.render style))) := by
    intro ps
    rw [renderParameters?, shown]
  have brackets : ∃ opening close, close ≠ '/' ∧ ∀ ps,
      { symbol with parameters := some ps }.renderOwn format = renderName format symbol.name ++
        ([opening] ++ (commaSeparated (ps.map (·.render style)) ++ [close])) := by
    simp only [renderOwn, written]
    cases symbol.name with
    | indexer => exact ⟨'[', ']', by decide, fun _ => rfl⟩
    | _ => exact ⟨'(', ')', by decide, fun _ => rfl⟩
  obtain ⟨opening, close, closes, own⟩ := brackets
  refine ⟨renderContainers format symbol.containers ++ (renderName format symbol.name ++ [opening]),
    close, closes, fun ps => ?_⟩
  rw [render, own]
  simp only [List.append_assoc]

theorem append_ne_of_head? {note text : List Char} (opens : note.head? = some '/')
    (differs : text.head? ≠ some '/') (rest : List Char) : note ++ rest ≠ text := by
  intro same
  rw [← same, List.head?_append, opens] at differs
  exact differs rfl

theorem head?_append_ne {text rest : List Char} (differs : text.head? ≠ some '/')
    (follows : rest.head? ≠ some '/') : (text ++ rest).head? ≠ some '/' := by
  cases text with
  | nil => exact follows
  | cons c text => exact differs

theorem Parameter.Mistaken.render_append_ne (h : Mistaken p q) (types : style.types)
    (names : style.names) (rest : List Char) {rest' : List Char} (follows : rest'.head? ≠ some '/') :
    p.render style ++ rest ≠ q.render style ++ rest' := by
  cases h with
  | type opens differs =>
    rw [render_params types names, render_params types names]
    simp only [List.append_assoc, ne_eq, List.append_cancel_left_eq]
    refine append_ne_of_head? opens (head?_append_ne differs ?_) _
    simp
  | name opens differs =>
    rw [render_params types names, render_params types names]
    simp only [List.append_assoc, ne_eq, List.append_cancel_left_eq, Option.toList_some,
      List.flatMap_singleton, List.cons_append, List.cons.injEq, true_and]
    exact append_ne_of_head? opens (head?_append_ne differs follows) _

namespace Parameter.Parted

theorem head (h : Mistaken p q) (rest rest' : List Parameter) : Parted (p :: rest) (q :: rest') :=
  ⟨[], p, q, rest, rest', rfl, rfl, h⟩

theorem cons (p : Parameter) (h : Parted ps qs) : Parted (p :: ps) (p :: qs) := by
  obtain ⟨front, p', q', rest, rest', rfl, rfl, mistaken⟩ := h
  exact ⟨p :: front, p', q', rest, rest', rfl, rfl, mistaken⟩

theorem ne (h : Parted ps qs) : ps ≠ qs := by
  obtain ⟨front, p, q, rest, rest', rfl, rfl, mistaken⟩ := h
  intro same
  have one : p = q := (List.cons.inj (List.append_cancel_left same)).1
  subst one
  cases mistaken <;> contradiction

theorem commaSeparated_ne (h : Parted ps qs) (types : style.types) (names : style.names)
    {close : Char} (closes : close ≠ '/') :
    commaSeparated (ps.map (·.render style)) ++ [close] ≠
      commaSeparated (qs.map (·.render style)) ++ [close] := by
  obtain ⟨front, p, q, rest, rest', rfl, rfl, mistaken⟩ := h
  obtain ⟨lead, split⟩ := commaSeparated_split (front.map (·.render style))
  rw [List.map_append, List.map_append, List.map_cons, List.map_cons, split, split]
  simp only [List.append_assoc, ne_eq, List.append_cancel_left_eq]
  apply mistaken.render_append_ne types names
  cases rest' with
  | nil => simpa using closes
  | cons => simp

theorem render_ne (h : Parted ps qs) {format : DisplayFormat} (shown : format.parameters = some style)
    (types : style.types) (names : style.names) (symbol : Symbol) :
    { symbol with parameters := some ps }.render format ≠
      { symbol with parameters := some qs }.render format := by
  obtain ⟨lead, close, closes, written⟩ := symbol.render_parameters shown
  rw [written, written, Ne, List.append_cancel_left_eq]
  exact h.commaSeparated_ne types names closes

end Parameter.Parted
end Shown

namespace Syntax.Node
open Text

variable {s s' : SourceText} {l l' : List Node}

theorem head?_collapse {t : List Char} (h : ∀ c ∈ t.head?, isBlank c = false) :
    (collapse t).head? = t.head? := by
  cases t with
  | nil => rfl
  | cons c t =>
    rw [collapse_cons (h c rfl)]
    rfl

theorem IsComment.head?_phrase {n : Node} (h : IsComment s n) : (n.phrase s).head? = some '/' := by
  rw [phrase, head?_collapse, h.opens]
  rw [h.opens]
  rintro c ⟨⟩
  decide

theorem IsWord.head?_text_ne {n : Node} (h : IsWord s n) : (n.text s).head? ≠ some '/' :=
  fun opens => (h.opens '/' opens).1 rfl

theorem IsWord.head?_phrase_ne {n : Node} (h : IsWord s n) : (n.phrase s).head? ≠ some '/' := by
  rw [phrase, head?_collapse fun c opens => (h.opens c opens).2]
  exact h.head?_text_ne

theorem interrupted_array {type name : Node}
    (isType : type.kind ≠ .other "comment" ∧ type.kind ≠ .token .params)
    (isName : name.kind ≠ .other "comment" ∧ name.kind ≠ .token .params) (word : Node)
    (rest : List Node) : interrupted (word :: type :: name :: rest) = interrupted rest := by
  rw [interrupted, interrupted_cons isType.2, interrupted_cons isName.2]
  simp [isType.1, isName.1]

theorem interrupted_of_mem {word c : Node} {rest : List Node} (kind : word.kind = .token .params)
    (comment : c.kind = .other "comment") (next : c ∈ rest.take 2) :
    interrupted (word :: rest) = true := by
  have found : (rest.take 2).any (fun d => d.kind == .other "comment") = true :=
    List.any_eq_true.2 ⟨c, next, beq_iff_eq.2 comment⟩
  rw [interrupted, found, kind]
  rfl

/-- A list with comments is read as without them, or parts from that reading at a mistaken parameter if
a comment stands among the nodes after `params`. -/
theorem readList_commented (items : Items s l) (h : Commented s s' l l') :
    (interrupted l' = false → readList s' .between l' = readList s .between l) ∧
      (interrupted l' = true →
        Parameter.Parted (readList s' .between l') (readList s .between l)) := by
  induction items generalizing l' with
  | nil =>
    obtain ⟨comments⟩ := h
    rw [← List.append_nil l', interrupted_notes comments, readList_notes comments]
    exact ⟨fun _ => rfl, fun broken => nomatch broken⟩
  | @other c rest kind later ih =>
    obtain _ | ⟨comments, moved, rest⟩ := h
    rw [interrupted_notes comments, readList_notes comments,
      interrupted_cons (moved.kind_eq ▸ kind)]
    obtain ⟨same, parted⟩ := ih rest
    by_cases parameter : c.kind = .parameter
    · rw [readList_parameter parameter, readList_parameter (moved.kind_eq ▸ parameter),
        moved.parameter_eq]
      exact ⟨fun whole => by rw [same whole], fun broken => (parted broken).cons _⟩
    · rw [readList_other parameter kind,
        readList_other (moved.kind_eq ▸ parameter) (moved.kind_eq ▸ kind)]
      exact ⟨same, parted⟩
  | @array word type name rest kind isType isName later ih =>
    obtain _ | ⟨comments, moved, h⟩ := h
    obtain _ | @⟨typeNotes, _, type', _, _, typeComments, movedType, h⟩ := h
    obtain _ | @⟨nameNotes, _, name', _, l', nameComments, movedName, h⟩ := h
    have kind' := moved.kind_eq ▸ kind
    have namedType := movedType.isNamed_eq ▸ isType.named
    have namedName := movedName.isNamed_eq ▸ isName.named
    rw [interrupted_notes comments, readList_notes comments, readList_params kind isType.named,
      readList_name isName.named]
    -- Right after `params` there is a comment or the type, and after the type a comment or the name.
    cases typeNotes with
    | cons note typeNotes =>
      have comment := typeComments note List.mem_cons_self
      rw [List.cons_append, interrupted_of_mem kind' comment.kind List.mem_cons_self,
        readList_params kind' comment.named]
      obtain ⟨shown, rest, read⟩ := readList_paramsName (s := s') (note.phrase s') _
      refine ⟨(nomatch ·), fun _ => ?_⟩
      rw [read]
      exact .head (.type comment.head?_phrase isType.head?_phrase_ne) _ _
    | nil =>
      rw [List.nil_append, readList_params kind' namedType, ← movedType.phrase_eq]
      cases nameNotes with
      | cons note nameNotes =>
        have comment := nameComments note List.mem_cons_self
        rw [List.cons_append, readList_name comment.named,
          interrupted_of_mem kind' comment.kind (List.mem_cons_of_mem _ List.mem_cons_self)]
        refine ⟨(nomatch ·), fun _ => ?_⟩
        exact .head (.name comment.opens isName.head?_text_ne) _ _
      | nil =>
        rw [List.nil_append, readList_name namedName, ← movedName.text_eq,
          interrupted_array (movedType.kind_eq ▸ isType.other) (movedName.kind_eq ▸ isName.other)]
        obtain ⟨same, parted⟩ := ih h
        exact ⟨fun whole => by rw [same whole], fun broken => (parted broken).cons _⟩

/-- Comments leave a parameter list as it is exactly if none is right after `params` or right after its
type. Else the lists part where a comment has become a type or a name, and it is seen wherever types and
names of parameters are shown. -/
theorem parameters_free_of_comments_iff {n n' list list' : Node}
    (place : n.parameterList? = some list) (place' : n'.parameterList? = some list')
    (items : Items s list.children) (h : Commented s s' list.children list'.children) :
    (n'.parameters s' = n.parameters s ↔ interrupted list'.children = false) ∧
      (interrupted list'.children = true →
        Parameter.Parted (n'.parameters s') (n.parameters s)) ∧
      ∀ (symbol : Symbol) (format : DisplayFormat) (style : ParameterStyle),
        format.parameters = some style → style.types → style.names →
        ({ symbol with parameters := some (n'.parameters s') }.render format =
            { symbol with parameters := some (n.parameters s) }.render format ↔
          interrupted list'.children = false) := by
  obtain ⟨same, parted⟩ := readList_commented items h
  have read : n.parameters s = readList s .between list.children := by rw [parameters, place]
  have read' : n'.parameters s' = readList s' .between list'.children := by rw [parameters, place']
  rw [read, read']
  cases broken : interrupted list'.children with
  | false =>
    rw [same broken]
    exact ⟨iff_of_true rfl rfl, (nomatch ·), fun _ _ _ _ _ _ => iff_of_true rfl rfl⟩
  | true =>
    have apart := parted broken
    refine ⟨iff_of_false apart.ne nofun, fun _ => apart, ?_⟩
    intro symbol format style shown types names
    exact iff_of_false (apart.render_ne shown types names symbol) nofun

end Syntax.Node

namespace Document
open Syntax Syntax.Node

def noteBetween (start stop : Nat) : List Node :=
  if start = stop then [] else [.named (.other "comment") none start stop []]

def notedParameters (first second third : String) : Node :=
  let p := 14 + first.length
  let t := p + 7 + second.length
  let e := t + 8 + third.length
  .named .parameterList (some .parameters) 6 (e + 1)
    ([.mark "(" 6 7,
      .named .parameter none 7 12
       [.named (.other "predefined_type") (some .type) 7 10 [],
        .named .identifier (some .name) 11 12 []],
      .mark "," 12 13] ++ noteBetween 14 p ++
     [.mark "params" p (p + 6)] ++ noteBetween (p + 7) t ++
     [.named (.other "array_type") (some .type) t (t + 5)
       [.named (.other "predefined_type") (some .type) t (t + 3) [],
        .named (.other "array_rank_specifier") (some (.other "rank")) (t + 3) (t + 5)
         [.mark "[" (t + 3) (t + 4), .mark "]" (t + 4) (t + 5)]],
      .named .identifier (some .name) (t + 6) (t + 8) []] ++ noteBetween (t + 8) e ++
     [.mark ")" e (e + 1)])

/-- A method with notes before `params`, after it and at the end of its parameters. -/
def notedMethod (first second third : String) : Document :=
  let list := notedParameters first second third
  { source := .ofString
      ("void M(int x, " ++ first ++ "params " ++ second ++ "int[] xs" ++ third ++ ")")
    root := .named (.method .method) none 0 list.span.stop
      [.named (.other "predefined_type") (some (.other "returns")) 0 4 [],
       .named .identifier (some .name) 5 6 [], list] }

theorem notedParameters_items :
    Items (notedMethod "" "" "").source (notedParameters "" "" "").children := by
  refine .other ?_ (.other ?_ (.other ?_ (.array rfl ?_ ?_ (.other ?_ .nil)))) <;> decide +kernel

theorem notedMethod_read_without_notes :
    let d := notedMethod "" "" ""
    let d' := notedMethod "/*a*/" "" "/*c*/"
    let list := notedParameters "" "" ""
    let list' := notedParameters "/*a*/" "" "/*c*/"
    (d.root.parameterList? = some list ∧ d'.root.parameterList? = some list' ∧
        Items d.source list.children ∧
        Commented d.source d'.source list.children list'.children ∧
        interrupted list'.children = false) ∧
      d'.root.parameters d'.source = d.root.parameters d.source ∧
      (∀ symbol : Symbol,
        { symbol with parameters := some (d'.root.parameters d'.source) }.render .fullMember =
          { symbol with parameters := some (d.root.parameters d.source) }.render .fullMember) ∧
      (d'.root.parameters d'.source).map (·.render ⟨true, true, true, true⟩) =
        ["int x".toList, "params int[] xs".toList] := by
  intro d d' list list'
  have commented : Commented d.source d'.source list.children list'.children :=
    commented_of_filter (by decide +kernel) (Moved.forall₂_of_texts rfl (by decide +kernel))
  have whole : interrupted list'.children = false := by decide +kernel
  have place : d.root.parameterList? = some list := rfl
  have place' : d'.root.parameterList? = some list' := rfl
  obtain ⟨same, -, shown⟩ :=
    parameters_free_of_comments_iff place place' notedParameters_items commented
  refine ⟨⟨place, place', notedParameters_items, commented, whole⟩, same.2 whole,
    fun symbol => ?_, ?_⟩
  · exact (shown symbol .fullMember _ rfl rfl rfl).2 whole
  · decide +kernel

/-- A note after `params` stands as the type, and the type as the name. -/
theorem notedMethod_note_read_as_type :
    let d := notedMethod "" "" ""
    let d' := notedMethod "" "/*b*/" ""
    let list := notedParameters "" "" ""
    let list' := notedParameters "" "/*b*/" ""
    (d.root.parameterList? = some list ∧ d'.root.parameterList? = some list' ∧
        Items d.source list.children ∧
        Commented d.source d'.source list.children list'.children) ∧
      (d.root.parameters d.source).map (·.render ⟨true, true, true, true⟩) =
        ["int x".toList, "params int[] xs".toList] ∧
      (d'.root.parameters d'.source).map (·.render ⟨true, true, true, true⟩) =
        ["int x".toList, "params /*b*/ int[]".toList] ∧
      (Element.listings 0 ((arrayMethod "" "").outline .standard).elements).map (·.2.displayName) =
        ["C", "M(params int[] xs)"] ∧
      (Element.listings 0 ((arrayMethod "/*c*/ " "").outline .standard).elements).map
        (·.2.displayName) = ["C", "M(params /*c*/ int[])"] := by
  intro d d' list list'
  have commented : Commented d.source d'.source list.children list'.children :=
    commented_of_filter (by decide +kernel) (Moved.forall₂_of_texts rfl (by decide +kernel))
  refine ⟨⟨rfl, rfl, notedParameters_items, commented⟩, ?_⟩
  decide +kernel

end Document
end CodeAtlas
