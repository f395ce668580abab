import CodeAtlas.Proofs.LayoutBinding
import CodeAtlas.Proofs.Names

/-!
Outlines do not depend on layout. Two trees with corresponding nodes are walked in step, so that the
outlines of two layouts of a document list the same declarations with the same words in their names.
The one text that is shown as it stands wherever it comes from is the name after `params`, and a
comment there puts the type in the place of the name.
-/
namespace CodeAtlas
open Syntax Text

section Walking
variable {N N' : Type} {R : N → N' → Prop}

inductive Declaration.Rel (R : N → N' → Prop) : Declaration N → Declaration N' → Prop where
  | container (form : ContainerForm) {head : Head N} {head' : Head N'} {members : List N}
      {members' : List N'} (node : R head.node head'.node)
      (below : List.Forall₂ R members members') :
      Rel R (.container form head members) (.container form head' members')
  | single (form : SingleForm) {head : Head N} {head' : Head N'} (node : R head.node head'.node) :
      Rel R (.single form head) (.single form head')
  | fields {f : FieldStatement N} {f' : FieldStatement N'}
      (declared : List.Forall₂ (fun v v' => R v.node v'.node) f.declarators f'.declarators) :
      Rel R (.fields f) (.fields f')
  | other : Rel R .other .other

theorem Declaration.Rel.and_mem {P : N → Prop} {a : Declaration N} {b : Declaration N'}
    (h : a.Rel R b) (heads : ∀ p ∈ a.heads, P p.2.node) (members : ∀ m ∈ a.members, P m) :
    a.Rel (fun n n' => P n ∧ R n n') b := by
  cases h with
  | container form node below =>
    refine .container form ⟨heads _ List.mem_cons_self, node⟩ ?_
    apply (forall₂_mem below).imp
    rintro m m' ⟨member, alike⟩
    exact ⟨members m member, alike⟩
  | single form node => exact .single form ⟨heads _ List.mem_cons_self, node⟩
  | fields declared =>
    apply Rel.fields
    apply (forall₂_mem declared).imp
    rintro v v' ⟨listed, alike⟩
    exact ⟨heads _ (List.mem_map_of_mem listed), alike⟩
  | other => exact .other

structure Handle.Rel (R : N → N' → Prop) (h : Handle N) (h' : Handle N') : Prop where
  depth : h.depth = h'.depth
  form : h.form = h'.form
  node : R h.head.node h'.head.node

namespace SyntaxTree
variable {tree : SyntaxTree N} {tree' : SyntaxTree N'} {model : Model N} {model' : Model N'}

/-- Trees that sort corresponding nodes alike are walked in step, as long as the same of them
bind. -/
theorem handles_rel
    (sorted : ∀ n n', R n n' → (tree.classify n).Rel R (tree'.classify n'))
    (bound : ∀ n n', R n n' → (model n).isSome = (model' n').isSome) {n : N} {n' : N'}
    (h : R n n') (depth : Nat) :
    List.Forall₂ (Handle.Rel R) (tree.handles model depth n) (tree'.handles model' depth n') := by
  induction n using tree.member_induction generalizing n' depth with
  | step n ih =>
    have alike := sorted n n' h
    generalize here : tree.classify n = a at alike
    generalize there : tree'.classify n' = b at alike
    cases alike with
    | container form node below =>
      rw [handles_container depth here, handles_container depth there, bound _ _ node]
      refine .cons ⟨rfl, rfl, node⟩ ?_
      split
      · apply List.rel_flatMap (forall₂_mem below)
        rintro m m' ⟨member, alike⟩
        refine ih m ?_ alike (depth + 1)
        rwa [here]
      · exact .nil
    | single form node =>
      rw [handles_single depth here, handles_single depth there]
      exact .cons ⟨rfl, rfl, node⟩ .nil
    | fields declared =>
      rw [handles_fields depth here, handles_fields depth there]
      apply List.rel_map _ declared
      intro v v' node
      exact ⟨rfl, rfl, node⟩
    | other =>
      rw [handles_other depth here, handles_other depth there]
      exact .nil

end SyntaxTree
end Walking

/-- Symbols that are the same to see, up to the blanks in their displays where names of parameters
are shown and are not certain. -/
structure BoundSymbol.Agree (certain : Prop) (a b : BoundSymbol) : Prop where
  category : a.category = b.category
  accessibility : a.accessibility = b.accessibility
  isStatic : a.isStatic = b.isStatic
  words : ∀ format, words (a.display format).toList = words (b.display format).toList
  display : ∀ format, format.hidesNames ∨ certain → a.display format = b.display format

theorem BoundSymbol.Agree.mono {certain certain' : Prop} {a b : BoundSymbol}
    (h : a.Agree certain b) (given : certain' → certain) : a.Agree certain' b :=
  { h with display := fun format shown => h.display format (shown.imp_right given) }

theorem Symbol.Alike.agree {certain : Prop} {a b : Symbol} (h : a.Alike certain b) :
    a.toBound.Agree certain b.toBound := by
  refine ⟨h.category, h.accessibility, h.isStatic, ?_, ?_⟩
  · intro format
    unfold toBound
    dsimp only
    rw [String.toList_ofList, String.toList_ofList]
    exact (h.render_respaced format).words_eq
  · intro format shown
    unfold toBound
    dsimp only
    rcases shown with hidden | given
    · rw [h.render_eq hidden]
    · rw [h.eq given]

/-- Elements that are the same to see but for their places, up to the blanks in names that show
uncertain names of parameters. -/
structure Element.Agree (naming : Naming) (certain : Prop) (e e' : Element) : Prop where
  kind : e.kind = e'.kind
  properties : e.properties = e'.properties
  nameWords : words e.name.toList = words e'.name.toList
  displayWords : words e.displayName.toList = words e'.displayName.toList
  name : naming.shortType.hidesNames ∧ naming.shortMember.hidesNames ∨ certain → e.name = e'.name
  displayName : naming.fullType.hidesNames ∧ naming.fullMember.hidesNames ∨ certain →
    e.displayName = e'.displayName

theorem BoundSymbol.Agree.element {N N' : Type} {certain : Prop} {a b : BoundSymbol}
    (h : a.Agree certain b) (naming : Naming) (text text' : SourceText) (form : Form)
    (head : Head N) (head' : Head N') :
    (Resolved.element naming text (.mk form head a [])).Agree naming certain
      (Resolved.element naming text' (.mk form head' b [])) := by
  have properties : a.properties? form = b.properties? form := by
    unfold properties?
    rw [h.accessibility, h.isStatic]
  unfold Resolved.element
  refine ⟨congrArg Category.elementKind h.category, properties, h.words _, h.words _, ?_, ?_⟩
  · intro shown
    apply h.display
    apply shown.imp_left
    rintro ⟨type, member⟩
    split <;> assumption
  · intro shown
    apply h.display
    apply shown.imp_left
    rintro ⟨type, member⟩
    split <;> assumption

namespace SyntaxTree
variable {N N' : Type} {R : N → N' → Prop} {tree : SyntaxTree N} {tree' : SyntaxTree N'}
  {model : Model N} {model' : Model N'} {certain : Prop}

theorem listings_agree
    (sorted : ∀ n n', R n n' → (tree.classify n).Rel R (tree'.classify n'))
    (bound : ∀ n n', R n n' → Option.Rel (BoundSymbol.Agree certain) (model n) (model' n'))
    (roots : List.Forall₂ R tree.roots tree'.roots) (naming : Naming) (text text' : SourceText) :
    List.Forall₂ (fun p p' => p.1 = p'.1 ∧ p.2.Agree naming certain p'.2)
      (Element.listings 0 (tree.outline model naming text).elements)
      (Element.listings 0 (tree'.outline model' naming text').elements) := by
  have both : ∀ n n', R n n' → (model n).isSome = (model' n').isSome := by
    intro n n' alike
    exact isSome_eq_of_rel (bound n n' alike)
  have met : List.Forall₂ (Handle.Rel R) (tree.rootHandles model) (tree'.rootHandles model') :=
    List.rel_flatMap roots fun _ _ alike => handles_rel sorted both alike 0
  have shown : List.Forall₂ (fun p p' => p.1 = p'.1 ∧ p.2.Agree naming certain p'.2)
      (bareListing naming text 0 (tree.resolution model).found)
      (bareListing naming text' 0 (tree'.resolution model').found) := by
    rw [bareListing_outline, bareListing_outline]
    apply List.rel_filterMap _ met
    rintro ⟨depth, form, head⟩ ⟨_, _, head'⟩ ⟨rfl, rfl, node⟩
    apply rel_optionMap (bound _ _ node)
    intro a b _ agree
    exact ⟨rfl, agree.element naming text text' form head head'⟩
  unfold bareListing at shown
  rw [List.forall₂_map_left_iff, List.forall₂_map_right_iff] at shown
  -- what is below an element does not count for what is to be seen of it
  apply shown.imp
  rintro p p' ⟨depth, agree⟩
  exact ⟨depth, { agree with }⟩

end SyntaxTree

namespace Syntax.Cursor.Twin
variable {s s' : SourceText} {c c' : Cursor}

theorem namedOf {l l' : List Cursor} (h : List.Forall₂ (Twin s s') l l') :
    List.Forall₂ (Twin s s') (l.filter (·.node.isNamed)) (l'.filter (·.node.isNamed)) :=
  List.rel_filter (fun _ _ twin => Bool.eq_iff_iff.1 twin.place.node.isNamed_eq) h

theorem namedChildren (h : Twin s s' c c') :
    List.Forall₂ (Twin s s') c.namedChildren c'.namedChildren := namedOf h.children

theorem namedFollowing (h : Twin s s' c c') :
    List.Forall₂ (Twin s s') c.namedFollowing c'.namedFollowing := namedOf h.following

theorem body? (h : Twin s s' c c') : Option.Rel (Twin s s') c.body? c'.body? := by
  apply rel_or
  · apply rel_find? h.children
    intro d d' twin
    rw [twin.place.node.role_eq]
  · apply rel_find? h.children
    intro d d' twin
    rw [twin.kind_eq]

theorem namedOf? {o o' : Option Cursor} (h : Option.Rel (Twin s s') o o') :
    List.Forall₂ (Twin s s') ((o.map Cursor.namedChildren).getD [])
      ((o'.map Cursor.namedChildren).getD []) := by
  cases h with
  | none => exact .nil
  | some twin => exact twin.namedChildren

theorem bodyMembers (h : Twin s s' c c') :
    List.Forall₂ (Twin s s') c.bodyMembers c'.bodyMembers := namedOf? h.body?

theorem fileMembers (h : Twin s s' c c') :
    List.Forall₂ (Twin s s') c.fileMembers c'.fileMembers :=
  List.rel_append h.namedChildren h.namedFollowing

theorem declarators (h : Twin s s' c c') :
    List.Forall₂ (fun v v' => Twin s s' v.node v'.node) c.declarators c'.declarators := by
  unfold Cursor.declarators
  dsimp only
  rw [List.forall₂_map_left_iff, List.forall₂_map_right_iff]
  apply List.rel_filter
  · intro d d' (twin : Twin s s' d d')
    exact Bool.eq_iff_iff.1 (congrArg (· == .variableDeclarator) twin.kind_eq)
  · apply namedOf?
    apply rel_find? h.children
    intro d d' twin
    rw [twin.kind_eq]

theorem takeThrough {p : Cursor → Bool} {l l' : List Cursor} (h : List.Forall₂ (Twin s s') l l')
    (same : ∀ d d', Twin s s' d d' → p d = p d') :
    List.Forall₂ (Twin s s') (Cursor.takeThrough p l) (Cursor.takeThrough p l') := by
  induction h with
  | nil => exact .nil
  | @cons d d' _ _ first rest ih =>
    unfold Cursor.takeThrough
    rw [same d d' first]
    split
    · exact .cons first .nil
    · exact .cons first ih

theorem rootMembers (h : Twin s s' c c') :
    List.Forall₂ (Twin s s') c.rootMembers c'.rootMembers :=
  takeThrough h.namedChildren fun _ _ twin => by rw [twin.kind_eq]

theorem classify (h : Twin s s' c c') : c.classify.Rel (Twin s s') c'.classify := by
  unfold Cursor.classify
  rw [← h.kind_eq]
  split
  · exact .container .enum h h.bodyMembers
  · exact .container .type h h.bodyMembers
  · exact .container .namespace h h.bodyMembers
  · exact .container .namespace h h.fileMembers
  · exact .single .delegate h
  · exact .single .enumMember h
  · exact .single _ h
  · exact .single _ h
  · exact .fields h.declarators
  · exact .other

end Syntax.Cursor.Twin

theorem isChain_and {α : Type} {R S : α → α → Prop} {l : List α} (first : l.IsChain R)
    (second : l.IsChain S) : l.IsChain fun a b => R a b ∧ S a b := by
  induction l with
  | nil => exact .nil
  | cons a rest ih =>
    cases rest with
    | nil => exact .singleton a
    | cons b rest =>
      rw [List.isChain_cons_cons] at *
      exact ⟨⟨first.1, second.1⟩, ih first.2 second.2⟩

namespace Document
variable {d d' : Document}

/-- The leaves of the tree follow one another with nothing but blanks between them, and every node
spans from its first leaf to its last. -/
structure LaidOut (d : Document) : Prop where
  placed : ∀ a ∈ d.root.leaves, a.Placed d.source
  follows : d.root.leaves.IsChain (Node.Follows d.source)
  fits : ∀ n ∈ d.root.nodes, n.Fits

/-- The trees have the same rows but for the spans, their leaves say the same, and blanks stand between
leaves of the one where they stand between those of the other. -/
structure Relaid (d d' : Document) : Prop where
  rows : (d.root.rows 0).map (fun r => (r.1, r.2.unplaced)) =
    (d'.root.rows 0).map fun r => (r.1, r.2.unplaced)
  texts : ∀ p ∈ d.root.leaves.zip d'.root.leaves, p.1.text d.source = p.2.text d'.source
  gaps : (d.root.leaves.zip d'.root.leaves).IsChain fun p q =>
    Node.gap d.source p.1 q.1 = [] ↔ Node.gap d'.source p.2 q.2 = []

instance (d : Document) : Decidable d.LaidOut :=
  decidable_of_iff (_ ∧ _ ∧ _)
    ⟨fun ⟨placed, follows, fits⟩ => ⟨placed, follows, fits⟩,
      fun h => ⟨h.placed, h.follows, h.fits⟩⟩

instance (d d' : Document) : Decidable (d.Relaid d') :=
  decidable_of_iff (_ ∧ _ ∧ _)
    ⟨fun ⟨rows, texts, gaps⟩ => ⟨rows, texts, gaps⟩, fun h => ⟨h.rows, h.texts, h.gaps⟩⟩

def TightNames (d : Document) : Prop := ∀ c ∈ Cursor.all d.root, c.TightNames d.source

theorem Relaid.twin (h : d.Relaid d') (laid : d.LaidOut) (laid' : d'.LaidOut)
    (plain : ∀ n ∈ d.root.nodes, n.Plain d.source) :
    Node.Twin d.source d'.source d.root d'.root := by
  have shape := Node.unplaced_eq_of_rows h.rows
  have length := Node.length_leaves_eq shape
  have follows : (d.root.leaves.zip d'.root.leaves).IsChain fun p q =>
      Node.Follows d.source p.1 q.1 := by
    have chain := laid.follows
    rw [← List.map_fst_zip (Nat.le_of_eq length), List.isChain_map] at chain
    exact chain
  have follows' : (d.root.leaves.zip d'.root.leaves).IsChain fun p q =>
      Node.Follows d'.source p.2 q.2 := by
    have chain := laid'.follows
    rw [← List.map_snd_zip (Nat.le_of_eq length.symm), List.isChain_map] at chain
    exact chain
  refine ⟨⟨shape, ⟨?_, h.texts, ?_⟩, laid.fits, laid'.fits⟩, plain⟩
  · intro p member
    obtain ⟨first, second⟩ := List.of_mem_zip member
    exact ⟨laid.placed _ first, laid'.placed _ second⟩
  · exact isChain_and follows (isChain_and follows' h.gaps)

theorem models_agree {c c' : Cursor} (twin : Cursor.Twin d.source d'.source c c') :
    Option.Rel (BoundSymbol.Agree (c.TightNames d.source)) (d.model c) (d'.model c') := by
  apply rel_optionMap twin.bind?_alike
  intro a b _ alike
  exact alike.agree

theorem outlines_agree (h : Node.Twin d.source d'.source d.root d'.root) (naming : Naming) :
    List.Forall₂ (fun p p' => p.1 = p'.1 ∧ p.2.Agree naming d.TightNames p'.2)
      (Element.listings 0 (d.outline naming).elements)
      (Element.listings 0 (d'.outline naming).elements) := by
  -- that a cursor is one of the document's own is what makes its names certain
  let Corresponds (c c' : Cursor) := c ∈ Cursor.all d.root ∧ Cursor.Twin d.source d'.source c c'
  have root : Cursor.Twin d.source d'.source (.root d.root) (.root d'.root) :=
    ⟨⟨h, .nil, .nil⟩, .nil⟩
  have roots : List.Forall₂ Corresponds d.tree.roots d'.tree.roots := by
    apply (forall₂_mem root.rootMembers).imp
    rintro c c' ⟨member, twin⟩
    exact ⟨(reached_mem_all (.root member)).1, twin⟩
  have sorted : ∀ c c', Corresponds c c' →
      (d.tree.classify c).Rel Corresponds (d'.tree.classify c') := by
    rintro c c' ⟨place, twin⟩
    apply twin.classify.and_mem
    · rintro ⟨form, head⟩ listed
      exact head_mem_all place (Cursor.introduces_of_mem listed)
    · intro m member
      exact (Cursor.members_mem_all place member).1
  have bound : ∀ c c', Corresponds c c' →
      Option.Rel (BoundSymbol.Agree d.TightNames) (d.model c) (d'.model c') := by
    rintro c c' ⟨place, twin⟩
    rcases rel_cases (models_agree twin) with ⟨none, none'⟩ | ⟨a, b, found, found', agree⟩
    · rw [none, none']
      exact .none
    · rw [found, found']
      exact .some (agree.mono fun tight => tight c place)
  exact SyntaxTree.listings_agree sorted bound roots naming d.source d'.source

/-- Names do not depend on layout. Row by row, two layouts of a document bind to symbols that are the
same to see, or both to none, and their outlines list elements that are the same to see. Displays have
the same words in every format, and are the same where names of parameters are hidden or the nodes
taken as names after `params` have no gaps. -/
theorem names_free_of_layout (relaid : d.Relaid d') (laid : d.LaidOut) (laid' : d'.LaidOut)
    (plain : ∀ n ∈ d.root.nodes, n.Plain d.source) :
    List.Forall₂ (fun c c' => Option.Rel (BoundSymbol.Agree (c.TightNames d.source))
        (d.model c) (d'.model c')) (Cursor.all d.root) (Cursor.all d'.root) ∧
      ∀ naming, List.Forall₂ (fun p p' => p.1 = p'.1 ∧ p.2.Agree naming d.TightNames p'.2)
        (Element.listings 0 (d.outline naming).elements)
        (Element.listings 0 (d'.outline naming).elements) := by
  have twin := relaid.twin laid laid' plain
  refine ⟨(Cursor.Twin.all twin).imp fun _ _ twin => models_agree twin, ?_⟩
  intro naming
  exact outlines_agree twin naming

def arrayMethod (note blanks : String) : Document :=
  let t := 24 + note.length
  let r := t + 3 + blanks.length
  let notes := if note.isEmpty then [] else [.named (.other "comment") none 24 (t - 1) []]
  { source := .ofString
      ("class C \x7b void M(params " ++ note ++ "int" ++ blanks ++ "[] xs) \x7b \x7d \x7d")
    root := .named (.other "compilation_unit") none 0 (r + 12)
      [.named (.type .class) none 0 (r + 12)
        [.mark "class" 0 5, .named .identifier (some .name) 6 7 [],
         .named .memberList (some .body) 8 (r + 12)
          [.mark "\x7b" 8 9,
           .named (.method .method) none 10 (r + 10)
            [.named (.other "predefined_type") (some (.other "returns")) 10 14 [],
             .named .identifier (some .name) 15 16 [],
             .named .parameterList (some .parameters) 16 (r + 6)
              ([.mark "(" 16 17, .mark "params" 17 23] ++ notes ++
               [.named (.other "array_type") (some .type) t (r + 2)
                 [.named (.other "predefined_type") (some .type) t (t + 3) [],
                  .named (.other "array_rank_specifier") (some (.other "rank")) r (r + 2)
                   [.mark "[" r (r + 1), .mark "]" (r + 1) (r + 2)]],
                .named .identifier (some .name) (r + 3) (r + 5) [], .mark ")" (r + 5) (r + 6)]),
             .named (.other "block") (some .body) (r + 7) (r + 10)
              [.mark "\x7b" (r + 7) (r + 8), .mark "\x7d" (r + 9) (r + 10)]],
           .mark "\x7d" (r + 11) (r + 12)]]] }

theorem arrayMethod_names_free :
    let d := arrayMethod "" "\n    "
    let d' := arrayMethod "" " "
    (d.Relaid d' ∧ d.LaidOut ∧ d'.LaidOut ∧ (∀ n ∈ d.root.nodes, n.Plain d.source) ∧
        d.TightNames) ∧
      List.Forall₂ (fun p p' => p.1 = p'.1 ∧ p.2.displayName = p'.2.displayName)
        (Element.listings 0 (d.outline .standard).elements)
        (Element.listings 0 (d'.outline .standard).elements) := by
  intro d d'
  have relaid : d.Relaid d' := by decide +kernel
  have laid : d.LaidOut := by decide +kernel
  have laid' : d'.LaidOut := by decide +kernel
  have plain : ∀ n ∈ d.root.nodes, n.Plain d.source := by decide +kernel
  have tight : d.TightNames := by
    unfold TightNames Cursor.TightNames
    decide +kernel
  refine ⟨⟨relaid, laid, laid', plain, tight⟩, ?_⟩
  apply ((names_free_of_layout relaid laid laid' plain).2 .standard).imp
  rintro p p' ⟨depth, agree⟩
  exact ⟨depth, agree.displayName (.inr tight)⟩

/-- The note comes to stand for the type, and the type for the name, which is shown with its line
break. -/
theorem arrayMethod_note_shows_layout :
    let d := arrayMethod "/*c*/ " "\n    "
    let d' := arrayMethod "/*c*/ " " "
    (d.Relaid d' ∧ d.LaidOut ∧ d'.LaidOut ∧ ∀ n ∈ d.root.nodes, n.Plain d.source) ∧
      (Element.listings 0 (d.outline .standard).elements).map (·.2.displayName) =
        ["C", "M(params /*c*/ int\n    [])"] ∧
      (Element.listings 0 (d'.outline .standard).elements).map (·.2.displayName) =
        ["C", "M(params /*c*/ int [])"] := by
  decide +kernel

end Document
end CodeAtlas
