import CodeAtlas.Proofs.Binding
import CodeAtlas.Proofs.Layout

/-!
Types, default values and targets of conversions are shown as phrases, the text of a node with every
run of blanks as one space. A phrase is made of the leaves of the node with a space for each gap, and
the blanks inside a leaf are collapsed like those between leaves. So the leaves are shown as they stand
exactly if the blanks among them and in them are single spaces between other characters.
-/
namespace CodeAtlas

namespace Text

/-- The blanks of a text are single spaces between other characters. -/
@[mk_iff neat_iff]
structure Neat (s : List Char) : Prop where
  spaces : ∀ c ∈ s, isBlank c → c = ' '
  apart : s.IsChain fun a b => ¬ (isBlank a ∧ isBlank b)
  first : ∀ c ∈ s.head?, ¬ isBlank c
  last : ∀ c ∈ s.getLast?, ¬ isBlank c

-- The conditions on characters are tested on those of the text, not on all there are.
instance (s : List Char) : Decidable (Neat s) :=
  decidable_of_iff ((s.all fun c => !isBlank c || c == ' ') ∧
      (s.IsChain fun a b => ¬ (isBlank a ∧ isBlank b)) ∧
      s.head?.all (fun c => !isBlank c) ∧ s.getLast?.all fun c => !isBlank c) (by
    rw [neat_iff]
    simp [Option.all_eq_true, List.all_eq_true, Decidable.imp_iff_not_or])

namespace Neat
variable {c : Char} {s w : List Char}

theorem nil : Neat [] := ⟨by simp, .nil, by simp, by simp⟩

theorem cons (shown : isBlank c = false) (h : Neat s) : Neat (c :: s) := by
  refine ⟨?_, ?_, ?_, ?_⟩
  · intro d member blank
    rcases List.mem_cons.1 member with rfl | later
    · rw [shown] at blank
      cases blank
    · exact h.spaces d later blank
  · apply List.IsChain.cons h.apart
    simp [shown]
  · simp [shown]
  · intro d final
    cases s with
    | nil =>
      obtain rfl := Option.some.inj final
      simp [shown]
    | cons e s =>
      rw [List.getLast?_cons_cons] at final
      exact h.last d final

theorem space (shown : isBlank c = false) (filled : s ≠ []) (h : Neat s) : Neat (c :: ' ' :: s) := by
  obtain ⟨d, rest, rfl⟩ := List.exists_cons_of_ne_nil filled
  have next := h.first d rfl
  refine ⟨?_, ?_, ?_, ?_⟩
  · intro e member blank
    rcases List.mem_cons.1 member with rfl | later
    · rw [shown] at blank
      cases blank
    · rcases List.mem_cons.1 later with rfl | later
      · rfl
      · exact h.spaces e later blank
  · refine .cons_cons ?_ (.cons_cons ?_ h.apart)
    · simp [shown]
    · simp [next]
  · simp [shown]
  · intro e final
    rw [List.getLast?_cons_cons, List.getLast?_cons_cons] at final
    exact h.last e final

theorem of_append (h : Neat (w ++ s)) (next : ∀ d ∈ s.head?, ¬ isBlank d) : Neat s := by
  refine ⟨?_, (List.isChain_append.1 h.apart).2.1, next, ?_⟩
  · intro d member
    exact h.spaces d (List.mem_append_right w member)
  · intro d final
    apply h.last
    rw [List.getLast?_append, final]
    rfl

theorem append (plain : ∀ c ∈ w, ¬ isBlank c) (h : Neat s) : Neat (w ++ s) := by
  induction w with
  | nil => exact h
  | cons c w ih =>
    apply cons
    · simpa using plain c List.mem_cons_self
    · exact ih fun d later => plain d (List.mem_cons_of_mem c later)

theorem append_space (plain : ∀ c ∈ w, ¬ isBlank c) (word : w ≠ []) (filled : s ≠ []) (h : Neat s) :
    Neat (w ++ ' ' :: s) := by
  rw [← List.dropLast_concat_getLast word, List.append_assoc]
  have early : ∀ c ∈ w.dropLast, ¬ isBlank c := fun c member => plain c (List.dropLast_subset w member)
  apply append early
  apply space _ filled h
  simpa using plain _ (List.getLast_mem word)

end Neat

section Collapsing
variable {c : Char} {s : List Char}

theorem collapse_blank (h : isBlank c) (s : List Char) : collapse (c :: s) = collapse s := by
  unfold collapse
  rw [words_blank h]

theorem collapse_cons (h : isBlank c = false) (s : List Char) :
    collapse (c :: s) =
      c :: if opensWord s ∨ words s = [] then collapse s else ' ' :: collapse s := by
  unfold collapse
  rw [words_cons h]
  cases found : words s with
  | nil => cases opensWord s <;> rfl
  | cons w ws =>
    cases opens : opensWord s with
    | true => cases ws <;> simp [List.intercalate_cons_cons]
    | false => simp [List.intercalate_cons_cons]

theorem collapse_eq_nil_iff : collapse s = [] ↔ words s = [] := by
  induction s with
  | nil => exact ⟨fun _ => rfl, fun _ => rfl⟩
  | cons c s ih =>
    cases blank : isBlank c with
    | true => rwa [collapse_blank blank, words_blank blank]
    | false =>
      rw [collapse_cons blank, words_cons blank]
      refine iff_of_false (List.cons_ne_nil _ _) ?_
      split
      · split <;> exact List.cons_ne_nil _ _
      · exact List.cons_ne_nil _ _

theorem neat_collapse (s : List Char) : Neat (collapse s) := by
  induction s with
  | nil => exact .nil
  | cons c s ih =>
    cases blank : isBlank c with
    | true => rwa [collapse_blank blank]
    | false =>
      rw [collapse_cons blank]
      split
      · exact ih.cons blank
      · next other =>
        apply ih.space blank
        intro none
        exact other (.inr (collapse_eq_nil_iff.1 none))

theorem Neat.collapse_eq : ∀ {s : List Char}, Neat s → collapse s = s
  | [], _ => rfl
  | [c], h => by
    have shown : isBlank c = false := by simpa using h.first c rfl
    rw [collapse_cons shown]
    rfl
  | c :: d :: s, h => by
    have shown : isBlank c = false := by simpa using h.first c rfl
    rw [collapse_cons shown]
    cases blank : isBlank d with
    | false =>
      have rest : Neat (d :: s) := h.of_append (w := [c]) (by simp [blank])
      rw [if_pos (.inl (by simp [opensWord, blank])), rest.collapse_eq]
    | true =>
      -- a space ends the word, and a character that is no blank follows it
      obtain rfl := h.spaces d (List.mem_cons_of_mem c List.mem_cons_self) blank
      have next : ∀ e ∈ s.head?, ¬ isBlank e := by
        intro e found
        obtain ⟨rest, rfl⟩ := List.head?_eq_some_iff.1 found
        have apart := (List.isChain_cons_cons.1 h.apart.tail).1
        simpa [blank] using apart
      have rest : Neat s := h.of_append (w := [c, ' ']) next
      have kept := rest.collapse_eq
      have breaks : ¬ (opensWord (' ' :: s) ∨ words (' ' :: s) = []) := by
        have filled : s ≠ [] := by
          rintro rfl
          exact h.last ' ' rfl blank
        rw [words_blank blank, ← collapse_eq_nil_iff, kept]
        simp [opensWord, blank, filled]
      rw [if_neg breaks, collapse_blank blank, kept]

theorem collapse_eq_self_iff : collapse s = s ↔ Neat s :=
  ⟨fun same => same ▸ neat_collapse s, Neat.collapse_eq⟩

theorem filter_collapse (s : List Char) :
    (collapse s).filter (fun c => !isBlank c) = s.filter fun c => !isBlank c := by
  have space : isBlank ' ' := by decide
  induction s with
  | nil => rfl
  | cons c s ih =>
    cases blank : isBlank c with
    | true => rw [collapse_blank blank, ih, List.filter_cons_of_neg (by simp [blank])]
    | false =>
      rw [collapse_cons blank, List.filter_cons_of_pos (by simp [blank]),
        List.filter_cons_of_pos (by simp [blank])]
      split
      · rw [ih]
      · rw [List.filter_cons_of_neg (by simp [space]), ih]

end Collapsing
end Text

namespace Syntax.Node
open Text

section Leaves
variable {source : SourceText}

/-- The leaves of the node follow one another with nothing but blanks between them, and the node spans
from the first to the last. -/
structure LaidOut (source : SourceText) (n : Node) : Prop where
  fits : n.Fits
  placed : ∀ a ∈ n.leaves, a.Placed source
  follows : n.leaves.IsChain (Follows source)

instance (source : SourceText) (n : Node) : Decidable (n.LaidOut source) :=
  decidable_of_iff (_ ∧ _ ∧ _)
    ⟨fun ⟨fits, placed, follows⟩ => ⟨fits, placed, follows⟩,
      fun h => ⟨h.fits, h.placed, h.follows⟩⟩

/-- The texts of some nodes with one space wherever something stands between two of them. -/
def spaced (source : SourceText) : List Node → List Char
  | [] => []
  | [a] => a.text source
  | a :: b :: rest =>
    a.text source ++ ((if gap source a b = [] then [] else [' ']) ++ spaced source (b :: rest))

theorem weave_respaced {nodes : List Node} (follows : nodes.IsChain (Follows source)) :
    Respaced (weave source nodes) (spaced source nodes) := by
  induction nodes with
  | nil => exact .nil
  | cons a rest ih =>
    cases rest with
    | nil => exact .refl _
    | cons b rest =>
      obtain ⟨⟨_, blanks⟩, later⟩ := List.isChain_cons_cons.1 follows
      apply (Respaced.refl (a.text source)).append
      by_cases none : gap source a b = []
      · rw [none, if_pos rfl]
        exact ih later
      · rw [if_neg none]
        exact .gap none (List.cons_ne_nil _ _) blanks (List.forall_mem_singleton.2 rfl) (ih later)

theorem phrase_eq_collapse {n : Node} (laid : n.LaidOut source) :
    n.phrase source = collapse (spaced source n.leaves) := by
  unfold phrase
  rw [text_eq_weave laid.fits laid.placed laid.follows]
  exact (weave_respaced laid.follows).collapse_eq

theorem filter_spaced (nodes : List Node) :
    (spaced source nodes).filter (fun c => !isBlank c) =
      (nodes.flatMap (text source)).filter fun c => !isBlank c := by
  induction nodes with
  | nil => rfl
  | cons a rest ih =>
    cases rest with
    | nil => rw [List.flatMap_singleton]; rfl
    | cons b rest =>
      have blank : (if gap source a b = [] then [] else [' ']).filter (fun c => !isBlank c) = [] := by
        split <;> decide
      rw [spaced, List.flatMap_cons, List.filter_append, List.filter_append, List.filter_append, blank,
        ih]
      rfl

theorem neat_spaced {nodes : List Node}
    (plain : ∀ a ∈ nodes, a.text source ≠ [] ∧ ∀ c ∈ a.text source, ¬ isBlank c) :
    Neat (spaced source nodes) ∧ (nodes ≠ [] → spaced source nodes ≠ []) := by
  induction nodes with
  | nil => exact ⟨.nil, fun filled => absurd rfl filled⟩
  | cons a rest ih =>
    obtain ⟨filled, shown⟩ := plain a List.mem_cons_self
    obtain ⟨neat, more⟩ := ih fun b later => plain b (List.mem_cons_of_mem a later)
    cases rest with
    | nil =>
      refine ⟨?_, fun _ => filled⟩
      have alone := Neat.nil.append shown
      rwa [List.append_nil] at alone
    | cons b rest =>
      rw [spaced]
      refine ⟨?_, fun _ => List.append_ne_nil_of_left_ne_nil filled _⟩
      split
      · exact neat.append shown
      · exact neat.append_space shown filled (more (List.cons_ne_nil b rest))

end Leaves

section Shown
variable {source : SourceText} {nodes : List Node}

def PhraseOf (source : SourceText) (nodes : List Node) (text : List Char) : Prop :=
  ∃ n ∈ nodes, text = n.phrase source

structure Phrased (source : SourceText) (nodes : List Node) (p : Parameter) : Prop where
  type : ∀ text ∈ p.type, PhraseOf source nodes text
  value : ∀ text ∈ p.defaultValue, PhraseOf source nodes text

theorem phraseOf_self {n : Node} (member : n ∈ nodes) :
    ∀ text ∈ some (n.phrase source), PhraseOf source nodes text := by
  intro text same
  exact ⟨n, member, (Option.some.inj same).symm⟩

theorem phraseOf_none : ∀ text ∈ (none : Option (List Char)), PhraseOf source nodes text := by
  intro text none
  cases none

theorem Phrased.readPlain {s : ParameterState} {child : Node} (h : Phrased source nodes s.parameter)
    (below : ∀ m ∈ child.nodes, m ∈ nodes) (hasName hasType : Bool) :
    Phrased source nodes (readPlain source hasName hasType s child).parameter := by
  have self : ∀ text ∈ some (child.phrase source), PhraseOf source nodes text :=
    phraseOf_self (below child child.self_mem_nodes)
  unfold Node.readPlain
  dsimp only
  split
  · exact h
  split
  · exact h
  split
  · refine ⟨h.type, ?_⟩
    intro text found
    obtain ⟨value, first, rfl⟩ := Option.map_eq_some_iff.1 found
    have child := (List.mem_filter.1 (List.mem_of_head? first)).1
    exact ⟨value, below value (nodes_of_child child value.self_mem_nodes), rfl⟩
  split
  · exact ⟨h.type, h.value⟩
  split
  · exact ⟨h.type, self⟩
  split
  · exact ⟨h.type, h.value⟩
  split
  · exact ⟨self, h.value⟩
  · exact h

theorem Phrased.readPart {s : ParameterState} {child : Node} (h : Phrased source nodes s.parameter)
    (below : ∀ m ∈ child.nodes, m ∈ nodes) (hasName hasType : Bool) :
    Phrased source nodes (readPart source hasName hasType s child).parameter := by
  unfold Node.readPart
  split
  · exact ⟨h.type, h.value⟩
  split
  · exact ⟨phraseOf_self (below child child.self_mem_nodes), h.value⟩
  · exact h.readPlain below hasName hasType

theorem phrased_parameter {n : Node} (below : ∀ m ∈ n.nodes, m ∈ nodes) :
    Phrased source nodes (n.parameter source) := by
  unfold parameter
  dsimp only
  apply List.foldlRecOn (motive := fun s : ParameterState => Phrased source nodes s.parameter)
  · exact ⟨phraseOf_none, phraseOf_none⟩
  · intro s h child member
    apply h.readPart
    intro m inside
    exact below m (nodes_of_child member inside)

def ListState.Phrased (source : SourceText) (nodes : List Node) : ListState → Prop
  | .paramsName type => PhraseOf source nodes type
  | _ => True

theorem phrased_readList {l : List Node} (below : ∀ c ∈ l, ∀ m ∈ c.nodes, m ∈ nodes) (state : ListState)
    (read : state.Phrased source nodes) :
    ∀ p ∈ readList source state l, Phrased source nodes p := by
  induction l generalizing state with
  | nil =>
    intro p member
    cases state with
    | between => cases member
    | paramsType =>
      rw [List.mem_singleton.1 member]
      exact ⟨phraseOf_none, phraseOf_none⟩
    | paramsName type =>
      rw [List.mem_singleton.1 member]
      refine ⟨?_, phraseOf_none⟩
      intro text same
      exact Option.some.inj same ▸ read
  | cons c rest ih =>
    have first := below c List.mem_cons_self
    have later := ih fun d member => below d (List.mem_cons_of_mem c member)
    cases state with
    | between =>
      unfold readList
      split
      · intro p member
        rcases List.mem_cons.1 member with rfl | others
        · exact phrased_parameter first
        · exact later .between trivial p others
      · exact later .paramsType trivial
      · exact later .between trivial
    | paramsType =>
      unfold readList
      split
      · exact later _ ⟨c, first c c.self_mem_nodes, rfl⟩
      · exact later .paramsType trivial
    | paramsName type =>
      unfold readList
      split
      · intro p member
        rcases List.mem_cons.1 member with rfl | others
        · refine ⟨?_, phraseOf_none⟩
          intro text same
          exact Option.some.inj same ▸ read
        · exact later .between trivial p others
      · exact later (.paramsName type) read

theorem phrased_parameters (source : SourceText) (n : Node) :
    ∀ p ∈ n.parameters source, Phrased source n.nodes p := by
  unfold parameters
  cases found : n.parameterList? with
  | none => intro p member; cases member
  | some list =>
    have child : list ∈ n.children := by
      rcases Option.or_eq_some_iff.1 found with role | ⟨_, kind⟩
      · exact withRole?_mem role
      · exact ofKind?_mem kind
    apply phrased_readList _ .between trivial
    intro c member m inside
    exact nodes_of_child child (nodes_of_child member inside)

end Shown
end Syntax.Node

/-- The texts of a symbol that are shown with their blanks collapsed. -/
def Symbol.phrases (s : Symbol) : List (List Char) :=
  (s.parameters.getD []).flatMap (fun p => p.type.toList ++ p.defaultValue.toList) ++
    match s.name with
    | .conversion _ target => [target]
    | _ => []

namespace Syntax.Cursor
variable {source : SourceText} {c : Cursor} {s : Symbol}

theorem bindMethod?_parts {form : MethodForm} (h : c.bindMethod? source form = some s) :
    s.parameters = some (c.node.parameters source) ∧
      ∀ direction target, s.name = .conversion direction target →
        Node.PhraseOf source c.node.nodes target := by
  obtain ⟨t, token, known⟩ := bindMethod?_boundAs h
  obtain ⟨_, _, rfl⟩ := Option.map_eq_some_iff.1 h
  constructor
  · cases form with
    | constructor => dsimp only; split <;> rfl
    | method | destructor | operator | conversion => rfl
  · intro direction target name
    rw [known.name] at name
    cases form with
    | conversion =>
      obtain ⟨_, rfl⟩ := SymbolName.conversion.inj name
      exact ⟨t, Node.nodes_of_child (Node.methodName?_mem token) t.self_mem_nodes, rfl⟩
    | method | constructor | destructor | operator => cases name

theorem bind?_parts (h : c.bind? source = some s) :
    (s.parameters = none ∨ s.parameters = some (c.node.parameters source)) ∧
      ∀ direction target, s.name = .conversion direction target →
        Node.PhraseOf source c.node.nodes target := by
  unfold bind? at h
  split at h
  · obtain ⟨_, _, rfl⟩ := Option.map_eq_some_iff.1 h
    exact ⟨.inl rfl, fun _ _ other => nomatch other⟩
  · obtain ⟨_, _, rfl⟩ := Option.map_eq_some_iff.1 h
    exact ⟨.inl rfl, fun _ _ other => nomatch other⟩
  · obtain ⟨_, _, rfl⟩ := Option.map_eq_some_iff.1 h
    exact ⟨.inl rfl, fun _ _ other => nomatch other⟩
  · obtain ⟨parameters, target⟩ := bindMethod?_parts h
    exact ⟨.inr parameters, target⟩
  · next form _ =>
    obtain ⟨_, _, rfl⟩ := Option.map_eq_some_iff.1 h
    cases form with
    | indexer => exact ⟨.inr rfl, fun _ _ other => nomatch other⟩
    | property | event => exact ⟨.inl rfl, fun _ _ other => nomatch other⟩
  · obtain ⟨_, _, rfl⟩ := Option.map_eq_some_iff.1 h
    exact ⟨.inl rfl, fun _ _ other => nomatch other⟩
  · obtain ⟨_, _, found⟩ := Option.bind_eq_some_iff.1 h
    obtain ⟨_, _, same⟩ := Option.bind_eq_some_iff.1 found
    obtain rfl := Option.some.inj same
    exact ⟨.inl rfl, fun _ _ other => nomatch other⟩
  · cases h

theorem bind?_phrases (h : c.bind? source = some s) :
    ∀ text ∈ s.phrases, Node.PhraseOf source c.node.nodes text := by
  obtain ⟨parameters, conversion⟩ := bind?_parts h
  intro text member
  rcases List.mem_append.1 member with listed | target
  · obtain ⟨p, found, shown⟩ := List.mem_flatMap.1 listed
    have phrased : Node.Phrased source c.node.nodes p := by
      apply c.node.phrased_parameters source
      rcases parameters with none | some
      · rw [none] at found
        cases found
      · rwa [some] at found
    rcases List.mem_append.1 shown with type | value
    · exact phrased.type text (Option.mem_toList.1 type)
    · exact phrased.value text (Option.mem_toList.1 value)
  · split at target
    · next name => exact conversion _ _ (List.mem_singleton.1 target ▸ name)
    · cases target

end Syntax.Cursor

namespace Document
open Syntax Text

/-- The phrase of a node is that of its leaves with one space for each gap. Of the leaves it keeps all
that is no blank, and it shows them as they stand exactly if all blanks are single spaces between other
characters, as they are where the leaves have none. The phrase of a node is its text under the same
condition. Types and default values of parameters and targets of conversions are phrases. -/
theorem phrases_space_leaves (source : SourceText) :
    (∀ n : Node, n.LaidOut source →
      n.phrase source = collapse (Node.spaced source n.leaves) ∧
        Neat (n.phrase source) ∧
        (n.phrase source).filter (fun c => !isBlank c) =
          (n.leaves.flatMap (Node.text source)).filter (fun c => !isBlank c) ∧
        (n.phrase source = Node.spaced source n.leaves ↔ Neat (Node.spaced source n.leaves)) ∧
        ((∀ a ∈ n.leaves, a.text source ≠ [] ∧ ∀ c ∈ a.text source, ¬ isBlank c) →
          n.phrase source = Node.spaced source n.leaves) ∧
        (n.phrase source = n.text source ↔ Neat (n.text source))) ∧
      ∀ (c : Cursor) (symbol : Symbol), c.bind? source = some symbol →
        ∀ text ∈ symbol.phrases, ∃ n ∈ c.node.nodes, text = n.phrase source := by
  refine ⟨?_, fun c symbol bound => Cursor.bind?_phrases bound⟩
  intro n laid
  have phrase := Node.phrase_eq_collapse laid
  have exactly : n.phrase source = Node.spaced source n.leaves ↔ Neat (Node.spaced source n.leaves) := by
    rw [phrase]
    exact collapse_eq_self_iff
  refine ⟨phrase, neat_collapse _, ?_, exactly, ?_, collapse_eq_self_iff⟩
  · rw [phrase, filter_collapse, Node.filter_spaced]
  · intro plain
    exact exactly.2 (Node.neat_spaced plain).1

def quotedText (content : String) : Node :=
  let stop := 29 + content.length
  .named (.other "string_literal") none 28 (stop + 1)
    [.mark "\"" 28 29, .named (.other "string_literal_content") none 29 stop [],
     .mark "\"" stop (stop + 1)]

def defaultText (content : String) : Document :=
  let r := 30 + content.length
  { source := .ofString
      ("class C \x7b void M(string s = \"" ++ content ++ "\") \x7b \x7d \x7d")
    root := .named (.other "compilation_unit") none 0 (r + 7)
      [.named (.type .class) none 0 (r + 7)
        [.mark "class" 0 5, .named .identifier (some .name) 6 7 [],
         .named .memberList (some .body) 8 (r + 7)
          [.mark "\x7b" 8 9,
           .named (.method .method) none 10 (r + 5)
            [.named (.other "predefined_type") (some (.other "returns")) 10 14 [],
             .named .identifier (some .name) 15 16 [],
             .named .parameterList (some .parameters) 16 (r + 1)
              [.mark "(" 16 17,
               .named .parameter none 17 r
                [.named (.other "predefined_type") (some .type) 17 23 [],
                 .named .identifier (some .name) 24 25 [], .mark "=" 26 27, quotedText content],
               .mark ")" r (r + 1)],
             .named (.other "block") (some .body) (r + 2) (r + 5)
              [.mark "\x7b" (r + 2) (r + 3), .mark "\x7d" (r + 4) (r + 5)]],
           .mark "\x7d" (r + 6) (r + 7)]]] }

/-- Two blanks inside the quotes are shown as one. -/
theorem defaultText_blanks_lost :
    let d := defaultText "a  b"
    let n := quotedText "a  b"
    (n.LaidOut d.source ∧
        n.leaves.map (Node.text d.source) = ["\"".toList, "a  b".toList, "\"".toList] ∧
        n.phrase d.source ≠ Node.spaced d.source n.leaves) ∧
      (Element.listings 0 (d.outline .standard).elements).map (·.2.displayName) =
        ["C", "M(string s = \"a b\")"] := by
  decide +kernel

theorem defaultText_blank_kept :
    let d := defaultText "a b"
    let n := quotedText "a b"
    (n.LaidOut d.source ∧ Neat (Node.spaced d.source n.leaves)) ∧
      n.phrase d.source = Node.spaced d.source n.leaves ∧
      (Element.listings 0 (d.outline .standard).elements).map (·.2.displayName) =
        ["C", "M(string s = \"a b\")"] := by
  intro d n
  have laid : n.LaidOut d.source := by decide +kernel
  have neat : Neat (Node.spaced d.source n.leaves) := by decide +kernel
  have shown := ((phrases_space_leaves d.source).1 n laid).2.2.2.1
  refine ⟨⟨laid, neat⟩, shown.2 neat, ?_⟩
  decide +kernel

end Document
end CodeAtlas
