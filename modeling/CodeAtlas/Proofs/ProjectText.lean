import CodeAtlas.Project.File
import CodeAtlas.Proofs.MarkupText

/-!
What a project file says, read off its tree: `ProjectFile.ofTree` looks at the root and at all
elements below it, with no state. Reading the written tree gives the same. The state of the reading
is followed through the nodes of the tree: what a run of siblings adds to it depends only on whether
a switch has just been opened.
-/
namespace CodeAtlas
open Text

namespace Markup

structure Tree where
  before : List Comment
  name : FullName
  attributes : List Attribute
  children : List Content
  short : Bool
  after : List Comment

namespace Content

def isElement : Content → Bool
  | element .. => true
  | _ => false

def text? : Content → Option (List Char)
  | text chars => some chars
  | _ => none

def attributes : Content → List Attribute
  | element _ attributes _ _ => attributes
  | _ => []

def children : Content → List Content
  | element _ _ children _ => children
  | _ => []

def isNamed (wanted : String) : Content → Bool
  | element name _ _ _ => sameName name.base.chars wanted.toList
  | _ => false

def attribute? (wanted : String) (n : Content) : Option (List Char) :=
  (n.attributes.find? fun a => a.name.chars == wanted.toList).map Attribute.value

mutual

def elements : Content → List Content
  | element name attributes children short =>
    element name attributes children short :: elementsAll children
  | _ => []

def elementsAll : List Content → List Content
  | [] => []
  | n :: rest => elements n ++ elementsAll rest

end

def leadingTexts (nodes : List Content) : List (List Char) :=
  (nodes.takeWhile fun n => !n.isElement).filterMap text?

mutual

def uncommented : Content → Content
  | element name attributes children short =>
    element name attributes (uncommentedAll children) short
  | n => n

def uncommentedAll : List Content → List Content
  | [] => []
  | comment _ :: rest => uncommentedAll rest
  | n :: rest => uncommented n :: uncommentedAll rest

end

end Content

namespace Tree

def root (t : Tree) : Content := .element t.name t.attributes t.children t.short

def contents (t : Tree) : List Content :=
  t.before.map .comment ++ t.root :: t.after.map .comment

def render (t : Tree) : List Char := Content.renderAll t.contents

def apart (t : Tree) : Bool := t.root.apart

def uncommented (t : Tree) : Tree :=
  { t with before := [], children := Content.uncommentedAll t.children, after := [] }

end Tree

namespace Content

mutual

theorem elements_uncommented (n : Content) :
    n.uncommented.elements = n.elements.map uncommented := by
  match n with
  | text _ | comment _ => rfl
  | element name attributes children short =>
    rw [uncommented, elements, elementsAll_uncommented children, elements, List.map_cons,
      uncommented]

theorem elementsAll_uncommented (nodes : List Content) :
    elementsAll (uncommentedAll nodes) = (elementsAll nodes).map uncommented := by
  match nodes with
  | [] => rfl
  | comment _ :: rest =>
    exact elementsAll_uncommented rest
  | text _ :: rest =>
    rw [uncommentedAll, elementsAll, elementsAll, elements_uncommented, List.map_append,
      elementsAll_uncommented rest]
    intro c same
    cases same
  | element name attributes children short :: rest =>
    rw [uncommentedAll, elementsAll, elementsAll, elements_uncommented, List.map_append,
      elementsAll_uncommented rest]
    intro c same
    cases same

end

theorem leadingTexts_uncommented (nodes : List Content) :
    leadingTexts (uncommentedAll nodes) = leadingTexts nodes := by
  induction nodes with
  | nil => rfl
  | cons n rest ih =>
    cases n with
    | comment => exact ih
    | text chars => exact congrArg (chars :: ·) ih
    | element => rfl

theorem isNamed_uncommented (wanted : String) (n : Content) :
    n.uncommented.isNamed wanted = n.isNamed wanted := by
  cases n <;> rfl

theorem attribute?_uncommented (wanted : String) (n : Content) :
    n.uncommented.attribute? wanted = n.attribute? wanted := by
  cases n <;> rfl

end Content
end Markup

open Markup

namespace ProjectFile

def isSwitchNode (n : Content) : Bool :=
  n.isNamed "EnableDefaultCompileItems" || n.isNamed "EnableDefaultItems"

def switchesOff (n : Content) : Bool :=
  isSwitchNode n && (Content.leadingTexts n.children).any saysFalse

/-- What a tree says as a project file. -/
def ofTree (t : Tree) : ProjectFile :=
  { isSdk := t.root.isNamed "Project" && (t.root.attribute? "Sdk").isSome
    defaultsOff := t.root.elements.any switchesOff
    includes := (t.root.elements.filter (Content.isNamed "Compile")).filterMap
      (Content.attribute? "Include") }

theorem run_append (s : State) (first second : List Token) :
    run s (first ++ second) = (run s first).bind fun s => run s second := by
  induction first generalizing s with
  | nil => rfl
  | cons t first ih =>
    rw [List.cons_append, run, run]
    cases step s t with
    | error e => rfl
    | ok s => exact ih s

theorem run_singleton (s : State) (t : Token) : run s [t] = step s t := by
  rw [run]
  cases step s t <;> rfl

def itemsOf (elements : List Content) : List (List Char) :=
  (elements.filter (Content.isNamed "Compile")).filterMap (Content.attribute? "Include")

theorem itemsOf_append (first second : List Content) :
    itemsOf (first ++ second) = itemsOf first ++ itemsOf second := by
  rw [itemsOf, List.filter_append, List.filterMap_append]
  rfl

/-- A file with what nodes inside an element add to it; `inSwitch` says that the element is a switch
and none of its elements has been read. -/
def adding (file : ProjectFile) (inSwitch : Bool) (nodes : List Content) : ProjectFile :=
  { file with
    defaultsOff := file.defaultsOff || (inSwitch && (Content.leadingTexts nodes).any saysFalse) ||
      (Content.elementsAll nodes).any switchesOff
    includes := file.includes ++ itemsOf (Content.elementsAll nodes) }

theorem adding_cons (file : ProjectFile) (inSwitch : Bool) (n : Content) (rest : List Content) :
    file.adding inSwitch (n :: rest) =
      (file.adding inSwitch [n]).adding (inSwitch && !n.isElement) rest := by
  have leading : (Content.leadingTexts (n :: rest)).any saysFalse =
      ((Content.leadingTexts [n]).any saysFalse ||
        (!n.isElement && (Content.leadingTexts rest).any saysFalse)) := by
    cases n <;> simp [Content.leadingTexts, Content.isElement, Content.text?]
  simp only [adding, Content.elementsAll, List.append_nil, itemsOf_append, List.any_append,
    leading, List.append_assoc, ProjectFile.mk.injEq, true_and, and_true]
  cases inSwitch <;> cases n.isElement <;> simp [Bool.or_assoc, Bool.or_left_comm]

theorem itemsOf_singleton (n : Content) :
    itemsOf [n] = if n.isNamed "Compile" then (n.attribute? "Include").toList else [] := by
  unfold itemsOf
  rw [List.filter_cons, List.filter_nil]
  split
  · rw [List.filterMap_cons, List.filterMap_nil]
    cases n.attribute? "Include" <;> rfl
  · rfl

section Elements
variable (name : FullName) (attributes : List Attribute) (children : List Content) (short : Bool)

theorem isNamed_tagFor (wanted : String) :
    (tagFor name attributes).isNamed wanted =
      (Content.element name attributes children short).isNamed wanted := by
  rw [Tag.isNamed, tagFor, localName_chars]
  rfl

theorem not_compile_of_project {n : Content} (h : n.isNamed "Project") :
    n.isNamed "Compile" = false := by
  cases n with
  | text | comment => rfl
  | element name =>
    rw [Content.isNamed, sameName, beq_iff_eq] at h
    rw [Content.isNamed, sameName, h]
    decide

theorem visit_tagFor (file : ProjectFile) (atTop : Bool) :
    let n := Content.element name attributes children short
    visit file atTop (tagFor name attributes) =
      .ok { file with
        isSdk := if atTop && n.isNamed "Project" then (n.attribute? "Sdk").isSome else file.isSdk
        includes := file.includes ++ itemsOf [n] } := by
  intro n
  have sdk : (tagFor name attributes).attribute "Sdk" = .ok (n.attribute? "Sdk") :=
    attribute_tagFor name attributes "Sdk"
  have item : (tagFor name attributes).attribute "Include" = .ok (n.attribute? "Include") :=
    attribute_tagFor name attributes "Include"
  unfold visit
  rw [isNamed_tagFor name attributes children short "Project",
    isNamed_tagFor name attributes children short "Compile", itemsOf_singleton, sdk, item]
  change (if (atTop && n.isNamed "Project") = true then _ else if n.isNamed "Compile" = true then _
    else _) = _
  by_cases top : atTop && n.isNamed "Project"
  · have other := not_compile_of_project (Bool.and_eq_true_iff.1 top).2
    rw [if_pos top, if_pos top, other, if_neg Bool.false_ne_true, List.append_nil]
    rfl
  · rw [if_neg top, if_neg top]
    split
    · rfl
    · rw [List.append_nil]
      rfl

theorem isSwitch_tagFor :
    isSwitch (tagFor name attributes) =
      isSwitchNode (.element name attributes children short) := by
  unfold isSwitch isSwitchNode
  rw [isNamed_tagFor name attributes children short, isNamed_tagFor name attributes children short]

end Elements

theorem step_text (s : State) (chars : List Char) :
    run s (Content.tokens (.text chars)) =
      .ok { s with file.defaultsOff := s.file.defaultsOff || (s.inSwitch && saysFalse chars) } := by
  have blank : ∀ c, isSpace c → isBlank c := by
    intro c h
    unfold isSpace at h
    simp only [Bool.or_eq_true, beq_iff_eq] at h
    rcases h with ((rfl | rfl) | rfl) | rfl <;> decide
  have said : saysFalse (trimBy isSpace chars) = saysFalse chars := by
    unfold saysFalse
    rw [trim, trim, trimBy_trimBy blank]
  rw [Content.tokens, trimBy_escape]
  dsimp only
  split
  · next none =>
    have empty : trimBy isSpace chars = [] := by
      have read := unescape_escape (trimBy isSpace chars)
      rw [List.isEmpty_iff.1 none] at read
      exact (Except.ok.inj read).symm
    have silent : saysFalse chars = false := by
      rw [← said, empty]
      decide
    rw [silent, Bool.and_false, Bool.or_false]
    rfl
  · obtain ⟨⟨isSdk, defaultsOff, includes⟩, openNames, inSwitch⟩ := s
    rw [run_singleton, step, unescape_escape]
    cases inSwitch with
    | false => rw [Bool.false_and, Bool.or_false]; rfl
    | true => rw [Bool.true_and, ← said]; rfl

/-- The state after the nodes of a list have been read inside an open element. -/
def State.after (s : State) (nodes : List Content) : State :=
  { file := s.file.adding s.inSwitch nodes
    openNames := s.openNames
    inSwitch := s.inSwitch && !nodes.any Content.isElement }

theorem after_cons (s : State) (n : Content) (rest : List Content) :
    s.after (n :: rest) = (s.after [n]).after rest := by
  unfold State.after
  rw [adding_cons]
  simp [Bool.and_assoc]

section Elements
variable (name : FullName) (attributes : List Attribute) (children : List Content) (short : Bool)

theorem adding_nil (file : ProjectFile) (inSwitch : Bool) : file.adding inSwitch [] = file := by
  simp [adding, Content.elementsAll, Content.leadingTexts, itemsOf]

theorem adding_element (file : ProjectFile) (isSdk : Bool) :
    let n := Content.element name attributes children short
    { file with isSdk, includes := file.includes ++ itemsOf [n] : ProjectFile }.adding
        (isSwitchNode n) children = { file.adding false [n] with isSdk } := by
  intro n
  have below : Content.elementsAll [n] = [n] ++ Content.elementsAll children := by
    rw [Content.elementsAll, Content.elementsAll, Content.elements, List.append_nil]
    rfl
  have off : switchesOff n =
      (isSwitchNode n && (Content.leadingTexts children).any saysFalse) := rfl
  have items := itemsOf_append [n] (Content.elementsAll children)
  simp only [adding, below, items, List.any_append, List.any_cons, List.any_nil, off,
    Bool.false_and, Bool.or_false, Bool.or_assoc, List.append_assoc]

/-- Only at the top can an element be the one that names an SDK. -/
theorem run_element (s : State)
    (inner : ∀ s, s.openNames ≠ [] → run s (Content.tokensAll children) = .ok (s.after children)) :
    let n := Content.element name attributes children short
    let isSdk := if s.openNames.isEmpty && n.isNamed "Project" then (n.attribute? "Sdk").isSome
      else s.file.isSdk
    run s n.tokens = .ok ⟨{ s.file.adding false [n] with isSdk }, s.openNames, false⟩ := by
  intro n isSdk
  have whole := adding_element name attributes children short s.file isSdk
  have visited := visit_tagFor name attributes children short s.file s.openNames.isEmpty
  rw [Content.tokens, ← whole]
  split
  · next empty =>
    obtain rfl := List.isEmpty_iff.1 (Bool.and_eq_true_iff.1 empty).1
    rw [run_singleton, step, visited, adding_nil]
    rfl
  · have start : step s (.start (tagFor name attributes)) =
        .ok ⟨{ s.file with isSdk, includes := s.file.includes ++ itemsOf [n] },
          name.chars :: s.openNames, isSwitchNode n⟩ := by
      rw [step, visited, isSwitch_tagFor name attributes children short]
      rfl
    rw [run, start]
    change run _ (Content.tokensAll children ++ [.stop name.chars]) = _
    rw [run_append, inner _ (List.cons_ne_nil _ _)]
    change run _ [.stop name.chars] = _
    rw [run_singleton, State.after, step]
    dsimp only
    rw [if_pos rfl]

end Elements

mutual

theorem run_tokens (n : Content) (s : State) (inside : s.openNames ≠ []) :
    run s n.tokens = .ok (s.after [n]) := by
  match n with
  | .text chars =>
    rw [step_text]
    simp [State.after, adding, Content.leadingTexts, Content.elementsAll, Content.elements,
      Content.isElement, Content.text?, itemsOf]
  | .comment c =>
    simp [Content.tokens, run, State.after, adding, Content.leadingTexts, Content.elementsAll,
      Content.elements, Content.isElement, Content.text?, itemsOf]
  | .element name attributes children short =>
    have read := run_element name attributes children short s fun s => run_tokensAll children s
    have inner : s.openNames.isEmpty = false := List.isEmpty_eq_false_iff.2 inside
    rw [read]
    simp [inner, State.after, adding, Content.leadingTexts, Content.isElement]

theorem run_tokensAll (nodes : List Content) (s : State) (inside : s.openNames ≠ []) :
    run s (Content.tokensAll nodes) = .ok (s.after nodes) := by
  match nodes with
  | [] =>
    rw [Content.tokensAll, State.after, adding_nil]
    simp [run]
  | n :: rest =>
    rw [Content.tokensAll, run_append, run_tokens n s inside, after_cons s n rest]
    exact run_tokensAll rest (s.after [n]) inside

end

section Trees
variable {t : Tree}

theorem tokensAll_comments (comments : List Comment) (nodes : List Content) :
    Content.tokensAll (comments.map .comment ++ nodes) = Content.tokensAll nodes := by
  induction comments with
  | nil => rfl
  | cons c rest ih =>
    rw [List.map_cons, List.cons_append, Content.tokensAll, Content.tokens, List.nil_append, ih]

theorem apartAll_comments (comments : List Comment) (nodes : List Content) :
    Content.apartAll (comments.map .comment ++ nodes) = Content.apartAll nodes := by
  induction comments with
  | nil => rfl
  | cons c rest ih =>
    rw [List.map_cons, List.cons_append, Content.apartAll, ih]
    rfl

theorem ofFile_render (h : t.apart) : ofFile t.render = .ok t.root.tokens := by
  have apart : Content.apartAll t.contents := by
    have around := apartAll_comments t.after []
    rw [List.append_nil] at around
    have element : t.root.isText = false := rfl
    unfold Tree.apart at h
    rw [Tree.contents, apartAll_comments, Content.apartAll, around, h, element]
    rfl
  have found : Content.tokensAll t.contents = t.root.tokens := by
    have around := tokensAll_comments t.after []
    rw [List.append_nil] at around
    rw [Tree.contents, tokensAll_comments, Content.tokensAll, around, Content.tokensAll,
      List.append_nil]
  have read := Content.yields_renderAll t.contents [] apart (by intro c none; cases none)
  rw [Yields, List.append_nil, found, Markup.tokens] at read
  have first : Opens (Content.renderAll t.contents ++ []) := by
    apply Content.opens_renderAll
    · intro c none
      cases none
    · cases before : t.before <;> simp [Tree.contents, before, Tree.root, Content.isText]
  rw [List.append_nil] at first
  rw [Tree.render, ofFile]
  · rw [read]
    exact congrArg Except.ok (List.append_nil _)
  · intro rest mark
    rw [mark] at first
    exact absurd (first _ rfl) (by decide)

theorem parse_render (h : t.apart) : parse t.render = .ok (ofTree t) := by
  have read := run_element t.name t.attributes t.children t.short {}
    fun s => run_tokensAll t.children s
  have elements : Content.elementsAll [t.root] = t.root.elements := by
    rw [Content.elementsAll, Content.elementsAll, List.append_nil]
  unfold parse
  rw [ofFile_render h]
  change (do let s ← run {} t.root.tokens; pure s.file) = _
  rw [Tree.root, read]
  rw [Tree.root] at elements
  change Except.ok _ = _
  simp [ofTree, adding, elements, itemsOf, Tree.root]

theorem switchesOff_uncommented (n : Content) : switchesOff n.uncommented = switchesOff n := by
  have texts : Content.leadingTexts n.uncommented.children = Content.leadingTexts n.children := by
    cases n with
    | text | comment => rfl
    | element => exact Content.leadingTexts_uncommented _
  unfold switchesOff isSwitchNode
  rw [Content.isNamed_uncommented, Content.isNamed_uncommented, texts]

theorem ofTree_uncommented (t : Tree) : ofTree t.uncommented = ofTree t := by
  have root : t.uncommented.root = t.root.uncommented := rfl
  unfold ofTree
  rw [root, Content.isNamed_uncommented, Content.attribute?_uncommented,
    Content.elements_uncommented, List.any_map, List.filter_map, List.filterMap_map]
  simp only [Function.comp_def, switchesOff_uncommented, Content.isNamed_uncommented,
    Content.attribute?_uncommented]

/-- A project file is read as its tree says, in whichever form its elements are written, and its
comments say nothing. -/
theorem text_read_as_tree (t : Tree) (h : t.apart) :
    parse t.render = .ok (ofTree t) ∧
      ∀ other : Tree, other.apart → other.uncommented = t.uncommented →
        parse other.render = parse t.render := by
  refine ⟨parse_render h, ?_⟩
  intro other apart same
  rw [parse_render apart, parse_render h, ← ofTree_uncommented other, same, ofTree_uncommented]

/-- A project in a namespace, with a switch whose text stands between comments and an item whose
name needs a reference. -/
def commentedProject : Tree :=
  { before := [⟨" > ".toList, by decide⟩]
    name := ⟨some (.of "b"), .of "PROJECT"⟩
    attributes := [⟨⟨none, .of "Sdk"⟩, "A < B".toList⟩]
    children :=
      [.element ⟨none, .of "EnableDefaultItems"⟩ []
        [.comment ⟨"<x>".toList, by decide⟩, .text " False ".toList, .comment ⟨[], by decide⟩] true,
       .element ⟨none, .of "Compile"⟩
        [⟨⟨none, .of "Include"⟩, "A&B.cs".toList⟩] [] true]
    short := false
    after := [] }

theorem commentedProject_read :
    commentedProject.apart ∧
      parse commentedProject.render = .ok ⟨true, true, ["A&B.cs".toList]⟩ ∧
      parse commentedProject.uncommented.render = parse commentedProject.render := by
  have apart : commentedProject.apart := by decide
  have said : ofTree commentedProject = ⟨true, true, ["A&B.cs".toList]⟩ := by decide
  obtain ⟨read, alike⟩ := text_read_as_tree commentedProject apart
  exact ⟨apart, said ▸ read, alike commentedProject.uncommented (by decide) rfl⟩

end Trees
end ProjectFile
end CodeAtlas
