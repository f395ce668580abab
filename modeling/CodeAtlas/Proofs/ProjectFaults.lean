import CodeAtlas.Project.Basic
import CodeAtlas.Proofs.ProjectText
import Mathlib.Data.List.Induction

/-!
Which project files are rejected. A sequence of tokens nests when every start tag has its end tag;
reading asks for less, since elements may be left open at the end. Besides, reading fails only where
an attribute or a text that it looks at cannot be read. A rejected project has no documents, and that
is reported once.
-/
namespace CodeAtlas

namespace Markup
open Text

theorem tokens_broken {text rest : List Char} (last : '<' :: rest <:+ text) (unclosed : '>' ∉ rest) :
    (tokens text).isOk = false := by
  have mapped : ∀ (x : Except Error (List Token)) (f : List Token → List Token),
      (x.map f).isOk = x.isOk := by
    intro x f
    cases x <;> rfl
  induction text using tokens.induct with
  | case1 => simp at last
  | case2 body e failed =>
    rw [tokens]
    split
    · rfl
    · next marked =>
      rw [failed] at marked
      cases marked
  | case3 body token after marked ih =>
    rw [tokens]
    split
    · rfl
    · next token' after' again =>
      obtain ⟨rfl, rfl⟩ := Prod.mk.inj (Except.ok.inj (marked.symm.trans again))
      rw [mapped]
      apply ih
      -- the last `<` stands after the `>` of this mark
      have close : '>' :: after <:+ '<' :: body := (mark_ends marked).trans (List.suffix_cons '<' body)
      rcases List.suffix_or_suffix_of_suffix last close with within | before
      · rcases List.suffix_cons_iff.1 within with same | within
        · exact absurd (List.cons.inj same).1 (by decide)
        · exact within
      · have inside : '>' ∈ '<' :: rest := before.subset List.mem_cons_self
        rcases List.mem_cons.1 inside with same | inside
        · exact absurd same (by decide)
        · exact absurd inside unclosed
  | case4 c body other ih =>
    rw [tokens]
    · rw [mapped]
      apply ih
      rcases List.suffix_cons_iff.1 last with same | ⟨early, rfl⟩
      · exact absurd (List.cons.inj same).1.symm other
      · rw [List.dropWhile_append]
        split
        · exact List.suffix_rfl
        · exact List.suffix_append _ _
    · exact other

theorem ofFile_broken {text rest : List Char} (last : '<' :: rest <:+ text) (unclosed : '>' ∉ rest) :
    (ofFile text).isOk = false := by
  unfold ofFile
  split
  · next body =>
    rcases List.suffix_cons_iff.1 last with same | within
    · exact absurd (List.cons.inj same).1 (by decide)
    · exact tokens_broken within unclosed
  · exact tokens_broken last unclosed

inductive Nested : List Token → Prop where
  | nil : Nested []
  | text (content : List Char) {rest : List Token} : Nested rest → Nested (.text content :: rest)
  | empty (tag : Tag) {rest : List Token} : Nested rest → Nested (.empty tag :: rest)
  | element (tag : Tag) {inner rest : List Token} : Nested inner → Nested rest →
      Nested (.start tag :: (inner ++ .stop tag.name :: rest))

/-- Only end tags are missing, at the end. -/
def Completable (tokens : List Token) : Prop :=
  ∃ names : List (List Char), Nested (tokens ++ names.map .stop)

def openStep (names : List (List Char)) : Token → Option (List (List Char))
  | .start tag => some (tag.name :: names)
  | .stop name =>
    match names with
    | [] => none
    | top :: rest => if name = top then some rest else none
  | _ => some names

def openAfter (names : List (List Char)) : List Token → Option (List (List Char))
  | [] => some names
  | t :: rest => (openStep names t).bind fun names => openAfter names rest

theorem openAfter_append (names : List (List Char)) (first second : List Token) :
    openAfter names (first ++ second) =
      (openAfter names first).bind fun names => openAfter names second := by
  induction first generalizing names with
  | nil => rfl
  | cons t first ih =>
    rw [List.cons_append, openAfter, openAfter]
    cases openStep names t with
    | none => rfl
    | some names => exact ih names

theorem openAfter_concat (names : List (List Char)) (tokens : List Token) (t : Token) :
    openAfter names (tokens ++ [t]) = (openAfter names tokens).bind fun names => openStep names t := by
  rw [openAfter_append]
  congr 1
  funext names
  rw [openAfter]
  cases openStep names t <;> rfl

theorem openAfter_stops (names : List (List Char)) :
    openAfter names (names.map .stop) = some [] := by
  induction names with
  | nil => rfl
  | cons name names ih =>
    rw [List.map_cons, openAfter, openStep, if_pos rfl]
    exact ih

theorem Nested.openAfter_eq {tokens : List Token} (h : Nested tokens) (names : List (List Char)) :
    openAfter names tokens = some names := by
  induction h generalizing names with
  | nil => rfl
  | text content _ ih => exact ih names
  | empty tag _ ih => exact ih names
  | element tag _ _ inner rest =>
    rw [openAfter, openStep, Option.bind_some, openAfter_append, inner, Option.bind_some, openAfter,
      openStep, if_pos rfl]
    exact rest names

/-- The tokens nest but for the end tags of the given elements. -/
def Closes : List (List Char) → List Token → Prop
  | [], tokens => Nested tokens
  | name :: names, tokens =>
    ∃ inner rest, tokens = inner ++ .stop name :: rest ∧ Nested inner ∧ Closes names rest

theorem Closes.append {names : List (List Char)} {tokens : List Token} (h : Closes names tokens)
    (front : List Token)
    (before : ∀ {rest}, Nested rest → Nested (front ++ rest)) : Closes names (front ++ tokens) := by
  cases names with
  | nil => exact before h
  | cons name names =>
    obtain ⟨inner, rest, rfl, nested, others⟩ := h
    exact ⟨front ++ inner, rest, (List.append_assoc _ _ _).symm, before nested, others⟩

theorem closes_of_openAfter {tokens : List Token} {names : List (List Char)}
    (h : openAfter names tokens = some []) : Closes names tokens := by
  induction tokens generalizing names with
  | nil =>
    obtain rfl := Option.some.inj h
    exact .nil
  | cons t tokens ih =>
    cases t with
    | text content => exact (ih h).append [.text content] fun nested => .text _ nested
    | empty tag => exact (ih h).append [.empty tag] fun nested => .empty _ nested
    | start tag =>
      have closed : Closes (tag.name :: names) tokens := ih h
      obtain ⟨inner, rest, rfl, nested, others⟩ := closed
      have whole := others.append (.start tag :: (inner ++ [.stop tag.name])) (by
        intro rest after
        rw [List.cons_append, List.append_assoc]
        exact .element tag nested after)
      rwa [List.cons_append, List.append_assoc] at whole
    | stop name =>
      cases names with
      | nil => cases h
      | cons top names =>
        rw [openAfter, openStep] at h
        split at h
        · next same =>
          subst same
          exact ⟨[], tokens, rfl, .nil, ih h⟩
        · cases h

theorem nested_iff {tokens : List Token} : Nested tokens ↔ openAfter [] tokens = some [] := by
  constructor
  · intro h
    exact h.openAfter_eq []
  · intro h
    exact closes_of_openAfter h

theorem completable_iff {tokens : List Token} :
    Completable tokens ↔ (openAfter [] tokens).isSome := by
  constructor
  · rintro ⟨names, nested⟩
    have whole := nested_iff.1 nested
    rw [openAfter_append] at whole
    obtain ⟨left, found, _⟩ := Option.bind_eq_some_iff.1 whole
    exact Option.isSome_iff_exists.2 ⟨left, found⟩
  · intro h
    obtain ⟨names, found⟩ := Option.isSome_iff_exists.1 h
    refine ⟨names, nested_iff.2 ?_⟩
    rw [openAfter_append, found, Option.bind_some, openAfter_stops]

end Markup

open Markup

namespace ProjectFile

def isTextToken : Token → Bool
  | .text _ => true
  | _ => false

/-- The tokens end at the start of a switch, with nothing but texts after it. -/
def OpensSwitch (tokens : List Token) : Prop :=
  ∃ front tag texts, tokens = front ++ .start tag :: texts ∧ isSwitch tag ∧ texts.all isTextToken

def TagReadable (before : List Token) (tag : Tag) : Prop :=
  (Nested before → tag.isNamed "Project" → (tag.attribute "Sdk").isOk) ∧
    (tag.isNamed "Compile" → (tag.attribute "Include").isOk)

/-- What is looked at in a token can be read when it stands after the given ones. -/
def Readable (before : List Token) : Token → Prop
  | .start tag => TagReadable before tag
  | .empty tag => TagReadable before tag
  | .text content => OpensSwitch before → (Markup.unescape content).isOk
  | .stop _ => True

def AllReadable (tokens : List Token) : Prop :=
  ∀ before t after, tokens = before ++ t :: after → Readable before t

theorem allReadable_concat (tokens : List Token) (t : Token) :
    AllReadable (tokens ++ [t]) ↔ AllReadable tokens ∧ Readable tokens t := by
  constructor
  · intro h
    constructor
    · intro before u after split
      exact h before u (after ++ [t]) (by rw [split, List.append_assoc, List.cons_append])
    · exact h tokens t [] rfl
  · rintro ⟨early, last⟩ before u after split
    rcases List.eq_nil_or_concat after with rfl | ⟨front, v, rfl⟩
    · obtain ⟨rfl, same⟩ := List.append_inj' split rfl
      obtain rfl := (List.cons.inj same).1
      exact last
    · rw [List.concat_eq_append, ← List.cons_append, ← List.append_assoc] at split
      exact early before u front (List.append_inj' split rfl).1

theorem opensSwitch_concat (tokens : List Token) (t : Token) :
    OpensSwitch (tokens ++ [t]) ↔
      match t with
      | .text _ => OpensSwitch tokens
      | .start tag => isSwitch tag
      | _ => False := by
  have split : OpensSwitch (tokens ++ [t]) ↔
      (∃ tag, t = .start tag ∧ isSwitch tag) ∨ isTextToken t ∧ OpensSwitch tokens := by
    constructor
    · rintro ⟨front, tag, texts, same, switch, all⟩
      rcases List.eq_nil_or_concat texts with rfl | ⟨early, last, rfl⟩
      · exact .inl ⟨tag, (List.cons.inj (List.append_inj' same rfl).2).1, switch⟩
      · rw [List.concat_eq_append] at same all
        rw [← List.cons_append, ← List.append_assoc] at same
        obtain ⟨before, alike⟩ := List.append_inj' same rfl
        obtain rfl := (List.cons.inj alike).1
        rw [List.all_append, Bool.and_eq_true, List.all_cons, Bool.and_eq_true] at all
        exact .inr ⟨all.2.1, front, tag, early, before, switch, all.1⟩
    · rintro (⟨tag, rfl, switch⟩ | ⟨text, front, tag, texts, rfl, switch, all⟩)
      · exact ⟨tokens, tag, [], rfl, switch, rfl⟩
      · refine ⟨front, tag, texts ++ [t], ?_, switch, ?_⟩
        · rw [List.append_assoc, List.cons_append]
        · rw [List.all_append, all, List.all_cons, text]
          rfl
  rw [split]
  cases t <;> simp [isTextToken]

section Reading
variable {s s' : State} {t : Token} {before tokens : List Token}

theorem visit_isOk (file : ProjectFile) (atTop : Bool) (tag : Tag) :
    (visit file atTop tag).isOk ↔
      (atTop → tag.isNamed "Project" → (tag.attribute "Sdk").isOk) ∧
        (tag.isNamed "Compile" → (tag.attribute "Include").isOk) := by
  have exclusive : tag.isNamed "Project" → tag.isNamed "Compile" = false := by
    intro project
    rw [Tag.isNamed, Text.sameName, beq_iff_eq] at project
    rw [Tag.isNamed, Text.sameName, project]
    decide
  have bound : ∀ {α : Type} (x : Except Markup.Error α) (f : α → ProjectFile),
      (x >>= fun a => pure (f a)).isOk = x.isOk := by
    intro α x f
    cases x <;> rfl
  unfold visit
  by_cases top : atTop && tag.isNamed "Project"
  · obtain ⟨first, project⟩ := Bool.and_eq_true_iff.1 top
    rw [if_pos top, bound]
    simp [first, project, exclusive project]
  · rw [if_neg top]
    have other : ¬ (atTop = true ∧ tag.isNamed "Project" = true) := by
      rwa [Bool.and_eq_true_iff] at top
    by_cases compile : tag.isNamed "Compile"
    · rw [if_pos compile, bound]
      constructor
      · intro read
        exact ⟨fun first project => absurd ⟨first, project⟩ other, fun _ => read⟩
      · intro h
        exact h.2 compile
    · rw [if_neg compile]
      constructor
      · intro _
        exact ⟨fun first project => absurd ⟨first, project⟩ other, fun c => absurd c compile⟩
      · intro _
        rfl

theorem step_ok (h : step s t = .ok s') :
    openStep s.openNames t = some s'.openNames ∧
      s'.inSwitch =
        match t with
        | .text _ => s.inSwitch
        | .start tag => isSwitch tag
        | _ => false := by
  cases t with
  | text content =>
    rw [step] at h
    split at h
    · next inside =>
      cases read : Markup.unescape content with
      | error e => rw [read] at h; cases h
      | ok text =>
        rw [read] at h
        obtain rfl := Except.ok.inj h
        exact ⟨rfl, rfl⟩
    · obtain rfl := Except.ok.inj h
      exact ⟨rfl, rfl⟩
  | start tag | empty tag =>
    rw [step] at h
    cases visited : visit s.file s.openNames.isEmpty tag with
    | error e => rw [visited] at h; cases h
    | ok file =>
      rw [visited] at h
      obtain rfl := Except.ok.inj h
      exact ⟨rfl, rfl⟩
  | stop name =>
    rw [step] at h
    split at h
    · cases h
    · next top rest opened =>
      split at h
      · next same =>
        obtain rfl := Except.ok.inj h
        refine ⟨?_, rfl⟩
        rw [opened, openStep, if_pos same]
      · cases h

theorem openAfter_of_run (h : run s tokens = .ok s') :
    openAfter s.openNames tokens = some s'.openNames := by
  induction tokens generalizing s with
  | nil =>
    obtain rfl := Except.ok.inj h
    rfl
  | cons t tokens ih =>
    rw [run] at h
    cases stepped : step s t with
    | error e => rw [stepped] at h; cases h
    | ok next =>
      rw [stepped] at h
      rw [openAfter, (step_ok stepped).1]
      exact ih h

theorem run_concat (s : State) (tokens : List Token) (t : Token) :
    run s (tokens ++ [t]) = (run s tokens).bind fun s => step s t := by
  rw [run_append]
  simp only [run_singleton]

theorem inSwitch_of_run (h : run {} tokens = .ok s) : s.inSwitch ↔ OpensSwitch tokens := by
  induction tokens using List.reverseRecOn generalizing s with
  | nil =>
    obtain rfl := Except.ok.inj h
    constructor
    · intro inside
      cases inside
    · rintro ⟨front, tag, texts, none, _⟩
      simp at none
  | append_singleton tokens t ih =>
    rw [run_concat] at h
    cases early : run {} tokens with
    | error e => rw [early] at h; cases h
    | ok before =>
      rw [early] at h
      rw [(step_ok h).2, opensSwitch_concat]
      cases t with
      | text => exact ih early
      | start => exact Iff.rfl
      | empty | stop => exact iff_of_false Bool.false_ne_true id

/-- A token can be taken when it closes no other element than the innermost and what is looked at
in it can be read. -/
theorem step_isOk_iff (opened : openAfter [] before = some s.openNames)
    (switch : s.inSwitch ↔ OpensSwitch before) :
    (step s t).isOk ↔ (openStep s.openNames t).isSome ∧ Readable before t := by
  have top : s.openNames.isEmpty ↔ Nested before := by
    rw [nested_iff, opened, List.isEmpty_iff, Option.some.injEq]
  cases t with
  | text content =>
    change (step s (.text content)).isOk ↔ true = true ∧ (OpensSwitch before → _)
    rw [step, ← switch]
    cases s.inSwitch with
    | false => simp; rfl
    | true => cases Markup.unescape content <;> simp <;> rfl
  | start tag | empty tag =>
    have visited := visit_isOk s.file s.openNames.isEmpty tag
    rw [top] at visited
    change _ ↔ true = true ∧ TagReadable before tag
    rw [step, TagReadable, ← visited]
    cases visit s.file s.openNames.isEmpty tag <;> simp <;> rfl
  | stop name =>
    change _ ↔ (openStep s.openNames (.stop name)).isSome ∧ True
    rw [step]
    unfold openStep
    cases s.openNames with
    | nil => simp [Except.isOk, Except.toBool]
    | cons first rest =>
      dsimp only
      split <;> simp [Except.isOk, Except.toBool]

theorem run_isOk_iff (tokens : List Token) :
    (run {} tokens).isOk ↔ (openAfter [] tokens).isSome ∧ AllReadable tokens := by
  induction tokens using List.reverseRecOn with
  | nil =>
    refine iff_of_true rfl ⟨rfl, ?_⟩
    intro before t after none
    simp at none
  | append_singleton tokens t ih =>
    rw [run_concat, allReadable_concat, openAfter_concat]
    cases early : run {} tokens with
    | error e =>
      rw [early] at ih
      refine iff_of_false Bool.false_ne_true ?_
      rintro ⟨opened, read, _⟩
      have before : (openAfter [] tokens).isSome := Option.isSome_of_isSome_bind opened
      exact Bool.false_ne_true (ih.2 ⟨before, read⟩)
    | ok s =>
      rw [early] at ih
      have opened := openAfter_of_run early
      have read : AllReadable tokens := (ih.1 rfl).2
      have last := step_isOk_iff (t := t) opened (inSwitch_of_run early)
      rw [opened, Option.bind_some]
      constructor
      · intro taken
        obtain ⟨stepped, readable⟩ := last.1 taken
        exact ⟨stepped, read, readable⟩
      · rintro ⟨stepped, _, readable⟩
        exact last.2 ⟨stepped, readable⟩

/-- A project file is rejected exactly when it has no tokens, an end tag does not close the innermost
open element, or something that is looked at cannot be read. -/
theorem parse_fails_iff (text : List Char) :
    (∃ e, parse text = .error e) ↔
      ∀ tokens, Markup.ofFile text = .ok tokens → ¬ (Completable tokens ∧ AllReadable tokens) := by
  unfold parse
  cases Markup.ofFile text with
  | error e =>
    constructor
    · intro _ tokens none
      cases none
    · intro _
      exact ⟨e, rfl⟩
  | ok tokens =>
    have whole : (run {} tokens).isOk ↔ Completable tokens ∧ AllReadable tokens := by
      rw [run_isOk_iff, completable_iff]
    cases ran : run {} tokens with
    | error e =>
      rw [ran] at whole
      constructor
      · intro _ tokens' same read
        obtain rfl := Except.ok.inj same
        exact Bool.false_ne_true (whole.2 read)
      · intro _
        refine ⟨e, ?_⟩
        change (do let s ← run {} tokens; pure s.file) = _
        rw [ran]
        rfl
    | ok s =>
      rw [ran] at whole
      constructor
      · rintro ⟨e, failed⟩
        change (do let s ← run {} tokens; pure s.file) = _ at failed
        rw [ran] at failed
        cases failed
      · intro never
        exact absurd (whole.1 rfl) (never tokens rfl)

end Reading
end ProjectFile

namespace Project
open Text

def warnings (events : List Event) : List Event :=
  events.filter fun e => e.level == .warn

/-- Which project files are rejected, and what is left of their projects. -/
theorem faults_leave_no_documents (text : List Char) :
    ((∃ e, ProjectFile.parse text = .error e) ↔
      ∀ tokens, Markup.ofFile text = .ok tokens →
        ¬ (Completable tokens ∧ ProjectFile.AllReadable tokens)) ∧
    (∀ rest, '<' :: rest <:+ text → '>' ∉ rest → ∃ e, ProjectFile.parse text = .error e) ∧
    ∀ fs name path, fs.readText path = .ok text → (∃ e, ProjectFile.parse text = .error e) →
      (load fs name path).value.documents = [] ∧
        warnings (load fs name path).events = [.projectFailed path .markup] := by
  refine ⟨ProjectFile.parse_fails_iff text, ?_, ?_⟩
  · intro rest last unclosed
    rw [ProjectFile.parse_fails_iff]
    intro tokens found
    have broken := ofFile_broken last unclosed
    rw [found] at broken
    cases broken
  · rintro fs name path read ⟨e, failed⟩
    have none : documentsAt fs path = ⟨[], [.projectFailed path .markup]⟩ := by
      unfold documentsAt
      rw [read]
      dsimp only
      rw [failed]
    unfold load
    rw [none]
    exact ⟨rfl, rfl⟩

def besideSource (text : String) : FileSystem :=
  { root := .directory [(Utf8.ofString "w", .directory
      [(Utf8.ofString "App.csproj", .file (Utf8.ofString text)),
       (Utf8.ofString "A.cs", .file [])])] }

theorem crossedTags_no_documents :
    let text := "<Project Sdk=\"x\"><ItemGroup></Project></ItemGroup>"
    let project := load (besideSource text) "App" (.ofString "/w/App.csproj")
    (∃ e, ProjectFile.parse text.toList = .error e) ∧ project.value.documents = [] ∧
      warnings project.events = [.projectFailed (.ofString "/w/App.csproj") .markup] := by
  intro text project
  have read : (besideSource text).readText (.ofString "/w/App.csproj") = .ok text.toList := by
    decide +kernel
  obtain ⟨rejected, _, left⟩ := faults_leave_no_documents text.toList
  have failed : ∃ e, ProjectFile.parse text.toList = .error e := by
    rw [rejected]
    rintro tokens found ⟨completable, _⟩
    have crossed : (Markup.ofFile text.toList).toOption.bind (openAfter []) = none := by
      decide +kernel
    rw [found] at crossed
    rw [completable_iff, show openAfter [] tokens = none from crossed] at completable
    cases completable
  exact ⟨failed, left _ _ _ read failed⟩

/-- Elements left open at the end are not missed. -/
theorem leftOpen_documents_kept :
    let text := "<Project Sdk=\"x\"><ItemGroup>"
    let project := load (besideSource text) "App" (.ofString "/w/App.csproj")
    (∃ tokens, Markup.ofFile text.toList = .ok tokens ∧ ¬ Nested tokens) ∧
      (ProjectFile.parse text.toList).isOk ∧ project.value.documents = [.ofString "/w/A.cs"] ∧
      warnings project.events = [] := by
  intro text project
  have found : Markup.ofFile text.toList = .ok
      [.start ⟨"Project".toList, " Sdk=\"x\"".toList⟩, .start ⟨"ItemGroup".toList, []⟩] := by
    decide +kernel
  refine ⟨⟨_, found, ?_⟩, ?_, ?_, ?_⟩
  · rw [nested_iff]
    decide
  · decide +kernel
  · decide +kernel
  · decide +kernel

end Project
end CodeAtlas
