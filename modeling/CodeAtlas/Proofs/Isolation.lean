import CodeAtlas.Proofs.SourceFiles
import Mathlib.Data.List.Forall2

/-!
Projects do not see each other's files. Two file systems agree off a project file if only that file
differs, or is there in one of them only. Every path that leads elsewhere in one of them leads to
the same names and contents in the other, so a description that both have lists the same projects,
and of their documents only those of the project file itself can differ.
-/
namespace CodeAtlas
open Text Path

namespace Entry
variable {e e' : Entry} {names hole : List Bytes} {content : Bytes}

def content? : Entry → Option Bytes
  | .file content => some content
  | .directory _ => none

/-- What is under the given names, if anything: the content of a file, or nothing more for a
directory. -/
def at? (names : List Bytes) (e : Entry) : Option (Option Bytes) := (e.descend? names).map content?

theorem at?_eq_file :
    e.at? names = some (some content) ↔ e.descend? names = some (.file content) := by
  rw [at?, Option.map_eq_some_iff]
  constructor
  · rintro ⟨found, led, held⟩
    cases found with
    | file other => rw [led, Option.some.inj held]
    | directory entries => cases held
  · intro led
    exact ⟨_, led, rfl⟩

theorem at?_eq_directory :
    e.at? names = some none ↔ ∃ entries, e.descend? names = some (.directory entries) := by
  rw [at?, Option.map_eq_some_iff]
  constructor
  · rintro ⟨found, led, held⟩
    cases found with
    | file other => cases held
    | directory entries => exact ⟨entries, led⟩
  · rintro ⟨entries, led⟩
    exact ⟨_, led, rfl⟩

/-- Both have the same, apart from what is under the given names. -/
def AgreeOff (hole : List Bytes) (e e' : Entry) : Prop :=
  ∀ names, names ≠ hole → e.at? names = e'.at? names

section Changes
variable {name : Bytes} {rest : List (Bytes × Entry)}

theorem AgreeOff.inside (h : AgreeOff hole e e') :
    AgreeOff (name :: hole) (.directory ((name, e) :: rest)) (.directory ((name, e') :: rest)) := by
  intro names off
  cases names with
  | nil => rfl
  | cons n names =>
    rw [at?, at?, descend?, descend?, List.lookup_cons, List.lookup_cons]
    by_cases same : n = name
    · rw [same, beq_self_eq_true]
      apply h
      rintro rfl
      exact off (by rw [same])
    · rw [beq_eq_false_iff_ne.2 same]

theorem AgreeOff.added (free : rest.lookup name = none) (content : Bytes) :
    AgreeOff [name] (.directory ((name, .file content) :: rest)) (.directory rest) := by
  intro names off
  cases names with
  | nil => rfl
  | cons n names =>
    rw [at?, at?, descend?, descend?, List.lookup_cons]
    by_cases same : n = name
    · rw [same, free, beq_self_eq_true]
      cases names with
      | nil => exact absurd (by rw [same]) off
      | cons m names => rfl
    · rw [beq_eq_false_iff_ne.2 same]

end Changes
end Entry

namespace FileSystem
open Entry (at? at?_eq_file at?_eq_directory)

/-- Only the file under the given names differs, and it is a project file. -/
structure AgreeOff (hole : List Bytes) (fs fs' : FileSystem) : Prop where
  project : ∃ stem extension, hole.getLast? = some (stem ++ dot :: extension) ∧
    dot ∉ extension ∧ sameBytes extension (Utf8.ofString "csproj")
  workingDirectory : fs.workingDirectory = fs'.workingDirectory
  elsewhere : fs.root.AgreeOff hole fs'.root
  first : fs.root.at? hole ≠ some none
  second : fs'.root.at? hole ≠ some none

namespace AgreeOff
variable {hole : List Bytes} {fs fs' : FileSystem} {p : Path} {l l' : Located}

theorem symm (agree : AgreeOff hole fs fs') : AgreeOff hole fs' fs where
  project := agree.project
  workingDirectory := agree.workingDirectory.symm
  elsewhere := fun names off => (agree.elsewhere names off).symm
  first := agree.second
  second := agree.first

theorem word_eq (agree : AgreeOff hole fs fs') {stem extension : Bytes} {word : String}
    (last : hole.getLast? = some (stem ++ dot :: extension)) (free : dot ∉ extension)
    (same : sameBytes extension (Utf8.ofString word)) :
    sameBytes (Utf8.ofString "csproj") (Utf8.ofString word) := by
  obtain ⟨stem', extension', last', free', same'⟩ := agree.project
  have cut := cutLast?_eq_some_iff.2 ⟨free, Option.some.inj (last'.symm.trans last)⟩
  rw [cutLast?_eq_some_iff.2 ⟨free', rfl⟩] at cut
  obtain ⟨rfl, rfl⟩ := Prod.mk.inj (Option.some.inj cut)
  unfold sameBytes at same same' ⊢
  rw [beq_iff_eq] at same same' ⊢
  exact same'.symm.trans same

section Following
variable {trail trail' : List (Bytes × Entry)} {segments : List Bytes}

theorem passed (agree : AgreeOff hole fs fs') (on : OnTrail fs.root trail)
    (h : follow fs.root trail segments = .ok l) (off : l.names ≠ hole) :
    (trail.map Prod.fst).reverse ≠ hole := by
  cases segments with
  | nil =>
    rw [← Except.ok.inj h] at off
    exact off
  | cons segment rest =>
    obtain ⟨entries, here, _⟩ := follow_cons h
    intro same
    apply agree.first
    rw [← same, at?_eq_directory]
    exact ⟨entries, by rw [on.descend?, here]⟩

theorem follow_agree (agree : AgreeOff hole fs fs') (on : OnTrail fs.root trail)
    (on' : OnTrail fs'.root trail') (same : trail.map Prod.fst = trail'.map Prod.fst)
    (h : follow fs.root trail segments = .ok l) (off : l.names ≠ hole) :
    ∃ l', follow fs'.root trail' segments = .ok l' ∧ l'.names = l.names := by
  induction segments generalizing trail trail' with
  | nil =>
    rw [← Except.ok.inj h]
    exact ⟨_, rfl, by simp [Located.names, same]⟩
  | cons segment rest ih =>
    obtain ⟨entries, here, step⟩ := follow_cons h
    have both := agree.elsewhere _ (agree.passed on h off)
    obtain ⟨entries', there⟩ : ∃ entries', entryAt fs'.root trail' = .directory entries' := by
      rw [at?_eq_directory.2 ⟨entries, by rw [on.descend?, here]⟩, same] at both
      obtain ⟨entries', led⟩ := at?_eq_directory.1 both.symm
      exact ⟨entries', Option.some.inj (on'.descend?.symm.trans led)⟩
    rw [follow, there]
    dsimp only
    rcases step with ⟨filler, later⟩ | ⟨up, later⟩ | ⟨filled, below, short, e, entered, later⟩
    · rw [if_pos filler]
      exact ih on on' same later
    · rw [if_neg (by rw [up]; decide), if_pos up]
      exact ih on.drop on'.drop (by simp [same]) later
    · have longer : OnTrail fs.root ((segment, e) :: trail) := ⟨⟨entries, here, entered⟩, on⟩
      have next := agree.elsewhere _ (agree.passed longer later off)
      obtain ⟨e', entered'⟩ : ∃ e', entries'.lookup segment = some e' := by
        rw [at?, longer.descend?, Option.map_some, List.map_cons, List.reverse_cons, same] at next
        obtain ⟨e', led, _⟩ := Option.map_eq_some_iff.1 next.symm
        rw [Entry.descend?_append, on'.descend?, there, Option.bind_some, Entry.descend?] at led
        obtain ⟨inner, found, _⟩ := Option.bind_eq_some_iff.1 led
        exact ⟨inner, found⟩
      rw [if_neg (by simp [filled]), if_neg below, if_neg (by omega), entered']
      exact ih longer ⟨⟨entries', there, entered'⟩, on'⟩ (by simp [same]) later

end Following

theorem locate_agree (agree : AgreeOff hole fs fs') (h : fs.locate p = .ok l)
    (off : l.names ≠ hole) : ∃ l', fs'.locate p = .ok l' ∧ l'.names = l.names ∧
      l'.entry.content? = l.entry.content? := by
  obtain ⟨accepted, followed⟩ := locate_eq_ok_iff.1 h
  have start : OnTrail fs.root [] := trivial
  have start' : OnTrail fs'.root [] := trivial
  obtain ⟨l', followed', names⟩ := agree.follow_agree start start' rfl followed off
  have route : fs'.route p = fs.route p := by
    unfold FileSystem.route
    rw [agree.workingDirectory]
  have h' : fs'.locate p = .ok l' := locate_eq_ok_iff.2 ⟨accepted, by rwa [route]⟩
  refine ⟨l', h', names, ?_⟩
  have same := agree.elsewhere l.names off
  rw [at?, at?, descend?_names h, ← names, descend?_names h'] at same
  exact (Option.some.inj same).symm

theorem names_agree (agree : AgreeOff hole fs fs') (h : fs.locate p = .ok l)
    (h' : fs'.locate p = .ok l') : l.names = l'.names := by
  by_cases off : l.names = hole
  · by_cases off' : l'.names = hole
    · rw [off, off']
    · obtain ⟨m, found, names, _⟩ := agree.symm.locate_agree h' off'
      rw [h] at found
      rw [Except.ok.inj found, names]
  · obtain ⟨m, found, names, _⟩ := agree.locate_agree h off
    rw [h'] at found
    rw [Except.ok.inj found, names]

theorem hasExtension_eq_false (agree : AgreeOff hole fs fs') (named : ∀ n ∈ hole, IsName n)
    {word : String} (other : sameBytes (Utf8.ofString "csproj") (Utf8.ofString word) = false) :
    (ofNames true hole).hasExtension word = false := by
  rw [Bool.eq_false_iff]
  intro same
  obtain ⟨stem, extension, last, _, free, same⟩ := hasExtension_iff.1 same
  rw [fileName?_ofNames named] at last
  rw [agree.word_eq last free same] at other
  cases other

theorem readText_agree (agree : AgreeOff hole fs fs') {names : List Bytes}
    (named : ∀ n ∈ names, IsName n) (off : names ≠ hole) {text : List Char}
    (read : fs.readText (ofNames true names) = .ok text) :
    fs'.readText (ofNames true names) = .ok text := by
  obtain ⟨trail, content, located, decoded⟩ := readText_eq_ok_iff.1 read
  rw [← names_locate named located] at off
  obtain ⟨⟨trail', e⟩, located', _, held⟩ := agree.locate_agree located off
  cases e with
  | directory entries => cases held
  | file other =>
    rw [Option.some.inj held] at located'
    exact readText_eq_ok_iff.2 ⟨trail', content, located', decoded⟩

end AgreeOff

/-- Every directory has its entries under names, each once. -/
structure Regular (fs : FileSystem) : Prop where
  named : fs.root.wellNamed
  distinct : fs.root.distinct

end FileSystem

open FileSystem
open Entry (at?_eq_file at?_eq_directory)

variable {hole : List Bytes} {fs fs' : FileSystem}

namespace Sources

theorem find_subset (agree : AgreeOff hole fs fs') (regular : Regular fs) (regular' : Regular fs')
    {front : List Bytes} (named : ∀ n ∈ front, IsName n) {p : Path}
    (found : p ∈ (find fs (ofNames true front)).value) :
    p ∈ (find fs' (ofNames true front)).value := by
  cases located : fs.locate (ofNames true front) with
  | error e =>
    rw [find, located] at found
    cases found
  | ok l =>
    have names := names_locate named located
    obtain ⟨trail, entry⟩ := l
    cases entry with
    | file content =>
      have off : front ≠ hole := by
        rintro rfl
        rw [find_file located] at found
        obtain ⟨single, source⟩ := List.mem_filter.1 (mem_sorted found)
        rw [List.mem_singleton.1 single, isSource,
          agree.hasExtension_eq_false named (by decide)] at source
        cases source
      obtain ⟨⟨trail', e⟩, located', _, held⟩ := agree.locate_agree located (names ▸ off)
      cases e with
      | directory entries => cases held
      | file other =>
        rw [find_file located] at found
        rwa [find_file located']
    | directory entries =>
      have led := descend?_names located
      rw [names] at led
      have off : front ≠ hole := by
        rintro rfl
        exact agree.first (at?_eq_directory.2 ⟨entries, led⟩)
      obtain ⟨⟨trail', e⟩, located', names', held⟩ := agree.locate_agree located (names ▸ off)
      cases e with
      | file other => cases held
      | directory entries' =>
        have led' := descend?_names located'
        rw [names', names] at led'
        rw [mem_find_iff regular.named regular.distinct located] at found
        rw [mem_find_iff regular'.named regular'.distinct located']
        obtain ⟨inner, rfl, lists⟩ := found
        refine ⟨inner, rfl, ?_, lists.shown, lists.source, lists.notBuilt⟩
        obtain ⟨content, file⟩ := lists.file
        -- a source is not the project file, so both have it
        have other : front ++ inner ≠ hole := by
          rintro rfl
          obtain ⟨stem, extension, last, _, free, same⟩ := lists.source
          have descends : inner ≠ [] := by
            rintro rfl
            cases last
          rw [← List.getLast?_append_of_ne_nil front descends] at last
          exact absurd (agree.word_eq last free same) (by decide)
        have held : fs.root.at? (front ++ inner) = some (some content) := by
          rw [at?_eq_file, Entry.descend?_append, led]
          exact file
        rw [agree.elsewhere _ other, at?_eq_file, Entry.descend?_append, led'] at held
        exact ⟨content, held⟩

theorem find_agree (agree : AgreeOff hole fs fs') (regular : Regular fs) (regular' : Regular fs')
    {root : Path} (canonical : Canonical root) : (find fs root).value = (find fs' root).value := by
  obtain ⟨front, named, rfl⟩ := canonical
  apply eq_of_increasing (increasing_find fs _) (increasing_find fs' _)
  intro p
  exact ⟨find_subset agree regular regular' named, find_subset agree.symm regular' regular named⟩

end Sources

namespace Project

theorem documentsOf_agree (agree : AgreeOff hole fs fs') (regular : Regular fs)
    (regular' : Regular fs') {directory : Path} (canonical : Canonical directory)
    (file : ProjectFile) :
    (documentsOf fs directory file).value = (documentsOf fs' directory file).value := by
  unfold documentsOf
  dsimp only
  split
  · rw [Sources.find_agree agree regular regular' canonical]
  · rfl

theorem documentsAt_eq_nil {path : Path} (unusable : ∀ text file, fs.readText path = .ok text →
    ProjectFile.parse text ≠ .ok file) : (documentsAt fs path).value = [] := by
  rw [documentsAt]
  split
  · rfl
  · next text read =>
    split
    · rfl
    · next file parsed => exact absurd parsed (unusable text file read)

theorem documentsAt_agree (agree : AgreeOff hole fs fs') (regular : Regular fs)
    (regular' : Regular fs') {path : Path} (canonical : Canonical path)
    (off : path ≠ ofNames true hole) :
    (documentsAt fs path).value = (documentsAt fs' path).value := by
  have whole := canonical
  obtain ⟨names, named, rfl⟩ := canonical
  have elsewhere : names ≠ hole := by
    rintro rfl
    exact off rfl
  cases read : fs.readText (ofNames true names) with
  | ok text =>
    obtain ⟨directory, parent, _⟩ := parent?_of_readText whole.isAbsolute read
    rw [documentsAt, documentsAt, read, agree.readText_agree named elsewhere read]
    dsimp only
    split
    · rfl
    · next file _ =>
      rw [parent]
      exact documentsOf_agree agree regular regular' (whole.parent? parent) file
  | error e =>
    have unread : ∀ text, fs'.readText (ofNames true names) ≠ .ok text := by
      intro text read'
      rw [agree.symm.readText_agree named elsewhere read'] at read
      cases read
    rw [documentsAt_eq_nil, documentsAt_eq_nil]
    · intro text file read'
      exact absurd read' (unread text)
    · intro text file read'
      rw [read] at read'
      cases read'

end Project

namespace Workspace
variable {description : Path} {listed : List Solution.Listed}

section Description
variable {l l' : Located} {content content' : Bytes}

theorem load_located (located : fs.locate description = .ok l) (file : l.entry = .file content) :
    (load fs description).value =
      (listing fs l.path).map fun listed => ⟨l.path, (loadAll fs listed).value⟩ := by
  obtain ⟨trail, e⟩ := l
  obtain rfl : e = .file content := file
  rw [load, if_pos (isFile_iff.2 ⟨content, trail, located⟩), FileSystem.canonical, located]
  exact loadCanonical_value fs _

theorem canonical_located (regular : Regular fs) (located : fs.locate description = .ok l) :
    Canonical l.path :=
  ⟨l.names, fun n member => (isName_names regular.named located n member).1, rfl⟩

theorem hasExtension_located (regular : Regular fs) (located : fs.locate description = .ok l)
    (file : l.entry = .file content) (word : String) :
    l.path.hasExtension word = description.hasExtension word := by
  have named := fun n member => (isName_names regular.named located n member).1
  rw [Bool.eq_iff_iff, hasExtension_iff, hasExtension_iff, Located.path, fileName?_ofNames named,
    (fileName?_of_locate located file).1]

theorem readText_eq {names : List Bytes} (filled : names ≠ [])
    (named : ∀ n ∈ names, IsName n ∧ n.length ≤ nameLimit)
    (led : fs.root.descend? names = some (.file content))
    (led' : fs'.root.descend? names = some (.file content)) :
    fs.readText (ofNames true names) = fs'.readText (ofNames true names) := by
  cases accepted : refusal? (ofNames true names) with
  | some e =>
    rw [readText, readText, locate_eq, locate_eq, accepted]
  | none =>
    have each := fun n member => (named n member).1
    have short := fun n member => (named n member).2
    obtain ⟨trail, located⟩ := locate_ofNames filled each short accepted led
    obtain ⟨trail', located'⟩ := locate_ofNames filled each short accepted led'
    rw [readText, readText, located, located']

theorem listing_agree (agree : AgreeOff hole fs fs') (regular : Regular fs)
    (located : fs.locate description = .ok l) (file : l.entry = .file content)
    (located' : fs'.locate description = .ok l') :
    listing fs l.path = listing fs' l'.path := by
  have names := agree.names_agree located located'
  have path : l'.path = l.path := by rw [Located.path, Located.path, names]
  rw [path]
  unfold listing
  split
  · next solution =>
    -- a solution is not the project file, so it holds the same in both
    have named := isName_names regular.named located
    have off : l.names ≠ hole := by
      rintro rfl
      have each := fun n member => (named n member).1
      rw [Located.path, agree.hasExtension_eq_false each (by decide)] at solution
      cases solution
    have led := descend?_names located
    rw [file] at led
    have led' := at?_eq_file.2 led
    rw [agree.elsewhere _ off, at?_eq_file] at led'
    rw [Located.path, readText_eq (fileName?_of_locate located file).2 named led led']
  · rfl

end Description

theorem canonical_listing {path : Path} (canonical : Canonical path)
    (found : listing fs path = .ok listed) : ∀ l ∈ listed, Canonical l.path := by
  intro l member
  rw [listing] at found
  split at found
  · split at found
    · cases found
    · next text read =>
      obtain ⟨directory, parent, absolute⟩ := parent?_of_readText canonical.isAbsolute read
      rw [parent] at found
      obtain rfl := Except.ok.inj found
      obtain ⟨e, _, rfl⟩ := List.mem_map.1 member
      exact canonical_normalize (isAbsolute_join absolute _)
  · split at found
    · obtain rfl := Except.ok.inj found
      rw [List.mem_singleton.1 member]
      exact canonical
    · cases found

theorem map_loadAll (fs : FileSystem) (listed : List Solution.Listed) :
    (loadAll fs listed).value.map (fun p => ⟨p.name, p.path⟩) = listed := by
  rw [loadAll_value, List.map_map]
  exact List.map_id listed

theorem loadAll_agree (agree : AgreeOff hole fs fs') (regular : Regular fs)
    (regular' : Regular fs') (canonical : ∀ l ∈ listed, Canonical l.path) :
    List.Forall₂ (fun p q => p.name = q.name ∧ p.path = q.path ∧
      (p.path ≠ ofNames true hole → p.documents = q.documents))
      (loadAll fs listed).value (loadAll fs' listed).value := by
  rw [loadAll_value, loadAll_value, List.forall₂_map_left_iff, List.forall₂_map_right_iff,
    List.forall₂_same]
  intro l member
  exact ⟨rfl, rfl, Project.documentsAt_agree agree regular regular' (canonical l member)⟩

theorem documents_loadAll {p : Project} (member : p ∈ (loadAll fs listed).value)
    (unusable : ∀ text file, fs.readText p.path = .ok text → ProjectFile.parse text ≠ .ok file) :
    p.documents = [] := by
  rw [loadAll_value] at member
  obtain ⟨l, _, rfl⟩ := List.mem_map.1 member
  exact Project.documentsAt_eq_nil unusable

/-- A project file has no effect on any project but its own: whether a description is loaded, what
it lists and the documents of the other projects do not depend on it, and a project whose file cannot
be read or understood is listed without documents. -/
theorem load_keeps_projects_apart (agree : AgreeOff hole fs fs') (regular : Regular fs)
    (regular' : Regular fs') (present : fs.isFile description) (present' : fs'.isFile description) :
    (∃ e, (load fs description).value = .error e ∧ (load fs' description).value = .error e) ∨
      ∃ w w', (load fs description).value = .ok w ∧ (load fs' description).value = .ok w' ∧
        w.description = w'.description ∧
        List.Forall₂ (fun p q => p.name = q.name ∧ p.path = q.path ∧
          (p.path ≠ ofNames true hole → p.documents = q.documents)) w.projects w'.projects ∧
        (description.hasExtension "sln" → ∃ text, fs.readText w.description = .ok text ∧
          w.projects.map (fun p => ⟨p.name, p.path⟩) =
            (Solution.projects text (w.description.parent?.getD ⟨[]⟩)).value) ∧
        ∀ p ∈ w.projects, (∀ text file, fs.readText p.path = .ok text →
          ProjectFile.parse text ≠ .ok file) → p.documents = [] := by
  obtain ⟨content, trail, located⟩ := isFile_iff.1 present
  obtain ⟨content', trail', located'⟩ := isFile_iff.1 present'
  have value := load_located located rfl
  have value' := load_located located' rfl
  rw [← listing_agree agree regular located rfl located'] at value'
  cases found : listing fs (Located.path ⟨trail, .file content⟩) with
  | error e =>
    rw [found] at value value'
    exact .inl ⟨e, value, value'⟩
  | ok listed =>
    rw [found] at value value'
    have canonical := canonical_listing (canonical_located regular located) found
    have names := agree.names_agree located located'
    refine .inr ⟨_, _, value, value', by rw [Located.path, names]; rfl,
      loadAll_agree agree regular regular' canonical, ?_, ?_⟩
    · intro solution
      rw [← hasExtension_located regular located rfl] at solution
      rw [listing, if_pos solution] at found
      split at found
      · cases found
      · next text read =>
        exact ⟨text, read, (map_loadAll fs listed).trans (Except.ok.inj found).symm⟩
    · intro p member unusable
      exact documents_loadAll member unusable

/-- A solution of two projects, the second around the first; `file` is the entry of the first one's
project file, if it is there. -/
def twoProjects (file : List (Bytes × Entry)) : FileSystem :=
  { root := .directory [(Utf8.ofString "w", .directory
      [(Utf8.ofString "a", .directory (file ++ [(Utf8.ofString "A.cs", .file [])])),
       (Utf8.ofString "All.sln", .file (Utf8.ofString
          ("Project(\"\x7bT\x7d\") = \"A\", \"a\\A.csproj\", \"\x7bG\x7d\"\n" ++
            "Project(\"\x7bT\x7d\") = \"B\", \"B.csproj\", \"\x7bH\x7d\"\n"))),
       (Utf8.ofString "B.csproj", .file (Utf8.ofString "<Project Sdk=\"x\"/>")),
       (Utf8.ofString "Main.cs", .file [])])] }

theorem twoProjects_agree (content : Bytes) :
    AgreeOff [Utf8.ofString "w", Utf8.ofString "a", Utf8.ofString "A.csproj"]
      (twoProjects [(Utf8.ofString "A.csproj", .file content)]) (twoProjects []) where
  project := ⟨Utf8.ofString "A", Utf8.ofString "csproj", by decide, by decide, by decide⟩
  workingDirectory := rfl
  elsewhere := Entry.AgreeOff.inside (.inside (.added rfl content))
  first := by rintro ⟨⟩
  second := by decide

theorem twoProjects_apart :
    ∃ w w', (load (twoProjects [(Utf8.ofString "A.csproj", .file (Utf8.ofString
        "<Project Sdk=\"x\"/>"))]) (.ofString "/w/All.sln")).value = .ok w ∧
      (load (twoProjects []) (.ofString "/w/All.sln")).value = .ok w' ∧
      List.Forall₂ (fun p q => p.name = q.name ∧ p.path = q.path ∧
        (p.path ≠ .ofString "/w/a/A.csproj" → p.documents = q.documents)) w.projects w'.projects ∧
      w.projects.map (·.documents) = [[.ofString "/w/a/A.cs"],
        [.ofString "/w/Main.cs", .ofString "/w/a/A.cs"]] ∧
      w'.projects.map (·.documents) = [[], [.ofString "/w/Main.cs", .ofString "/w/a/A.cs"]] := by
  let fs := twoProjects [(Utf8.ofString "A.csproj", .file (Utf8.ofString "<Project Sdk=\"x\"/>"))]
  let documents := [Path.ofString "/w/Main.cs", .ofString "/w/a/A.cs"]
  have first : (load fs (.ofString "/w/All.sln")).value.toOption.map
      (fun w => w.projects.map (·.documents)) = some [[.ofString "/w/a/A.cs"], documents] := by
    decide +kernel
  have second : (load (twoProjects []) (.ofString "/w/All.sln")).value.toOption.map
      (fun w => w.projects.map (·.documents)) = some [[], documents] := by
    decide +kernel
  have agree := twoProjects_agree (Utf8.ofString "<Project Sdk=\"x\"/>")
  obtain ⟨e, failed, _⟩ | ⟨w, w', loaded, loaded', _, pairs, _⟩ :=
    load_keeps_projects_apart agree ⟨by decide, by decide⟩ ⟨by decide, by decide⟩
      (by decide : fs.isFile (.ofString "/w/All.sln")) (by decide)
  · rw [failed] at first
    cases first
  · rw [loaded] at first
    rw [loaded'] at second
    exact ⟨w, w', loaded, loaded', pairs, Option.some.inj first, Option.some.inj second⟩

end Workspace
end CodeAtlas
