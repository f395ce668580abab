import CodeAtlas.Command
import CodeAtlas.Proofs.Paths

/-!
What indexing depends on. Emptying every file keeps all that is asked of a file system but the texts
that are read, and the only texts that matter to the graph are those of the description and of the
project files. The graph has one vertex for each document of the workspace, in order.
-/
namespace CodeAtlas
open Text

namespace Entry

mutual

def emptied : Entry → Entry
  | .file _ => .file []
  | .directory entries => .directory (emptiedAll entries)

def emptiedAll : List (Bytes × Entry) → List (Bytes × Entry)
  | [] => []
  | (name, e) :: rest => (name, emptied e) :: emptiedAll rest

end

theorem map_fst_emptiedAll (entries : List (Bytes × Entry)) :
    (emptiedAll entries).map Prod.fst = entries.map Prod.fst := by
  induction entries with
  | nil => rfl
  | cons first rest ih => rw [emptiedAll, List.map_cons, List.map_cons, ih]

theorem lookup_emptiedAll (entries : List (Bytes × Entry)) (name : Bytes) :
    (emptiedAll entries).lookup name = (entries.lookup name).map emptied := by
  induction entries with
  | nil => rfl
  | cons first rest ih =>
    rw [emptiedAll, List.lookup_cons, List.lookup_cons, ih]
    split <;> rfl

mutual

theorem visibleFiles_emptied (top : Bool) :
    (entries : List (Bytes × Entry)) →
      visibleFiles top (emptiedAll entries) = visibleFiles top entries
  | [] => rfl
  | (name, e) :: rest => by
    rw [emptiedAll, visibleFiles, visibleFiles, visibleAt_emptied top name e,
      visibleFiles_emptied top rest]

theorem visibleAt_emptied (top : Bool) (name : Bytes) :
    (e : Entry) → visibleAt top name e.emptied = visibleAt top name e
  | .file _ => rfl
  | .directory entries => by
    rw [emptied, visibleAt, visibleAt, visibleFiles_emptied false entries]

end

end Entry

def Located.emptied (l : Located) : Located := ⟨Entry.emptiedAll l.trail, l.entry.emptied⟩

namespace FileSystem
open Entry

def emptied (fs : FileSystem) : FileSystem := { fs with root := fs.root.emptied }

theorem entryAt_emptied (root : Entry) (trail : List (Bytes × Entry)) :
    entryAt root.emptied (emptiedAll trail) = (entryAt root trail).emptied := by
  cases trail <;> rfl

theorem follow_emptied (root : Entry) (trail : List (Bytes × Entry)) (segments : List Bytes) :
    follow root.emptied (emptiedAll trail) segments =
      (follow root trail segments).map Located.emptied := by
  induction segments generalizing trail with
  | nil => rw [follow, follow, entryAt_emptied]; rfl
  | cons segment rest ih =>
    rw [follow, follow, entryAt_emptied]
    cases entryAt root trail with
    | file content => rfl
    | directory entries =>
      simp only [Entry.emptied]
      split
      · exact ih trail
      · split
        · rw [← ih]
          cases trail <;> rfl
        · split
          · rfl
          · rw [lookup_emptiedAll]
            cases entries.lookup segment with
            | none => rfl
            | some e => exact ih ((segment, e) :: trail)

theorem locate_emptied (fs : FileSystem) (p : Path) :
    fs.emptied.locate p = (fs.locate p).map Located.emptied := by
  rw [locate, locate]
  split
  · rfl
  · split
    · rfl
    · split
      · rfl
      · split
        · exact follow_emptied fs.root [] _
        · exact follow_emptied fs.root [] _

theorem isFile_emptied (fs : FileSystem) (p : Path) : fs.emptied.isFile p = fs.isFile p := by
  rw [isFile, isFile, locate_emptied]
  cases fs.locate p with
  | error e => rfl
  | ok l =>
    obtain ⟨trail, entry⟩ := l
    cases entry <;> rfl

theorem canonical_emptied (fs : FileSystem) (p : Path) :
    fs.emptied.canonical p = fs.canonical p := by
  rw [canonical, canonical, locate_emptied]
  cases fs.locate p with
  | error e => rfl
  | ok l =>
    simp only [Except.map, Located.emptied]
    rw [map_fst_emptiedAll]

end FileSystem

theorem Sources.find_emptied (fs : FileSystem) (root : Path) :
    find fs.emptied root = find fs root := by
  rw [find, find, FileSystem.locate_emptied]
  cases fs.locate root with
  | error e => rfl
  | ok l =>
    obtain ⟨trail, entry⟩ := l
    cases entry with
    | file content => rfl
    | directory entries =>
      simp only [Except.map, Located.emptied, Entry.emptied]
      rw [Entry.visibleFiles_emptied]

namespace Project
variable {fs fs' : FileSystem}

theorem documentsAt_congr (shape : fs.emptied = fs'.emptied) {path : Path}
    (text : fs.readText path = fs'.readText path) : documentsAt fs path = documentsAt fs' path := by
  have scan : ∀ root, Sources.find fs root = Sources.find fs' root := by
    intro root
    rw [← Sources.find_emptied, shape, Sources.find_emptied]
  simp only [documentsAt, text, documentsOf, scan]

theorem load_congr (shape : fs.emptied = fs'.emptied) (name : String) {path : Path}
    (text : fs.readText path = fs'.readText path) : load fs name path = load fs' name path := by
  rw [load, load, documentsAt_congr shape text]

end Project

namespace Workspace

/-- The file systems differ only in what is in their files, and not in the build description and the
project files to which it leads. -/
structure Alike (fs fs' : FileSystem) (description : Path) : Prop where
  shape : fs.emptied = fs'.emptied
  descriptionText : ∀ path, fs.canonical description = .ok path →
    fs.readText path = fs'.readText path
  projectTexts : ∀ w, (load fs description).value = .ok w →
    ∀ p ∈ w.projects, fs.readText p.path = fs'.readText p.path

variable {fs fs' : FileSystem} {description : Path}

theorem loadAll_congr (shape : fs.emptied = fs'.emptied) {listed : List Solution.Listed}
    (texts : ∀ l ∈ listed, fs.readText l.path = fs'.readText l.path) :
    (loadAll fs listed).value = (loadAll fs' listed).value := by
  rw [loadAll_value, loadAll_value]
  apply List.map_congr_left
  intro l member
  rw [Project.load_congr shape l.name (texts l member)]

theorem load_congr (alike : Alike fs fs' description) :
    (load fs description).value = (load fs' description).value := by
  have file : fs.isFile description = fs'.isFile description := by
    rw [← fs.isFile_emptied, alike.shape, fs'.isFile_emptied]
  have canonical : fs.canonical description = fs'.canonical description := by
    rw [← fs.canonical_emptied, alike.shape, fs'.canonical_emptied]
  by_cases isFile : fs.isFile description
  · cases found : fs.canonical description with
    | error e => simp only [load, ← file, isFile, if_true, ← canonical, found]
    | ok path =>
      have first : (load fs description).value = (loadCanonical fs path).value := by
        simp only [load, isFile, if_true, found]
      have second : (load fs' description).value = (loadCanonical fs' path).value := by
        simp only [load, ← file, isFile, if_true, ← canonical, found]
      have same : listing fs path = listing fs' path := by
        simp only [listing, alike.descriptionText path found]
      rw [first, second, loadCanonical_value, loadCanonical_value, ← same]
      cases listed : listing fs path with
      | error e => rfl
      | ok projects =>
        have loaded : (load fs description).value =
            .ok ⟨path, (loadAll fs projects).value⟩ := by
          rw [first, loadCanonical_value, listed]
          rfl
        have texts : ∀ l ∈ projects, fs.readText l.path = fs'.readText l.path := by
          intro l member
          have project : (Project.load fs l.name l.path).value ∈ (loadAll fs projects).value := by
            rw [loadAll_value]
            exact List.mem_map_of_mem member
          exact alike.projectTexts _ loaded _ project
        simp only [Except.map, loadAll_congr alike.shape texts]
  · rw [load, load, ← file, if_neg isFile, if_neg isFile]

theorem events_of_canonical_error {path : Path} {e : WorkspaceError}
    (failed : (loadCanonical fs path).value = .error e) : (loadCanonical fs path).events = [] := by
  rw [loadCanonical] at failed ⊢
  by_cases solution : path.hasExtension "sln"
  · rw [if_pos solution] at failed ⊢
    cases read : fs.readText path with
    | error e => rfl
    | ok text =>
      rw [read] at failed
      cases failed
  · rw [if_neg solution] at failed ⊢
    by_cases project : path.hasExtension "csproj"
    · rw [if_pos project] at failed
      cases failed
    · rw [if_neg project]

theorem events_of_error {e : WorkspaceError} (failed : (load fs description).value = .error e) :
    (load fs description).events = [] := by
  rw [load] at failed ⊢
  by_cases file : fs.isFile description
  · rw [if_pos file] at failed ⊢
    cases found : fs.canonical description with
    | error e => rfl
    | ok path =>
      rw [found] at failed
      exact events_of_canonical_error failed
  · rw [if_neg file]

end Workspace

namespace Graph

def Numbered (g : Graph) : Prop := g.vertices.map Vertex.id = List.range' 1 g.size

theorem numbered_addDocument {g : Graph} (h : g.Numbered) (uri : Uri) :
    (g.addDocument uri).Numbered := by
  have size : (g.addDocument uri).size = g.size + 1 := List.length_append
  rw [Numbered, size, List.range'_1_concat, addDocument, List.map_append, h]
  simp [next, Nat.add_comm]

end Graph

namespace Index

def addAll (g : Graph) : List Path → Except InvalidPath Graph
  | [] => .ok g
  | path :: rest => (Uri.ofPath path).bind fun uri => addAll (g.addDocument uri) rest

theorem addDocuments_graph (fs : FileSystem) (parse : Parser) (naming : Naming) (s : State)
    (paths : List Path) :
    (addDocuments fs parse naming s paths).map State.graph = addAll s.graph paths := by
  induction paths generalizing s with
  | nil => rfl
  | cons path rest ih =>
    rw [addDocuments, addDocument, addAll]
    cases Uri.ofPath path with
    | error e => rfl
    | ok uri => exact ih _

theorem build_value (fs : FileSystem) (parse : Parser) (naming : Naming) (description : Path) :
    (build fs parse naming description).value =
      match (Workspace.load fs description).value with
      | .error e => .error (.load description e)
      | .ok w =>
        match addAll {} w.documents with
        | .error e => .error (.document e)
        | .ok g => .ok ⟨g, progress w.projects⟩ := by
  rw [build]
  cases (Workspace.load fs description).value with
  | error e => rfl
  | ok w =>
    have graph := addDocuments_graph fs parse naming {} w.documents
    dsimp only
    rw [← graph]
    cases addDocuments fs parse naming {} w.documents <;> rfl

theorem addAll_absolute {paths : List Path} (absolute : ∀ p ∈ paths, p.isAbsolute) {g : Graph}
    (numbered : g.Numbered) :
    ∃ g', addAll g paths = .ok g' ∧ g'.Numbered ∧ g'.size = g.size + paths.length ∧
      g'.vertices.map (fun v => Except.ok v.uri) =
        g.vertices.map (fun v => Except.ok v.uri) ++ paths.map Uri.ofPath := by
  induction paths generalizing g with
  | nil => exact ⟨g, rfl, numbered, rfl, by simp⟩
  | cons path rest ih =>
    have first : ∃ uri, Uri.ofPath path = .ok uri := by
      rw [Uri.ofPath, if_pos (absolute path List.mem_cons_self)]
      exact ⟨_, rfl⟩
    obtain ⟨uri, named⟩ := first
    have later : ∀ p ∈ rest, p.isAbsolute := fun p hp => absolute p (List.mem_cons_of_mem _ hp)
    obtain ⟨g', added, numbers, size, uris⟩ := ih later (Graph.numbered_addDocument numbered uri)
    have grown : (g.addDocument uri).size = g.size + 1 := List.length_append
    refine ⟨g', ?_, numbers, ?_, ?_⟩
    · rw [addAll, named]
      exact added
    · rw [size, grown, List.length_cons]
      omega
    · rw [uris, List.map_cons, named]
      simp [Graph.addDocument, Graph.next]

/-- The graph has a vertex for each document of each project, in order, and the paths of the
projects are reported. -/
structure Lists (w : Workspace) (b : Built) : Prop where
  absolute : ∀ p ∈ w.projects, ∀ path ∈ p.documents, path.isAbsolute
  ids : b.graph.vertices.map Vertex.id = List.range' 1 w.documentCount
  uris : b.graph.vertices.map (fun v => Except.ok v.uri) =
    w.projects.flatMap fun p => p.documents.map Uri.ofPath
  progress : b.progress = String.join (w.projects.map fun p => p.path.display ++ "\n")

theorem build_of_load {fs : FileSystem} {description : Path} {w : Workspace}
    (loaded : (Workspace.load fs description).value = .ok w) :
    ∃ b, Lists w b ∧ ∀ parse naming, (build fs parse naming description).value = .ok b := by
  have absolute := Workspace.isAbsolute_documents loaded
  have all : ∀ path ∈ w.documents, path.isAbsolute := by
    intro path member
    obtain ⟨p, project, document⟩ := List.mem_flatMap.1 member
    exact absolute p project path document
  have empty : Graph.Numbered {} := rfl
  obtain ⟨g, added, numbered, size, uris⟩ := addAll_absolute all empty
  refine ⟨⟨g, progress w.projects⟩, ⟨absolute, ?_, ?_, rfl⟩, ?_⟩
  · rw [numbered, size, Workspace.documentCount]
    simp [Graph.size]
  · rw [uris]
    exact List.map_flatMap
  · intro parse naming
    rw [build_value, loaded]
    simp only [added]

def unreadable? (fs : FileSystem) (path : Path) : Option Event :=
  match fs.readText path with
  | .error e => some (.documentUnreadable path e)
  | .ok _ => none

theorem warnings_structureEvents (fs : FileSystem) (parse : Parser) (naming : Naming)
    (path : Path) :
    (structureEvents fs parse naming path).filter Event.isWarning =
      (unreadable? fs path).toList := by
  rw [structureEvents, unreadable?]
  cases fs.readText path with
  | error e => rfl
  | ok text =>
    have parsed : ∀ d, (parseEvents d).filter Event.isWarning = [] := by
      intro d
      rw [parseEvents]
      split <;> rfl
    have outlined : ∀ o : Outline, o.events.filter Event.isWarning = [] := by
      intro o
      rw [Outline.events, List.filter_append, List.filter_replicate_of_neg (by decide)]
      rfl
    have shown : ∀ es, (Element.events path es).filter Event.isWarning = [] := by
      intro es
      rw [Element.events, List.filter_map, List.map_eq_nil_iff, List.filter_eq_nil_iff]
      intro p _
      exact Bool.false_ne_true
    have start : (Event.parsing path).isWarning = false := rfl
    dsimp only
    rw [List.cons_append, List.cons_append, List.filter_cons_of_neg (by rw [start]; decide),
      List.filter_append, List.filter_append, parsed, outlined, shown]
    rfl

theorem warnings_addDocuments {fs : FileSystem} {parse : Parser} {naming : Naming}
    {s s' : State} {paths : List Path} (added : addDocuments fs parse naming s paths = .ok s') :
    s'.events.filter Event.isWarning =
      s.events.filter Event.isWarning ++ paths.filterMap (unreadable? fs) := by
  induction paths generalizing s with
  | nil =>
    obtain rfl := Except.ok.inj added
    rw [List.filterMap_nil, List.append_nil]
  | cons path rest ih =>
    rw [addDocuments, addDocument] at added
    cases named : Uri.ofPath path with
    | error e =>
      rw [named] at added
      cases added
    | ok uri =>
      rw [named] at added
      have vertex : ∀ id, [Event.vertexAdded id uri].filter Event.isWarning = [] := fun _ => rfl
      rw [ih added, List.filter_append, List.filter_append, vertex, List.append_nil,
        warnings_structureEvents, List.append_assoc]
      cases found : unreadable? fs path with
      | none => rw [List.filterMap_cons_none found]; rfl
      | some warning => rw [List.filterMap_cons_some found]; rfl

/-- The warnings of indexing are those of loading, and one for each document that cannot be read. -/
theorem warnings_build {fs : FileSystem} {parse : Parser} {naming : Naming} {description : Path}
    {w : Workspace} (loaded : (Workspace.load fs description).value = .ok w) :
    (build fs parse naming description).events.filter Event.isWarning =
      (Workspace.load fs description).events.filter Event.isWarning ++
        w.documents.filterMap (unreadable? fs) := by
  obtain ⟨b, _, built⟩ := build_of_load loaded
  have value := built parse naming
  rw [build, loaded] at value ⊢
  dsimp only at value ⊢
  cases added : addDocuments fs parse naming {} w.documents with
  | error e =>
    rw [added] at value
    cases value
  | ok s =>
    have last : [Event.indexed s.graph.size w.projects.length].filter Event.isWarning = [] := rfl
    dsimp only
    rw [List.filter_append, List.filter_append, last, List.append_nil, warnings_addDocuments added]
    rfl

end Index

namespace Command

theorem stdout_of_failure (fs : FileSystem) (args : List String)
    (failed : (run fs args).code ≠ 0) : (run fs args).stdout = "" := by
  revert failed
  rw [run]
  split
  · simp
  · simp
  · simp
  · rw [index]
    split <;> simp

/-- Indexing succeeds when the workspace loads, whatever its documents are, and then the graph lists
them and is what the command prints. Nothing but the shape of the file system and the texts of the
description and the project files has a part in it. -/
theorem index_lists_documents (fs : FileSystem) (description : Path) :
    (∀ w, (Workspace.load fs description).value = .ok w → ∃ b, Index.Lists w b ∧
      (∀ parse naming, (Index.build fs parse naming description).value = .ok b) ∧
      index fs description =
        { code := 0
          stdout := b.graph.serialize ++ "\n"
          stderr := b.progress
          warnings := (Workspace.load fs description).events.filter Event.isWarning ++
            w.documents.filterMap (Index.unreadable? fs) }) ∧
    (∀ e, (Workspace.load fs description).value = .error e →
      (∀ parse naming, (Index.build fs parse naming description).value =
        .error (.load description e)) ∧
      index fs description =
        { code := 1, stderr := errorText (.load description e), warnings := [] }) ∧
    (∀ fs', Workspace.Alike fs fs' description → ∀ parse parse' naming naming',
      (Index.build fs parse naming description).value =
        (Index.build fs' parse' naming' description).value) ∧
    ∀ args, (∀ text, Request.ofArgs none false args = .index text →
        run fs args = index fs (Path.ofString text)) ∧
      ((run fs args).code ≠ 0 → (run fs args).stdout = "") := by
  refine ⟨?_, ?_, ?_, ?_⟩
  · intro w loaded
    obtain ⟨b, lists, built⟩ := Index.build_of_load loaded
    refine ⟨b, lists, built, ?_⟩
    rw [index, built, Index.warnings_build loaded]
  · intro e failed
    have built : ∀ parse naming, (Index.build fs parse naming description).value =
        .error (.load description e) := by
      intro parse naming
      rw [Index.build_value, failed]
    refine ⟨built, ?_⟩
    rw [index, built, Index.build, failed]
    dsimp only
    rw [Workspace.events_of_error failed]
    rfl
  · intro fs' alike parse parse' naming naming'
    rw [Index.build_value, Index.build_value, Workspace.load_congr alike]
  · intro args
    refine ⟨?_, stdout_of_failure fs args⟩
    intro text request
    rw [run, request]

def oneProject (source : Bytes) : FileSystem :=
  { root := .directory [(Utf8.ofString "w", .directory
      [(Utf8.ofString "App.csproj", .file (Utf8.ofString
          "<Project Sdk=\"x\"><Compile Include=\"Z.cs\"/></Project>")),
       (Utf8.ofString "A.cs", .file source)])] }

theorem ok_of_toOption {ε α : Type} {x : Except ε α} {a : α} (h : x.toOption = some a) :
    x = .ok a := by
  cases x with
  | error e => simp [Except.toOption] at h
  | ok b => rw [Option.some.inj h]

theorem oneProject_indexed :
    ∃ b, b.graph.vertices.map Vertex.id = [1, 2] ∧
      index (oneProject []) (.ofString "/w/App.csproj") =
        ⟨0, b.graph.serialize ++ "\n", "/w/App.csproj\n",
          [.documentUnreadable (.ofString "/w/Z.cs") .notFound]⟩ ∧
      ∀ parse naming, (Index.build (oneProject [0xFF]) parse naming
        (.ofString "/w/App.csproj")).value = .ok b := by
  let description : Path := .ofString "/w/App.csproj"
  let documents : List Path := [.ofString "/w/A.cs", .ofString "/w/Z.cs"]
  let w : Workspace := ⟨description, [⟨"App", description, documents⟩]⟩
  let text := "<Project Sdk=\"x\"><Compile Include=\"Z.cs\"/></Project>".toList
  have loaded : (Workspace.load (oneProject []) description).value = .ok w :=
    ok_of_toOption (by decide +kernel)
  have canonical : (oneProject []).canonical description = .ok description :=
    ok_of_toOption (by decide +kernel)
  have first : (oneProject []).readText description = .ok text := ok_of_toOption (by decide +kernel)
  have second : (oneProject [0xFF]).readText description = .ok text :=
    ok_of_toOption (by decide +kernel)
  have alike : Workspace.Alike (oneProject []) (oneProject [0xFF]) description := by
    refine ⟨rfl, ?_, ?_⟩
    · intro path found
      obtain rfl := Except.ok.inj (canonical.symm.trans found)
      rw [first, second]
    · intro v found p member
      obtain rfl := Except.ok.inj (loaded.symm.trans found)
      obtain rfl := List.mem_singleton.1 member
      exact first.trans second.symm
  have line : String.join (w.projects.map fun p => p.path.display ++ "\n") = "/w/App.csproj\n" := by
    decide +kernel
  have warnings : (Workspace.load (oneProject []) description).events.filter Event.isWarning ++
      w.documents.filterMap (Index.unreadable? (oneProject [])) =
        [.documentUnreadable (.ofString "/w/Z.cs") .notFound] := by
    decide +kernel
  obtain ⟨success, _, same, _⟩ := index_lists_documents (oneProject []) description
  obtain ⟨b, lists, built, printed⟩ := success w loaded
  refine ⟨b, lists.ids, ?_, ?_⟩
  · rw [printed, lists.progress, line, warnings]
  · intro parse naming
    rw [← same _ alike parse parse naming naming, built]

end Command
end CodeAtlas
