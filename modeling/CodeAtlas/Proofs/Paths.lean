import CodeAtlas.Workspace

/-!
Every document of a workspace has an absolute path. The description is taken by its canonical path,
which is absolute, and all other paths come from it: the directory of an absolute path is absolute,
and so is what is joined to it, resolved in it or found below it. The one absolute path without a
directory is that of the root, and no text can be read there.
-/
namespace CodeAtlas
open Text

namespace Path
variable {p q : Path}

theorem isAbsolute_iff : p.isAbsolute ↔ ∃ rest, p.bytes = slash :: rest := by
  rw [isAbsolute, beq_iff_eq, List.head?_eq_some_iff]

theorem isAbsolute_join (h : p.isAbsolute) (q : Path) : (p.join q).isAbsolute := by
  obtain ⟨rest, bytes⟩ := isAbsolute_iff.1 h
  rw [join]
  by_cases absolute : q.isAbsolute
  · rw [if_pos absolute]
    exact absolute
  · rw [if_neg absolute, bytes]
    split <;> exact isAbsolute_iff.2 ⟨_, rfl⟩

theorem isAbsolute_ofNames (names : List Bytes) : (ofNames true names).isAbsolute :=
  isAbsolute_iff.2 ⟨_, rfl⟩

theorem isAbsolute_normalize (h : p.isAbsolute) : p.normalize.isAbsolute := by
  rw [normalize, h]
  exact isAbsolute_ofNames _

theorem isAbsolute_resolve (h : p.isAbsolute) (text : List Char) : (p.resolve text).isAbsolute :=
  isAbsolute_normalize (isAbsolute_join h _)

theorem segments_of_isAbsolute (h : p.isAbsolute) : ∃ rest, p.segments = [] :: rest := by
  obtain ⟨rest, bytes⟩ := isAbsolute_iff.1 h
  refine ⟨pieces slash rest, ?_⟩
  rw [segments, bytes, pieces, if_pos rfl]

theorem components_of_isAbsolute (h : p.isAbsolute) :
    p.components = .root :: (p.segments.filter fun s => !isFiller s).map component := by
  rw [components, start, if_pos h]
  rfl

theorem isAbsolute_intercalate {front rest : List Bytes} (before : front <+: [] :: rest)
    (nonempty : front ≠ []) (named : front.getLast? ≠ some []) :
    (Path.mk ([slash].intercalate front)).isAbsolute := by
  match front with
  | [] => exact absurd rfl nonempty
  | [first] =>
    obtain ⟨rfl, _⟩ := List.cons_prefix_cons.1 before
    exact absurd rfl named
  | first :: second :: others =>
    obtain ⟨rfl, _⟩ := List.cons_prefix_cons.1 before
    exact isAbsolute_iff.2 ⟨[slash].intercalate (second :: others), by simp [List.intercalate]⟩

theorem parent?_isAbsolute (h : p.isAbsolute) (found : p.parent? = some q) : q.isAbsolute := by
  obtain ⟨rest, segments⟩ := segments_of_isAbsolute h
  rw [parent?] at found
  split at found
  · simp at found
  · simp at found
  · next current =>
    rw [components_of_isAbsolute h] at current
    have mem : Component.root ∈ [Component.current] := by
      rw [← current]
      simp
    simp at mem
  · dsimp only at found
    split at found
    · obtain rfl := Option.some.inj found
      exact isAbsolute_iff.2 ⟨[], rfl⟩
    · next kept =>
      -- what is kept ends with a name, so it is more than the empty piece before the first slash
      obtain rfl := Option.some.inj found
      refine isAbsolute_intercalate (?_ : _ <+: [] :: rest) ?_ ?_
      · have suffix : (((p.segments.reverse.dropWhile isFiller).drop 1).dropWhile isFiller) <:+
            p.segments.reverse :=
          (List.dropWhile_suffix _).trans ((List.drop_suffix _ _).trans (List.dropWhile_suffix _))
        rw [← List.reverse_prefix, List.reverse_reverse] at suffix
        rw [← segments]
        exact suffix
      · simpa using kept
      · rw [List.getLast?_reverse]
        intro first
        have named := List.head?_dropWhile_not isFiller
          ((p.segments.reverse.dropWhile isFiller).drop 1)
        rw [first] at named
        simp [isFiller] at named

theorem component_cases (s : Bytes) : component s = .parent ∨ component s = .name s := by
  rw [component]
  split
  · exact Or.inl rfl
  · exact Or.inr rfl

theorem isFiller_of_parent? (h : p.isAbsolute) (top : p.parent? = none) :
    ∀ s ∈ p.segments, isFiller s := by
  have reversed : p.components.reverse =
      ((p.segments.filter fun s => !isFiller s).map component).reverse ++ [.root] := by
    rw [components_of_isAbsolute h, List.reverse_cons]
  cases names : ((p.segments.filter fun s => !isFiller s).map component).reverse with
  | nil =>
    rw [List.reverse_eq_nil_iff, List.map_eq_nil_iff, List.filter_eq_nil_iff] at names
    simpa using names
  | cons last others =>
    obtain ⟨s, _, rfl⟩ : ∃ s ∈ p.segments.filter fun s => !isFiller s, component s = last := by
      rw [← List.mem_map, ← List.mem_reverse, names]
      exact List.mem_cons_self
    rw [names, List.cons_append] at reversed
    -- the last component is not the root, so there is a parent
    rcases component_cases s with up | name
    · rw [parent?, reversed, up] at top
      dsimp only at top
      split at top <;> simp at top
    · rw [parent?, reversed, name] at top
      dsimp only at top
      split at top <;> simp at top

theorem mem_insert {l : List Path} (h : q ∈ insert p l) : q = p ∨ q ∈ l := by
  induction l with
  | nil => simpa [insert] using h
  | cons first rest ih =>
    rw [insert] at h
    split at h
    · exact List.mem_cons.1 h
    · split at h
      · exact Or.inr h
      · rcases List.mem_cons.1 h with rfl | later
        · exact Or.inr List.mem_cons_self
        · exact (ih later).imp_right (List.mem_cons_of_mem _)

theorem mem_sorted {paths : List Path} (h : p ∈ sorted paths) : p ∈ paths := by
  have gathered : ∀ (l acc : List Path), p ∈ l.foldl (fun acc p => p.insert acc) acc →
      p ∈ acc ∨ p ∈ l := by
    intro l
    induction l with
    | nil => exact fun acc h => Or.inl h
    | cons first rest ih =>
      intro acc h
      rcases ih _ h with early | later
      · rcases mem_insert early with rfl | before
        · exact Or.inr List.mem_cons_self
        · exact Or.inl before
      · exact Or.inr (List.mem_cons_of_mem _ later)
  simpa using gathered paths [] h

end Path

namespace FileSystem
variable {fs : FileSystem} {p : Path}

theorem isAbsolute_canonical {q : Path} (h : fs.canonical p = .ok q) : q.isAbsolute := by
  rw [canonical] at h
  cases found : fs.locate p with
  | error e => simp [found, Except.map] at h
  | ok l =>
    simp only [found, Except.map, Except.ok.injEq] at h
    rw [← h]
    exact Path.isAbsolute_ofNames _

theorem follow_fillers (entries : List (Bytes × Entry)) {segments : List Bytes}
    (h : ∀ s ∈ segments, Path.isFiller s) :
    follow (.directory entries) [] segments = .ok ⟨[], .directory entries⟩ := by
  induction segments with
  | nil => rfl
  | cons s rest ih =>
    rw [follow, entryAt]
    simp only [h s List.mem_cons_self, if_true]
    exact ih fun t ht => h t (List.mem_cons_of_mem _ ht)

theorem locate_fillers (fs : FileSystem) (h : p.isAbsolute)
    (fillers : ∀ s ∈ p.segments, Path.isFiller s) :
    (∃ e, fs.locate p = .error e) ∨ ∃ entries, fs.locate p = .ok ⟨[], .directory entries⟩ := by
  rw [locate, if_pos h]
  split
  · exact Or.inl ⟨_, rfl⟩
  · split
    · exact Or.inl ⟨_, rfl⟩
    · split
      · exact Or.inl ⟨_, rfl⟩
      · cases fs.root with
        | file content =>
          obtain ⟨rest, segments⟩ := Path.segments_of_isAbsolute h
          rw [segments]
          exact Or.inl ⟨_, rfl⟩
        | directory entries => exact Or.inr ⟨entries, follow_fillers entries fillers⟩

theorem parent?_of_readText {text : List Char} (h : p.isAbsolute)
    (read : fs.readText p = .ok text) : ∃ q, p.parent? = some q ∧ q.isAbsolute := by
  cases top : p.parent? with
  | some q => exact ⟨q, rfl, Path.parent?_isAbsolute h top⟩
  | none =>
    rw [readText] at read
    have fillers := Path.isFiller_of_parent? h top
    rcases locate_fillers fs h fillers with ⟨e, found⟩ | ⟨entries, found⟩
    · simp [found] at read
    · simp [found] at read

end FileSystem

namespace Sources

theorem isAbsolute_pathTo {root : Path} (h : root.isAbsolute) (names : List Bytes) :
    (pathTo root names).isAbsolute := by
  rw [pathTo]
  induction names generalizing root with
  | nil => exact h
  | cons n rest ih => exact ih (Path.isAbsolute_join h ⟨n⟩)

theorem isAbsolute_find {fs : FileSystem} {root p : Path} (h : root.isAbsolute)
    (found : p ∈ (find fs root).value) : p.isAbsolute := by
  rw [find] at found
  split at found
  · simp at found
  · obtain ⟨listed, _⟩ := List.mem_filter.1 (Path.mem_sorted found)
    split at listed
    · rw [List.mem_singleton.1 listed]
      exact h
    · obtain ⟨names, _, rfl⟩ := List.mem_map.1 listed
      exact isAbsolute_pathTo h names

end Sources

namespace Project
variable {fs : FileSystem} {p : Path}

theorem isAbsolute_documentsOf {directory : Path} {file : ProjectFile} (h : directory.isAbsolute)
    (found : p ∈ (documentsOf fs directory file).value) : p.isAbsolute := by
  rcases List.mem_append.1 (Path.mem_sorted found) with scanned | named
  · split at scanned
    · exact Sources.isAbsolute_find h scanned
    · simp at scanned
  · obtain ⟨item, _, rfl⟩ := List.mem_map.1 named
    exact Path.isAbsolute_resolve h item

theorem isAbsolute_documentsAt {path : Path} (h : path.isAbsolute)
    (found : p ∈ (documentsAt fs path).value) : p.isAbsolute := by
  rw [documentsAt] at found
  split at found
  · simp at found
  · next text read =>
    obtain ⟨directory, parent, absolute⟩ := FileSystem.parent?_of_readText h read
    split at found
    · simp at found
    · rw [parent] at found
      exact isAbsolute_documentsOf absolute found

end Project

namespace Workspace
variable {fs : FileSystem} {w : Workspace}

def listing (fs : FileSystem) (path : Path) : Except WorkspaceError (List Solution.Listed) :=
  if path.hasExtension "sln" then
    match fs.readText path with
    | .error e => .error (.io e)
    | .ok text => .ok (Solution.projects text (path.parent?.getD ⟨[]⟩)).value
  else if path.hasExtension "csproj" then
    .ok [⟨String.ofList (Utf8.lossy (path.stem?.getD [])), path⟩]
  else .error (.unsupported path)

theorem loadCanonical_value (fs : FileSystem) (path : Path) :
    (loadCanonical fs path).value =
      (listing fs path).map fun listed => ⟨path, (loadAll fs listed).value⟩ := by
  rw [loadCanonical, listing]
  split
  · cases fs.readText path <;> rfl
  · split <;> rfl

theorem isAbsolute_listing {path : Path} (h : path.isAbsolute) {listed : List Solution.Listed}
    (found : listing fs path = .ok listed) : ∀ l ∈ listed, l.path.isAbsolute := by
  intro l member
  rw [listing] at found
  split at found
  · split at found
    · simp at found
    · next text read =>
      obtain ⟨directory, parent, absolute⟩ := FileSystem.parent?_of_readText h read
      rw [parent] at found
      obtain rfl := Except.ok.inj found
      obtain ⟨e, _, rfl⟩ := List.mem_map.1 member
      exact Path.isAbsolute_resolve absolute e.path
  · split at found
    · obtain rfl := Except.ok.inj found
      rw [List.mem_singleton.1 member]
      exact h
    · simp at found

theorem loadAll_value (fs : FileSystem) (listed : List Solution.Listed) :
    (loadAll fs listed).value = listed.map fun l => (Project.load fs l.name l.path).value := by
  induction listed with
  | nil => rfl
  | cons l rest ih => rw [loadAll, List.map_cons, ih]

theorem load_eq_ok {description : Path} (h : (load fs description).value = .ok w) :
    ∃ path listed, fs.canonical description = .ok path ∧ listing fs path = .ok listed ∧
      w = ⟨path, (loadAll fs listed).value⟩ := by
  rw [load] at h
  split at h
  · split at h
    · simp at h
    · next path canonical =>
      rw [loadCanonical_value] at h
      cases found : listing fs path with
      | error e => simp [found, Except.map] at h
      | ok listed =>
        rw [found] at h
        exact ⟨path, listed, canonical, found, (Except.ok.inj h).symm⟩
  · simp at h

theorem isAbsolute_documents {description : Path} (h : (load fs description).value = .ok w) :
    ∀ p ∈ w.projects, ∀ d ∈ p.documents, d.isAbsolute := by
  intro p project d document
  obtain ⟨path, listed, canonical, found, rfl⟩ := load_eq_ok h
  rw [loadAll_value] at project
  obtain ⟨l, member, rfl⟩ := List.mem_map.1 project
  have absolute := isAbsolute_listing (FileSystem.isAbsolute_canonical canonical) found
  exact Project.isAbsolute_documentsAt (absolute l member) document

end Workspace
end CodeAtlas
