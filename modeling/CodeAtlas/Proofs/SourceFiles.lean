import CodeAtlas.Proofs.Trees

/-!
The sources of a directory. The walk leaves out hidden names and, right below its root, the
directories of build output; what it comes to are the files to which the other names lead. The path
of a file is the root's path with those names after it, so the order of the paths is that of the
names, and no two files have the same place in it.
-/
namespace CodeAtlas
open Text Path

namespace Entry

/-- No name is hidden, and the first one is not that of a directory of build output if the walk
begins there. -/
structure Kept (top : Bool) (names : List Bytes) : Prop where
  shown : ∀ n ∈ names, isHidden n = false
  notBuilt : top → 2 ≤ names.length → ∀ n, names.head? = some n → isBuildOutput n = false

theorem kept_single (top : Bool) (name : Bytes) : Kept top [name] ↔ isHidden name = false := by
  constructor
  · intro kept
    exact kept.shown name List.mem_cons_self
  · intro shown
    refine ⟨by simpa using shown, ?_⟩
    intro _ long
    simp at long

theorem kept_cons (top : Bool) (name : Bytes) {inner : List Bytes} (filled : inner ≠ []) :
    Kept top (name :: inner) ↔
      (isHidden name || top && isBuildOutput name) = false ∧ Kept false inner := by
  have long : 2 ≤ (name :: inner).length := by
    have := List.length_pos_iff.2 filled
    rw [List.length_cons]
    omega
  rw [Bool.or_eq_false_iff, Bool.and_eq_false_iff]
  constructor
  · intro kept
    obtain ⟨first, others⟩ := List.forall_mem_cons.1 kept.shown
    refine ⟨⟨first, ?_⟩, others, fun below => nomatch below⟩
    cases top with
    | false => exact .inl rfl
    | true => exact .inr (kept.notBuilt rfl long name rfl)
  · rintro ⟨⟨first, built⟩, others⟩
    refine ⟨List.forall_mem_cons.2 ⟨first, others.shown⟩, ?_⟩
    intro above _ n head
    obtain rfl := Option.some.inj head
    rcases built with below | other
    · exact absurd (above.symm.trans below) (by decide)
    · exact other

mutual

/-- The walk comes to the files to which names that are kept lead. -/
theorem mem_visibleFiles_iff (top : Bool) (entries : List (Bytes × Entry)) (h : allDistinct entries)
    (names : List Bytes) :
    names ∈ visibleFiles top entries ↔
      (∃ content, (Entry.directory entries).descend? names = some (.file content)) ∧
        Kept top names := by
  match entries, names with
  | [], names => cases names <;> simp [visibleFiles, descend?]
  | (name, e) :: rest, [] =>
    obtain ⟨_, inner, others⟩ := allDistinct_cons h
    rw [visibleFiles, List.mem_append, mem_visibleAt_iff top name e inner,
      mem_visibleFiles_iff top rest others]
    simp [descend?]
  | (name, e) :: rest, m :: names =>
    obtain ⟨single, inner, others⟩ := allDistinct_cons h
    rw [visibleFiles, List.mem_append, mem_visibleAt_iff top name e inner,
      mem_visibleFiles_iff top rest others, descend?, descend?, List.lookup_cons]
    by_cases same : m = name
    · simp [same, single]
    · simp [same, beq_eq_false_iff_ne.2 same]

theorem mem_visibleAt_iff (top : Bool) (name : Bytes) (e : Entry) (h : e.distinct)
    (names : List Bytes) :
    names ∈ visibleAt top name e ↔
      ∃ inner, names = name :: inner ∧ (∃ content, e.descend? inner = some (.file content)) ∧
        Kept top names := by
  match e with
  | .file content =>
    rw [visibleAt]
    constructor
    · intro member
      split at member
      · cases member
      · next shown =>
        obtain rfl := List.mem_singleton.1 member
        exact ⟨[], rfl, ⟨content, rfl⟩, (kept_single top name).2 (by simpa using shown)⟩
    · rintro ⟨inner, rfl, ⟨_, led⟩, kept⟩
      cases inner with
      | cons n inner => cases led
      | nil =>
        rw [if_neg (by simp [(kept_single top name).1 kept])]
        exact List.mem_cons_self
  | .directory entries =>
    have filled : ∀ {inner : List Bytes} {content : Bytes},
        (Entry.directory entries).descend? inner = some (.file content) → inner ≠ [] := by
      rintro _ _ led rfl
      cases led
    rw [visibleAt]
    constructor
    · intro member
      split at member
      · cases member
      · next entered =>
        obtain ⟨inner, visible, rfl⟩ := List.mem_map.1 member
        obtain ⟨⟨content, led⟩, later⟩ := (mem_visibleFiles_iff false entries h inner).1 visible
        have kept := (kept_cons top name (filled led)).2 ⟨by simpa using entered, later⟩
        exact ⟨inner, rfl, ⟨content, led⟩, kept⟩
    · rintro ⟨inner, rfl, ⟨content, led⟩, kept⟩
      obtain ⟨entered, later⟩ := (kept_cons top name (filled led)).1 kept
      rw [if_neg (by simp [entered])]
      apply List.mem_map_of_mem
      exact (mem_visibleFiles_iff false entries h inner).2 ⟨⟨content, led⟩, later⟩

end

end Entry

namespace Path
variable {p : Path} {n : Bytes}

theorem segments_join (filled : p.bytes ≠ []) (name : IsName n) :
    ∃ front, front ≠ [] ∧ (p.segments = front ∨ p.segments = front ++ [[]]) ∧
      (p.join ⟨n⟩).segments = front ++ [n] := by
  rw [join, if_neg name.relative]
  by_cases ended : p.bytes.getLast? = some slash
  · obtain ⟨early, bytes⟩ := List.getLast?_eq_some_iff.1 ended
    refine ⟨pieces slash early, pieces_ne_nil slash early, .inr ?_, ?_⟩
    · rw [segments, bytes, pieces_append_sep]
      rfl
    · rw [if_pos (by simp [ended]), segments, bytes, List.append_assoc, List.singleton_append,
        pieces_append_sep, pieces_of_notMem name.whole]
  · refine ⟨p.segments, pieces_ne_nil slash p.bytes, .inl rfl, ?_⟩
    rw [if_neg (by simp [ended, filled]), segments, pieces_append_sep, pieces_of_notMem name.whole]
    rfl

theorem prefix_join (name : IsName n) (p : Path) : p.bytes <+: (p.join ⟨n⟩).bytes := by
  rw [join, if_neg name.relative]
  split
  · exact List.prefix_append _ _
  · exact List.prefix_append _ _

theorem splitName_eq_some_iff {extension : Bytes} :
    (splitName n).2 = some extension ↔
      ∃ stem, n = stem ++ dot :: extension ∧ stem ≠ [] ∧ dot ∉ extension := by
  rw [splitName]
  cases cut : cutLast? dot n with
  | none =>
    refine ⟨fun none => (by cases none), ?_⟩
    rintro ⟨stem, whole, _, last⟩
    rw [cutLast?_eq_some_iff.2 ⟨last, whole⟩] at cut
    cases cut
  | some parts =>
    obtain ⟨stem, rest⟩ := parts
    obtain ⟨last, whole⟩ := cutLast?_eq_some_iff.1 cut
    dsimp only
    constructor
    · intro found
      split at found
      · cases found
      · next filled =>
        obtain rfl := Option.some.inj found
        exact ⟨stem, whole, by simpa using filled, last⟩
    · rintro ⟨other, written, filled, free⟩
      rw [cutLast?_eq_some_iff.2 ⟨free, written⟩] at cut
      obtain ⟨rfl, rfl⟩ := Prod.mk.inj (Option.some.inj cut)
      rw [if_neg (by simpa using filled)]

theorem hasExtension_iff {word : String} :
    p.hasExtension word ↔ ∃ stem extension, p.fileName? = some (stem ++ dot :: extension) ∧
      stem ≠ [] ∧ dot ∉ extension ∧ sameBytes extension (Utf8.ofString word) := by
  have parts : ∀ extension, p.extension? = some extension ↔
      ∃ stem, p.fileName? = some (stem ++ dot :: extension) ∧ stem ≠ [] ∧ dot ∉ extension := by
    intro extension
    rw [extension?, Option.bind_eq_some_iff]
    constructor
    · rintro ⟨n, last, split⟩
      obtain ⟨stem, rfl, rest⟩ := splitName_eq_some_iff.1 split
      exact ⟨stem, last, rest⟩
    · rintro ⟨stem, last, rest⟩
      exact ⟨_, last, splitName_eq_some_iff.2 ⟨stem, rfl, rest⟩⟩
  rw [hasExtension]
  split
  · next extension found =>
    constructor
    · intro same
      obtain ⟨stem, last, filled, free⟩ := (parts extension).1 found
      exact ⟨stem, extension, last, filled, free, same⟩
    · rintro ⟨stem, other, last, filled, free, same⟩
      obtain rfl := Option.some.inj (found.symm.trans ((parts other).2 ⟨stem, last, filled, free⟩))
      exact same
  · next none =>
    refine ⟨fun no => (by cases no), ?_⟩
    rintro ⟨stem, extension, last, filled, free, _⟩
    rw [(parts extension).2 ⟨stem, last, filled, free⟩] at none
    cases none

end Path

namespace Sources
variable {fs : FileSystem} {root p : Path} {names : List Bytes}

theorem pathTo_concat (root : Path) (names : List Bytes) (n : Bytes) :
    pathTo root (names ++ [n]) = (pathTo root names).join ⟨n⟩ := List.foldl_concat ..

theorem prefix_pathTo (root : Path) (named : ∀ n ∈ names, IsName n) :
    root.bytes <+: (pathTo root names).bytes := by
  induction names using List.reverseRecOn with
  | nil => exact List.prefix_refl _
  | append_singleton names n ih =>
    obtain ⟨early, last⟩ := List.forall_mem_append.1 named
    rw [pathTo_concat]
    exact (ih early).trans (prefix_join (List.forall_mem_singleton.1 last) _)

theorem pathTo_ne_nil (filled : root.bytes ≠ []) (named : ∀ n ∈ names, IsName n) :
    (pathTo root names).bytes ≠ [] := by
  intro empty
  have start := prefix_pathTo root named
  rw [empty, List.prefix_nil] at start
  exact filled start

theorem segments_pathTo (filled : root.bytes ≠ []) (named : ∀ n ∈ names, IsName n)
    (descends : names ≠ []) :
    ∃ front, front ≠ [] ∧ (root.segments = front ∨ root.segments = front ++ [[]]) ∧
      (pathTo root names).segments = front ++ names := by
  induction names using List.reverseRecOn with
  | nil => exact absurd rfl descends
  | append_singleton names n ih =>
    obtain ⟨early, last⟩ := List.forall_mem_append.1 named
    have name := List.forall_mem_singleton.1 last
    rw [pathTo_concat]
    by_cases none : names = []
    · rw [none]
      exact segments_join filled name
    · obtain ⟨front, begun, written, whole⟩ := ih early none
      obtain ⟨front', _, same | trailing, joined⟩ := segments_join (pathTo_ne_nil filled early) name
      · exact ⟨front, begun, written, by rw [joined, ← same, whole, List.append_assoc]⟩
      · -- the last piece so far is a name, so it is not empty
        have ends := congrArg List.getLast? (whole.symm.trans trailing)
        rw [List.getLast?_append_of_ne_nil _ none, List.getLast?_concat] at ends
        exact absurd rfl (early [] (List.mem_of_getLast? ends)).nonempty

theorem isAbsolute_pathTo_eq (filled : root.bytes ≠ []) (named : ∀ n ∈ names, IsName n) :
    (pathTo root names).isAbsolute = root.isAbsolute := by
  obtain ⟨rest, whole⟩ := prefix_pathTo root named
  rw [isAbsolute, isAbsolute, ← whole, List.head?_append_of_ne_nil _ filled]

theorem components_pathTo (filled : root.bytes ≠ []) (named : ∀ n ∈ names, IsName n) :
    (pathTo root names).components = root.components ++ names.map .name := by
  by_cases none : names = []
  · rw [none]
    simp [pathTo]
  · obtain ⟨front, begun, written, whole⟩ := segments_pathTo filled named none
    have heads : root.segments.head? = front.head? := by
      rcases written with same | trailing
      · rw [same]
      · rw [trailing, List.head?_append_of_ne_nil _ begun]
    have kept : root.segments.filter (fun s => !isFiller s) =
        front.filter fun s => !isFiller s := by
      rcases written with same | trailing
      · rw [same]
      · rw [trailing, List.filter_append]
        exact List.append_nil _
    have pieces : names.filter (fun s => !isFiller s) = names := by
      rw [List.filter_eq_self]
      intro n member
      rw [(named n member).filled]
      rfl
    have parts : names.map component = names.map .name := by
      apply List.map_congr_left
      intro n member
      rw [component, if_neg]
      simpa using (named n member).below
    rw [components, components, start, start, isAbsolute_pathTo_eq filled named, whole, heads, kept,
      List.head?_append_of_ne_nil _ begun, List.filter_append, pieces, List.map_append, parts,
      List.append_assoc]

/-- Different names lead to different places in the order of paths. -/
theorem key_pathTo_injective (filled : root.bytes ≠ []) (named : ∀ n ∈ names, IsName n)
    {others : List Bytes} (otherNamed : ∀ n ∈ others, IsName n)
    (same : (pathTo root names).key = (pathTo root others).key) : names = others := by
  unfold key at same
  rw [List.map_inj_right (fun _ _ => component_key_injective), components_pathTo filled named,
    components_pathTo filled otherNamed, List.append_cancel_left_eq,
    List.map_inj_right (fun _ _ => Component.name.inj)] at same
  exact same

theorem fileName?_pathTo (filled : root.bytes ≠ []) (named : ∀ n ∈ names, IsName n) {n : Bytes}
    (last : names.getLast? = some n) : (pathTo root names).fileName? = some n := by
  have begun : names.map Component.name ≠ [] := by
    intro none
    rw [List.map_eq_nil_iff.1 none] at last
    cases last
  rw [fileName?, components_pathTo filled named, List.getLast?_append_of_ne_nil _ begun,
    List.getLast?_map, last]
  rfl

structure Lists (entries : List (Bytes × Entry)) (names : List Bytes) : Prop where
  file : ∃ content, (Entry.directory entries).descend? names = some (.file content)
  shown : ∀ n ∈ names, n.head? ≠ some dot
  source : ∃ stem extension, names.getLast? = some (stem ++ dot :: extension) ∧ stem ≠ [] ∧
    dot ∉ extension ∧ sameBytes extension (Utf8.ofString "cs")
  notBuilt : ¬ (2 ≤ names.length ∧ ∃ n, names.head? = some n ∧
    (sameBytes n (Utf8.ofString "bin") ∨ sameBytes n (Utf8.ofString "obj")))

theorem isSource_pathTo (filled : root.bytes ≠ []) (named : ∀ n ∈ names, IsName n)
    (descends : names ≠ []) :
    isSource (pathTo root names) ↔
      ∃ stem extension, names.getLast? = some (stem ++ dot :: extension) ∧ stem ≠ [] ∧
        dot ∉ extension ∧ sameBytes extension (Utf8.ofString "cs") := by
  have last := List.getLast?_eq_some_getLast descends
  rw [isSource, hasExtension_iff, fileName?_pathTo filled named last, last]

theorem kept_iff (names : List Bytes) :
    Entry.Kept true names ↔ (∀ n ∈ names, n.head? ≠ some dot) ∧
      ¬ (2 ≤ names.length ∧ ∃ n, names.head? = some n ∧
        (sameBytes n (Utf8.ofString "bin") ∨ sameBytes n (Utf8.ofString "obj"))) := by
  have built : ∀ n, isBuildOutput n = false ↔
      ¬ (sameBytes n (Utf8.ofString "bin") ∨ sameBytes n (Utf8.ofString "obj")) := by
    intro n
    rw [isBuildOutput, Bool.or_eq_false_iff]
    simp
  have hidden : ∀ n, isHidden n = false ↔ n.head? ≠ some dot := by
    intro n
    rw [isHidden, beq_eq_false_iff_ne]
  constructor
  · intro kept
    refine ⟨fun n member => (hidden n).1 (kept.shown n member), ?_⟩
    rintro ⟨long, n, head, output⟩
    exact (built n).1 (kept.notBuilt rfl long n head) output
  · rintro ⟨shown, other⟩
    refine ⟨fun n member => (hidden n).2 (shown n member), ?_⟩
    intro _ long n head
    exact (built n).2 fun output => other ⟨long, n, head, output⟩

section Finding
variable {trail : List (Bytes × Entry)} {entries : List (Bytes × Entry)}

theorem find_file {content : Bytes} (located : fs.locate root = .ok ⟨trail, .file content⟩) :
    (find fs root).value = sorted ([root].filter isSource) := by
  rw [find, located]

theorem mem_find_iff (named : fs.root.wellNamed) (distinct : fs.root.distinct)
    (located : fs.locate root = .ok ⟨trail, .directory entries⟩) :
    p ∈ (find fs root).value ↔ ∃ names, p = pathTo root names ∧ Lists entries names := by
  have filled := (FileSystem.refusal?_eq_none_iff.1 (FileSystem.locate_eq_ok_iff.1 located).1).1
  have inside : Entry.allWellNamed entries := FileSystem.wellNamed_of_locate named located
  have single : Entry.allDistinct entries :=
    Entry.distinct_of_descend? distinct (FileSystem.descend?_names located)
  have below := Entry.isName_of_visibleFiles true entries inside
  have value : (find fs root).value =
      sorted (((Entry.visibleFiles true entries).map (pathTo root)).filter isSource) := by
    rw [find, located]
  have descends : ∀ {names}, (∃ content, (Entry.directory entries).descend? names =
      some (.file content)) → names ≠ [] := by
    rintro _ ⟨_, led⟩ rfl
    cases led
  rw [value, mem_sorted_iff_of_injective, List.mem_filter, List.mem_map]
  · constructor
    · rintro ⟨⟨names, visible, rfl⟩, source⟩
      obtain ⟨file, kept⟩ := (Entry.mem_visibleFiles_iff true entries single names).1 visible
      obtain ⟨shown, notBuilt⟩ := (kept_iff names).1 kept
      rw [isSource_pathTo filled (below names visible) (descends file)] at source
      exact ⟨names, rfl, file, shown, source, notBuilt⟩
    · rintro ⟨names, rfl, file, shown, source, notBuilt⟩
      have visible := (Entry.mem_visibleFiles_iff true entries single names).2
        ⟨file, (kept_iff names).2 ⟨shown, notBuilt⟩⟩
      refine ⟨⟨names, visible, rfl⟩, ?_⟩
      rw [isSource_pathTo filled (below names visible) (descends file)]
      exact source
  · intro p hp q hq same
    obtain ⟨names, visible, rfl⟩ := List.mem_map.1 (List.mem_filter.1 hp).1
    obtain ⟨others, otherVisible, rfl⟩ := List.mem_map.1 (List.mem_filter.1 hq).1
    rw [key_pathTo_injective filled (below names visible) (below others otherVisible) same]

theorem increasing_find (fs : FileSystem) (root : Path) : Increasing (find fs root).value := by
  rw [find]
  split
  · exact List.Pairwise.nil
  · exact sorted_increasing _

theorem isFile_pathTo_iff (located : fs.locate root = .ok ⟨trail, .directory entries⟩)
    (named : ∀ n ∈ names, IsName n) (short : ∀ n ∈ names, n.length ≤ FileSystem.nameLimit)
    (text : 0 ∉ (pathTo root names).bytes)
    (fits : (pathTo root names).bytes.length ≤ FileSystem.pathLimit) :
    fs.isFile (pathTo root names) ↔
      ∃ content, (Entry.directory entries).descend? names = some (.file content) := by
  obtain ⟨accepted, followed⟩ := FileSystem.locate_eq_ok_iff.1 located
  have filled := (FileSystem.refusal?_eq_none_iff.1 accepted).1
  rw [FileSystem.isFile_iff]
  by_cases none : names = []
  · rw [none]
    simp [pathTo, located, Entry.descend?]
  · obtain ⟨front, begun, written, whole⟩ := segments_pathTo filled named none
    let before := if root.isAbsolute then [] else fs.workingDirectory
    have entered : FileSystem.follow fs.root [] (before ++ front) =
        .ok ⟨trail, .directory entries⟩ := by
      rw [FileSystem.route] at followed
      rcases written with same | trailing
      · rwa [same] at followed
      · rw [trailing, ← List.append_assoc] at followed
        exact FileSystem.follow_trailing followed
    have here : FileSystem.entryAt fs.root trail = .directory entries :=
      (FileSystem.entry_follow followed).symm
    have onward : fs.locate (pathTo root names) = FileSystem.follow fs.root trail names := by
      have usable := FileSystem.refusal?_eq_none_iff.2 ⟨pathTo_ne_nil filled named, text, fits⟩
      rw [FileSystem.locate_eq, usable, FileSystem.route, isAbsolute_pathTo_eq filled named, whole,
        ← List.append_assoc, FileSystem.follow_append, entered]
      rfl
    simp only [onward, FileSystem.follow_names named short, here]

/-- The sources of a directory are its files with the extension of a source, hidden names and build
output right below the root apart. They are listed in the order of paths, each once. -/
theorem find_lists_sources (named : fs.root.wellNamed) (distinct : fs.root.distinct)
    (located : fs.locate root = .ok ⟨trail, .directory entries⟩) :
    Increasing (find fs root).value ∧
      (∀ p, p ∈ (find fs root).value ↔ ∃ names, p = pathTo root names ∧ Lists entries names) ∧
      ∀ names : List Bytes, (∀ n ∈ names, IsName n) →
        (∀ n ∈ names, n.length ≤ FileSystem.nameLimit) → 0 ∉ (pathTo root names).bytes →
        (pathTo root names).bytes.length ≤ FileSystem.pathLimit →
        (fs.isFile (pathTo root names) ↔
          ∃ content, (Entry.directory entries).descend? names = some (.file content)) := by
  refine ⟨increasing_find fs root, fun p => mem_find_iff named distinct located, ?_⟩
  intro names each short text fits
  exact isFile_pathTo_iff located each short text fits

end Finding

def mixedEntries : List (Bytes × Entry) :=
  [(Utf8.ofString "bin", .directory [(Utf8.ofString "Out.cs", .file [])]),
   (Utf8.ofString "obj", .file []),
   (Utf8.ofString "lib", .directory
      [(Utf8.ofString "bin", .directory [(Utf8.ofString "Kept.cs", .file [])]),
       (Utf8.ofString ".Gone.cs", .file [])]),
   (Utf8.ofString "Main.CS", .file []),
   (Utf8.ofString "notes.txt", .file [])]

def mixedTree : FileSystem :=
  { root := .directory [(Utf8.ofString "w", .directory
      [(Utf8.ofString ".src", .directory mixedEntries)])]
    workingDirectory := [Utf8.ofString "w"] }

theorem mixedTree_sources :
    (∀ p, p ∈ [Path.ofString ".src/Main.CS", .ofString ".src/lib/bin/Kept.cs"] ↔
      ∃ names, p = pathTo (.ofString ".src/") names ∧ Lists mixedEntries names) ∧
    mixedTree.isFile (.ofString ".src/lib/bin/Kept.cs") := by
  let root : Path := .ofString ".src/"
  let names := [Utf8.ofString "lib", Utf8.ofString "bin", Utf8.ofString "Kept.cs"]
  have located : ∃ trail, mixedTree.locate root = .ok ⟨trail, .directory mixedEntries⟩ :=
    ⟨[(Utf8.ofString ".src", .directory mixedEntries), _], rfl⟩
  obtain ⟨trail, located⟩ := located
  obtain ⟨_, members, files⟩ := find_lists_sources (by decide) (by decide) located
  have value : (find mixedTree root).value =
      [.ofString ".src/Main.CS", .ofString ".src/lib/bin/Kept.cs"] := by
    decide +kernel
  have named : ∀ n ∈ names, IsName n := by decide
  refine ⟨fun p => value ▸ members p, ?_⟩
  exact (files names named (by decide) (by decide) (by decide)).2 ⟨[], rfl⟩

end Sources
end CodeAtlas
