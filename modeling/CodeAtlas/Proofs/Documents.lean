import CodeAtlas.Proofs.CanonicalPaths
import Mathlib.Data.List.Lex
import Mathlib.Logic.Relation

/-!
The documents of a project. All of them have canonical paths, whether they are found by a walk through
the project's directory or listed in its file, and an ordered list of canonical paths is given by its
members. So nothing is said twice, and how the listed items are grouped makes no difference.
-/
namespace CodeAtlas
open Text

namespace Path

section Order
variable {p q : Path} {l : List Path}

def Increasing (l : List Path) : Prop := l.Pairwise fun p q => p.key < q.key

theorem insert_increasing (h : Increasing l) (p : Path) : Increasing (insert p l) := by
  induction l with
  | nil => exact List.pairwise_singleton _ p
  | cons q rest ih =>
    obtain ⟨first, later⟩ := List.pairwise_cons.1 h
    unfold insert
    split
    · next less =>
      apply List.pairwise_cons.2
      refine ⟨?_, h⟩
      intro r member
      rcases List.mem_cons.1 member with rfl | after
      · exact less
      · exact List.lt_trans less (first r after)
    · next notLess =>
      split
      · exact h
      · next differs =>
        apply List.pairwise_cons.2
        refine ⟨?_, ih later⟩
        intro r member
        rcases mem_insert member with rfl | after
        · exact lt_of_le_of_ne (not_lt.1 notLess) (Ne.symm differs)
        · exact first r after

theorem mem_insert_of_mem (h : q ∈ l) (p : Path) : q ∈ insert p l := by
  induction l with
  | nil => cases h
  | cons first rest ih =>
    unfold insert
    split
    · exact List.mem_cons_of_mem p h
    · split
      · exact h
      · rcases List.mem_cons.1 h with rfl | after
        · exact List.mem_cons_self
        · exact List.mem_cons_of_mem first (ih after)

theorem mem_insert_self (h : ∀ q ∈ l, p.key = q.key → p = q) : p ∈ insert p l := by
  induction l with
  | nil => exact List.mem_cons_self
  | cons first rest ih =>
    unfold insert
    split
    · exact List.mem_cons_self
    · split
      · next same =>
        rw [h first List.mem_cons_self same]
        exact List.mem_cons_self
      · apply List.mem_cons_of_mem
        apply ih
        intro q member
        exact h q (List.mem_cons_of_mem first member)

theorem sorted_increasing (paths : List Path) : Increasing (sorted paths) := by
  unfold sorted
  induction paths using List.reverseRecOn with
  | nil => exact List.Pairwise.nil
  | append_singleton paths p ih =>
    rw [List.foldl_concat]
    exact insert_increasing ih p

theorem mem_sorted_iff_of_injective {paths : List Path}
    (h : ∀ p ∈ paths, ∀ q ∈ paths, p.key = q.key → p = q) : p ∈ sorted paths ↔ p ∈ paths := by
  constructor
  · exact mem_sorted
  · intro member
    induction paths using List.reverseRecOn with
    | nil => cases member
    | append_singleton paths q ih =>
      have early : ∀ p ∈ paths, ∀ q ∈ paths, p.key = q.key → p = q := by
        intro p hp r hr
        exact h p (List.mem_append_left [q] hp) r (List.mem_append_left [q] hr)
      unfold sorted
      rw [List.foldl_concat]
      rcases List.mem_append.1 member with before | last
      · exact mem_insert_of_mem (ih early before) q
      · obtain rfl := List.mem_singleton.1 last
        apply mem_insert_self
        intro q found
        exact h p member q (List.mem_append_left [p] (mem_sorted found))

theorem mem_sorted_iff {paths : List Path} (h : ∀ p ∈ paths, Canonical p) :
    p ∈ sorted paths ↔ p ∈ paths := by
  apply mem_sorted_iff_of_injective
  intro p hp q hq
  exact key_injective (h p hp) (h q hq)

theorem eq_of_increasing {l m : List Path} (hl : Increasing l) (hm : Increasing m)
    (same : ∀ p, p ∈ l ↔ p ∈ m) : l = m := by
  have nodup : ∀ {l : List Path}, Increasing l → l.Nodup := by
    intro l increasing
    apply increasing.imp
    rintro p q less rfl
    exact lt_irrefl _ less
  apply List.Perm.eq_of_pairwise _ hl hm ((List.perm_ext_iff_of_nodup (nodup hl) (nodup hm)).2 same)
  intro p q _ _ less greater
  exact absurd (List.lt_trans less greater) (lt_irrefl _)

theorem sorted_congr {l m : List Path} (hl : ∀ p ∈ l, Canonical p) (same : ∀ p, p ∈ l ↔ p ∈ m) :
    sorted l = sorted m := by
  have hm : ∀ p ∈ m, Canonical p := by
    intro p member
    exact hl p ((same p).2 member)
  apply eq_of_increasing (sorted_increasing l) (sorted_increasing m)
  intro p
  rw [mem_sorted_iff hl, mem_sorted_iff hm, same]

end Order
end Path

open Path

namespace Entry

mutual

/-- Names in directories are not empty and hold no slash. -/
def wellNamed : Entry → Bool
  | .file _ => true
  | .directory entries => allWellNamed entries

def allWellNamed : List (Bytes × Entry) → Bool
  | [] => true
  | (name, e) :: rest =>
    !name.isEmpty && !name.contains slash && wellNamed e && allWellNamed rest

end

theorem allWellNamed_cons {name : Bytes} {e : Entry} {rest : List (Bytes × Entry)}
    (h : allWellNamed ((name, e) :: rest)) :
    name ≠ [] ∧ slash ∉ name ∧ e.wellNamed ∧ allWellNamed rest := by
  rw [allWellNamed] at h
  simpa [and_assoc] using h

theorem wellNamed_of_lookup {entries : List (Bytes × Entry)} (h : allWellNamed entries) {name : Bytes}
    {e : Entry} (found : entries.lookup name = some e) : e.wellNamed := by
  induction entries with
  | nil => cases found
  | cons first rest ih =>
    obtain ⟨_, _, inner, others⟩ := allWellNamed_cons h
    rw [List.lookup_cons] at found
    split at found
    · rw [← Option.some.inj found]
      exact inner
    · exact ih others found

theorem isName_of_visible {name : Bytes} (shown : isHidden name = false) (filled : name ≠ [])
    (whole : slash ∉ name) : IsName name := by
  have notHere : name ≠ [dot] := by
    rintro rfl
    cases shown
  have notUp : name ≠ [dot, dot] := by
    rintro rfl
    cases shown
  exact ⟨by simp [isFiller, filled, notHere], notUp, whole⟩

mutual

theorem isName_of_visibleFiles (top : Bool) (entries : List (Bytes × Entry))
    (h : allWellNamed entries) : ∀ names ∈ visibleFiles top entries, ∀ n ∈ names, IsName n := by
  intro names member
  match entries with
  | [] => cases member
  | (name, e) :: rest =>
    obtain ⟨filled, whole, inner, others⟩ := allWellNamed_cons h
    rw [visibleFiles, List.mem_append] at member
    rcases member with here | later
    · exact isName_of_visibleAt top name e filled whole inner names here
    · exact isName_of_visibleFiles top rest others names later

theorem isName_of_visibleAt (top : Bool) (name : Bytes) (e : Entry) (filled : name ≠ [])
    (whole : slash ∉ name) (h : e.wellNamed) :
    ∀ names ∈ visibleAt top name e, ∀ n ∈ names, IsName n := by
  intro names member
  match e with
  | .file _ =>
    rw [visibleAt] at member
    split at member
    · cases member
    · next shown =>
      rw [List.mem_singleton.1 member]
      intro n last
      rw [List.mem_singleton.1 last]
      exact isName_of_visible (by simpa using shown) filled whole
  | .directory entries =>
    rw [visibleAt] at member
    split at member
    · cases member
    · next shown =>
      obtain ⟨inner, found, rfl⟩ := List.mem_map.1 member
      have below := isName_of_visibleFiles false entries h inner found
      have visible : isHidden name = false := by
        rw [Bool.or_eq_true, not_or] at shown
        simpa using shown.1
      intro n passed
      rcases List.mem_cons.1 passed with rfl | later
      · exact isName_of_visible visible filled whole
      · exact below n later

end

end Entry

namespace FileSystem

theorem wellNamed_of_follow {root : Entry} (h : root.wellNamed) {segments : List Bytes}
    {trail : List (Bytes × Entry)} (passed : ∀ x ∈ trail, x.2.wellNamed) {l : Located}
    (found : follow root trail segments = .ok l) : l.entry.wellNamed := by
  have here : ∀ trail : List (Bytes × Entry), (∀ x ∈ trail, x.2.wellNamed) →
      (entryAt root trail).wellNamed := by
    intro trail passed
    cases trail with
    | nil => exact h
    | cons last rest => exact passed last List.mem_cons_self
  induction segments generalizing trail with
  | nil =>
    rw [← Except.ok.inj found]
    exact here trail passed
  | cons segment rest ih =>
    rw [follow] at found
    split at found
    · cases found
    · next entries current =>
      split at found
      · exact ih passed found
      · split at found
        · apply ih _ found
          intro x member
          exact passed x (List.mem_of_mem_drop member)
        · split at found
          · cases found
          · split at found
            · cases found
            · next e entered =>
              apply ih _ found
              intro x member
              rcases List.mem_cons.1 member with rfl | before
              · have inside := here trail passed
                rw [current] at inside
                exact Entry.wellNamed_of_lookup inside entered
              · exact passed x before

theorem wellNamed_of_locate {fs : FileSystem} (h : fs.root.wellNamed) {p : Path} {l : Located}
    (found : fs.locate p = .ok l) : l.entry.wellNamed := by
  unfold locate at found
  repeat' split at found
  all_goals first | cases found | exact wellNamed_of_follow h (by simp) found

end FileSystem

namespace Sources

theorem pathTo_ofNames {root names : List Bytes} (h : ∀ n ∈ root, IsName n)
    (below : ∀ n ∈ names, IsName n) : pathTo (ofNames true root) names = ofNames true (root ++ names) := by
  induction names generalizing root with
  | nil =>
    rw [List.append_nil]
    rfl
  | cons n names ih =>
    have name := below n List.mem_cons_self
    have all : ∀ m ∈ root ++ [n], IsName m :=
      List.forall_mem_append.2 ⟨h, List.forall_mem_singleton.2 name⟩
    change pathTo ((ofNames true root).join ⟨n⟩) names = _
    rw [join_ofNames h name, ih all]
    · rw [List.append_assoc]
      rfl
    · intro m member
      exact below m (List.mem_cons_of_mem n member)

theorem canonical_find {fs : FileSystem} (h : fs.root.wellNamed) {root p : Path}
    (canonical : Canonical root) (found : p ∈ (find fs root).value) : Canonical p := by
  unfold find at found
  split at found
  · cases found
  · next trail entry located =>
    obtain ⟨listed, _⟩ := List.mem_filter.1 (mem_sorted found)
    split at listed
    · rw [List.mem_singleton.1 listed]
      exact canonical
    · next entries =>
      obtain ⟨names, visible, rfl⟩ := List.mem_map.1 listed
      obtain ⟨front, named, rfl⟩ := canonical
      have inside : Entry.allWellNamed entries := FileSystem.wellNamed_of_locate h located
      have below := Entry.isName_of_visibleFiles true entries inside names visible
      rw [pathTo_ofNames named below]
      exact ⟨front ++ names, List.forall_mem_append.2 ⟨named, below⟩, rfl⟩

end Sources

namespace Project

/-- Other ways to group the same items: in another order, some of them said again, and several in one
value. -/
inductive Regrouped : List (List Char) → List (List Char) → Prop where
  | reordered {includes others : List (List Char)} : includes.Perm others → Regrouped includes others
  | repeated (value : List Char) (rest : List (List Char)) :
      Regrouped (value :: rest) (value :: value :: rest)
  | merged (first second : List Char) (rest : List (List Char)) :
      Regrouped (first :: second :: rest) ((first ++ ';' :: second) :: rest)
  | symm {includes others : List (List Char)} : Regrouped includes others → Regrouped others includes
  | trans {includes others more : List (List Char)} : Regrouped includes others →
      Regrouped others more → Regrouped includes more

theorem Regrouped.mem_items_iff {includes others : List (List Char)} (h : Regrouped includes others)
    (item : List Char) : item ∈ includes.flatMap items ↔ item ∈ others.flatMap items := by
  induction h with
  | reordered same => exact (same.flatMap_right items).mem_iff
  | repeated value rest => simp
  | merged first second rest =>
    have both : items (first ++ ';' :: second) = items first ++ items second := by
      unfold items
      rw [pieces_append_sep, List.map_append, List.filter_append]
    rw [List.flatMap_cons, List.flatMap_cons, List.flatMap_cons, both, List.append_assoc]
  | symm _ ih => exact ih.symm
  | trans _ _ first second => exact first.trans second

def NamesFile (piece : List Char) : Prop :=
  trim piece ≠ [] ∧ '*' ∉ trim piece ∧ ¬ "$(".toList <:+: trim piece

theorem isPattern_iff (item : List Char) : isPattern item ↔ '*' ∈ item ∨ "$(".toList <:+: item := by
  unfold isPattern
  rw [Bool.or_eq_true, List.contains_iff_mem, cutAt?_isSome_iff (by decide)]

theorem mem_items_iff {item : List Char} {includes : List (List Char)} :
    item ∈ includes.flatMap items ∧ ¬ isPattern item ↔
      ∃ value ∈ includes, ∃ piece ∈ pieces ';' value, NamesFile piece ∧ item = trim piece := by
  rw [isPattern_iff, not_or, List.mem_flatMap]
  unfold items NamesFile
  constructor
  · rintro ⟨⟨value, given, found⟩, single⟩
    obtain ⟨listed, filled⟩ := List.mem_filter.1 found
    obtain ⟨piece, member, rfl⟩ := List.mem_map.1 listed
    exact ⟨value, given, piece, member, ⟨by simpa using filled, single⟩, rfl⟩
  · rintro ⟨value, given, piece, member, ⟨filled, single⟩, rfl⟩
    refine ⟨⟨value, given, List.mem_filter.2 ⟨?_, by simpa using filled⟩⟩, single⟩
    exact List.mem_map_of_mem member

section Documents
variable {fs : FileSystem} {directory p : Path} {file : ProjectFile}

def gathered (fs : FileSystem) (directory : Path) (file : ProjectFile) : List Path :=
  (if file.isSdk && !file.defaultsOff then Sources.find fs directory else ⟨[], []⟩).value ++
    ((file.includes.flatMap items).filter fun item => !isPattern item).map directory.resolve

theorem mem_gathered_iff :
    p ∈ gathered fs directory file ↔
      (file.isSdk ∧ ¬ file.defaultsOff ∧ p ∈ (Sources.find fs directory).value) ∨
        ∃ item ∈ file.includes.flatMap items, ¬ isPattern item ∧ p = directory.resolve item := by
  unfold gathered
  rw [List.mem_append]
  apply or_congr
  · cases file.isSdk <;> cases file.defaultsOff <;> simp
  · simp only [List.mem_map, List.mem_filter, and_assoc, eq_comm]
    simp

theorem canonical_gathered (h : fs.root.wellNamed) (canonical : Canonical directory)
    (found : p ∈ gathered fs directory file) : Canonical p := by
  rw [mem_gathered_iff] at found
  rcases found with ⟨_, _, scanned⟩ | ⟨item, _, _, rfl⟩
  · exact Sources.canonical_find h canonical scanned
  · exact canonical_normalize (isAbsolute_join canonical.isAbsolute _)

theorem documentsOf_regrouped (h : fs.root.wellNamed) (canonical : Canonical directory)
    {others : List (List Char)} (same : Regrouped file.includes others) :
    (documentsOf fs directory { file with includes := others }).value =
      (documentsOf fs directory file).value := by
  symm
  apply sorted_congr
  · intro p found
    exact canonical_gathered h canonical found
  · intro p
    change p ∈ gathered fs directory file ↔
      p ∈ gathered fs directory { file with includes := others }
    rw [mem_gathered_iff, mem_gathered_iff]
    simp only [same.mem_items_iff]

theorem mem_documentsOf_iff (h : fs.root.wellNamed) (canonical : Canonical directory) :
    p ∈ (documentsOf fs directory file).value ↔
      (file.isSdk ∧ ¬ file.defaultsOff ∧ p ∈ (Sources.find fs directory).value) ∨
        ∃ value ∈ file.includes, ∃ piece ∈ pieces ';' value,
          NamesFile piece ∧ p = directory.resolve (trim piece) := by
  have kept : p ∈ (documentsOf fs directory file).value ↔ p ∈ gathered fs directory file :=
    mem_sorted_iff fun p found => canonical_gathered h canonical found
  rw [kept, mem_gathered_iff]
  apply or_congr_right
  constructor
  · rintro ⟨item, listed, single, rfl⟩
    obtain ⟨value, given, piece, member, names, rfl⟩ := mem_items_iff.1 ⟨listed, single⟩
    exact ⟨value, given, piece, member, names, rfl⟩
  · rintro ⟨value, given, piece, member, names, rfl⟩
    obtain ⟨listed, single⟩ := mem_items_iff.2 ⟨value, given, piece, member, names, rfl⟩
    exact ⟨trim piece, listed, single, rfl⟩

/-- The documents of a project that can be read are those its file asks for, each once and in order,
under paths that do not depend on how the file spells and groups its items. -/
theorem documents_follow_file {path : Path} {text : List Char} (h : fs.root.wellNamed)
    (absolute : path.isAbsolute) (normal : path.normalize = path)
    (read : fs.readText path = .ok text) (parsed : ProjectFile.parse text = .ok file)
    (name : String) :
    ∃ directory documents, path.parent? = some directory ∧
      (load fs name path).value = ⟨name, path, documents⟩ ∧ Increasing documents ∧
      (∀ p ∈ documents, p.isAbsolute ∧ [dot] ∉ p.segments ∧ [dot, dot] ∉ p.segments) ∧
      (∀ p, p ∈ documents ↔
        (file.isSdk ∧ ¬ file.defaultsOff ∧ p ∈ (Sources.find fs directory).value) ∨
          ∃ value ∈ file.includes, ∃ piece ∈ pieces ';' value,
            NamesFile piece ∧ p = directory.resolve (trim piece)) ∧
      (∀ s t, Relation.EqvGen Respelled s t → directory.resolve s = directory.resolve t) ∧
      ∀ others, Regrouped file.includes others →
        (documentsOf fs directory { file with includes := others }).value = documents := by
  obtain ⟨directory, parent, _⟩ := FileSystem.parent?_of_readText absolute read
  have canonical : Canonical directory := (canonical_iff.2 ⟨absolute, normal⟩).parent? parent
  have loaded : documentsAt fs path = documentsOf fs directory file := by
    unfold documentsAt
    rw [read]
    dsimp only
    rw [parsed, parent]
    rfl
  refine ⟨directory, (documentsOf fs directory file).value, parent, ?_, sorted_increasing _, ?_, ?_,
    ?_, ?_⟩
  · unfold load
    rw [loaded]
  · intro p member
    have good := canonical_gathered h canonical (mem_sorted member)
    exact ⟨good.isAbsolute, good.straight⟩
  · intro p
    exact mem_documentsOf_iff h canonical
  · intro s t same
    induction same with
    | rel s t step => exact resolve_respelled canonical.isAbsolute step
    | refl => rfl
    | symm s t _ ih => exact ih.symm
    | trans r s t _ _ first second => exact first.trans second
  · intro others same
    exact documentsOf_regrouped h canonical same

end Documents

def manySpellings : FileSystem :=
  { root := .directory [(Utf8.ofString "w", .directory
      [(Utf8.ofString "App.csproj", .file (Utf8.ofString
          "<Project Sdk=\"x\"><Compile Include=\".\\A.cs;B.cs; obj\\..\\A.cs\"/></Project>")),
       (Utf8.ofString "A.cs", .file [])])] }

theorem manySpellings_documents :
    ∃ directory, (Path.ofString "/w/App.csproj").parent? = some directory ∧
      (load manySpellings "App" (.ofString "/w/App.csproj")).value.documents =
        [.ofString "/w/A.cs", .ofString "/w/B.cs"] ∧
      (documentsOf manySpellings directory ⟨true, false, ["B.cs".toList, ".\\A.cs".toList,
          " obj\\..\\A.cs".toList, "B.cs".toList]⟩).value =
        [.ofString "/w/A.cs", .ofString "/w/B.cs"] := by
  let path : Path := .ofString "/w/App.csproj"
  let here := ".\\A.cs".toList
  let other := "B.cs".toList
  let detour := " obj\\..\\A.cs".toList
  let file : ProjectFile := ⟨true, false, [here ++ ';' :: (other ++ ';' :: detour)]⟩
  let text :=
    "<Project Sdk=\"x\"><Compile Include=\".\\A.cs;B.cs; obj\\..\\A.cs\"/></Project>".toList
  have read : manySpellings.readText path = .ok text := by decide +kernel
  have parsed : ProjectFile.parse text = .ok file := by decide +kernel
  have split : Regrouped file.includes [other, here, detour, other] := by
    have first : Regrouped file.includes [here, other ++ ';' :: detour] :=
      .symm (.merged here (other ++ ';' :: detour) [])
    have swapped : Regrouped [here, other ++ ';' :: detour] [other ++ ';' :: detour, here] :=
      .reordered (by decide)
    have second : Regrouped [other ++ ';' :: detour, here] [other, detour, here] :=
      .symm (.merged other detour [here])
    have again : Regrouped [other, detour, here] [other, other, detour, here] := .repeated other _
    have last : Regrouped [other, other, detour, here] [other, here, detour, other] :=
      .reordered (by decide)
    exact (((first.trans swapped).trans second).trans again).trans last
  obtain ⟨directory, documents, parent, loaded, _, _, _, _, regrouped⟩ :=
    documents_follow_file (by decide) (by decide) (by decide) read parsed "App"
  have listed : documents = [.ofString "/w/A.cs", .ofString "/w/B.cs"] := by
    have found : (load manySpellings "App" path).value.documents =
        [.ofString "/w/A.cs", .ofString "/w/B.cs"] := by
      decide +kernel
    rwa [loaded] at found
  exact ⟨directory, parent, by rw [loaded, listed], by rw [← listed]; exact regrouped _ split⟩

end Project
end CodeAtlas
