import CodeAtlas.Proofs.LineIndex
import CodeAtlas.Proofs.Paths
import CodeAtlas.Proofs.TextParts
import Mathlib.Data.List.Basic

/-!
Canonical paths: absolute ones that lead through names only. Normalising an absolute path walks its
pieces, so it gives a canonical path and leaves those as they are; joining a name to a canonical path
and taking its directory keep it canonical. A text that is resolved in a directory is walked from
there, whichever of its spellings is used.
-/
namespace CodeAtlas
open Text

namespace Path

/-- A piece that leads somewhere below. -/
structure IsName (s : Bytes) : Prop where
  filled : isFiller s = false
  below : s ≠ [dot, dot]
  whole : slash ∉ s

instance (s : Bytes) : Decidable (IsName s) :=
  decidable_of_iff (isFiller s = false ∧ s ≠ [dot, dot] ∧ slash ∉ s)
    ⟨fun ⟨filled, below, whole⟩ => ⟨filled, below, whole⟩, fun h => ⟨h.filled, h.below, h.whole⟩⟩

theorem IsName.nonempty {s : Bytes} (h : IsName s) : s ≠ [] := by
  rintro rfl
  cases h.filled

theorem IsName.relative {s : Bytes} (h : IsName s) : ¬ (Path.mk s).isAbsolute := by
  intro absolute
  obtain ⟨rest, bytes⟩ := isAbsolute_iff.1 absolute
  have same : s = slash :: rest := bytes
  exact h.whole (same ▸ List.mem_cons_self)

def Canonical (p : Path) : Prop := ∃ names, (∀ n ∈ names, IsName n) ∧ p = ofNames true names

section Walks

/-- Where a piece leads from the given names, the innermost first. -/
def walk (names : List Bytes) (segment : Bytes) : List Bytes :=
  if isFiller segment then names else step names (component segment)

def walkAll (names : List Bytes) (bytes : Bytes) : List Bytes :=
  (pieces slash bytes).foldl walk names

theorem walk_filler (names : List Bytes) {s : Bytes} (h : isFiller s) : walk names s = names := by
  rw [walk, if_pos h]

theorem walk_parent (names : List Bytes) : walk names [dot, dot] = names.drop 1 := rfl

theorem walk_name (names : List Bytes) {s : Bytes} (h : IsName s) : walk names s = s :: names := by
  have name : component s = .name s := by
    rw [component, if_neg]
    simpa using h.below
  rw [walk, if_neg (by simp [h.filled]), name]
  rfl

theorem walk_isName {names : List Bytes} (h : ∀ n ∈ names, IsName n) {s : Bytes}
    (whole : slash ∉ s) : ∀ n ∈ walk names s, IsName n := by
  by_cases filler : isFiller s
  · rw [walk_filler names filler]
    exact h
  · by_cases up : s = [dot, dot]
    · rw [up, walk_parent]
      intro n member
      exact h n (List.mem_of_mem_drop member)
    · have name : IsName s := ⟨by simpa using filler, up, whole⟩
      rw [walk_name names name]
      intro n member
      rcases List.mem_cons.1 member with rfl | later
      · exact name
      · exact h n later

theorem walkAll_isName {names : List Bytes} (h : ∀ n ∈ names, IsName n) (bytes : Bytes) :
    ∀ n ∈ walkAll names bytes, IsName n := by
  have walked : ∀ segments : List Bytes, (∀ s ∈ segments, slash ∉ s) →
      ∀ names : List Bytes, (∀ n ∈ names, IsName n) →
        ∀ n ∈ segments.foldl walk names, IsName n := by
    intro segments
    induction segments with
    | nil =>
      intro _ names named
      exact named
    | cons s segments ih =>
      intro whole names named
      apply ih
      · intro t member
        exact whole t (List.mem_cons_of_mem s member)
      · exact walk_isName named (whole s List.mem_cons_self)
  exact walked _ (fun s member => notMem_of_mem_pieces member) names h

theorem walkAll_slash (names : List Bytes) (front back : Bytes) :
    walkAll names (front ++ slash :: back) = walkAll (walkAll names front) back := by
  unfold walkAll
  rw [pieces_append_sep, List.foldl_append]

theorem walkAll_nil (names : List Bytes) : walkAll names [] = names := rfl

theorem walkAll_single (names : List Bytes) {s : Bytes} (whole : slash ∉ s) :
    walkAll names s = walk names s := by
  unfold walkAll
  rw [pieces_of_notMem whole]
  rfl

/-- A new piece begins after the given bytes. -/
def Ready (front : Bytes) : Prop := front = [] ∨ front.getLast? = some slash

theorem walkAll_append {front : Bytes} (h : Ready front) (names : List Bytes) (back : Bytes) :
    walkAll names (front ++ back) = walkAll (walkAll names front) back := by
  rcases h with rfl | last
  · rfl
  · obtain ⟨early, rfl⟩ := List.getLast?_eq_some_iff.1 last
    have first := walkAll_slash names early []
    rw [walkAll_nil] at first
    rw [List.append_assoc, List.singleton_append, walkAll_slash, first]

theorem walkAll_ofNames {names : List Bytes} (h : ∀ n ∈ names, IsName n) (start : List Bytes) :
    walkAll start ([slash].intercalate names) = names.reverse ++ start := by
  induction names generalizing start with
  | nil => rfl
  | cons first rest ih =>
    have head := h first List.mem_cons_self
    have tail : ∀ n ∈ rest, IsName n := fun n member => h n (List.mem_cons_of_mem _ member)
    cases rest with
    | nil =>
      rw [List.intercalate_singleton, walkAll_single _ head.whole, walk_name _ head]
      rfl
    | cons second others =>
      rw [List.intercalate_cons_cons, List.append_assoc, List.singleton_append, walkAll_slash,
        walkAll_single _ head.whole, walk_name _ head, ih tail]
      simp

end Walks

section Canonical
variable {p q : Path} {names : List Bytes}

theorem normalize_eq (h : p.isAbsolute) : p.normalize = ofNames true (walkAll [] p.bytes).reverse := by
  have walked : p.components.foldl step [] = walkAll [] p.bytes := by
    rw [components_of_isAbsolute h, List.foldl_cons, List.foldl_map, List.foldl_filter]
    unfold walkAll
    congr 1
    funext names s
    unfold walk
    cases isFiller s <;> rfl
  rw [normalize, h, walked]

theorem canonical_normalize (h : p.isAbsolute) : Canonical p.normalize := by
  refine ⟨_, ?_, normalize_eq h⟩
  intro n member
  exact walkAll_isName (by simp) p.bytes n (List.mem_reverse.1 member)

theorem walkAll_canonical (h : ∀ n ∈ names, IsName n) :
    walkAll [] (ofNames true names).bytes = names.reverse := by
  have walked := walkAll_slash [] [] ([slash].intercalate names)
  rw [walkAll_nil, walkAll_ofNames h, List.append_nil] at walked
  exact walked

theorem Canonical.isAbsolute (h : Canonical p) : p.isAbsolute := by
  obtain ⟨names, _, rfl⟩ := h
  exact isAbsolute_ofNames names

/-- Canonical paths are the absolute ones that normalising leaves as they are. -/
theorem canonical_iff : Canonical p ↔ p.isAbsolute ∧ p.normalize = p := by
  constructor
  · intro h
    refine ⟨h.isAbsolute, ?_⟩
    obtain ⟨names, named, rfl⟩ := h
    rw [normalize_eq (isAbsolute_ofNames names), walkAll_canonical named, List.reverse_reverse]
  · rintro ⟨absolute, same⟩
    rw [← same]
    exact canonical_normalize absolute

theorem segments_ofNames (h : ∀ n ∈ names, IsName n) (filled : names ≠ []) :
    (ofNames true names).segments = [] :: names := by
  have inner : pieces slash ([slash].intercalate names) = names :=
    pieces_intercalate (fun n member => (h n member).whole) filled
  change pieces slash (slash :: [slash].intercalate names) = _
  rw [pieces, if_pos rfl, inner]

theorem Canonical.straight (h : Canonical p) : [dot] ∉ p.segments ∧ [dot, dot] ∉ p.segments := by
  obtain ⟨names, named, rfl⟩ := h
  by_cases filled : names = []
  · rw [filled]
    decide
  · rw [segments_ofNames named filled]
    constructor
    · intro member
      cases (named _ (List.mem_of_ne_of_mem (by decide) member)).filled
    · intro member
      exact (named _ (List.mem_of_ne_of_mem (by decide) member)).below rfl

theorem filter_segments_ofNames (h : ∀ n ∈ names, IsName n) :
    (ofNames true names).segments.filter (fun s => !isFiller s) = names := by
  by_cases filled : names = []
  · rw [filled]
    rfl
  · rw [segments_ofNames h filled, List.filter_cons_of_neg (by decide), List.filter_eq_self]
    intro n member
    rw [(h n member).filled]
    rfl

theorem components_ofNames (h : ∀ n ∈ names, IsName n) :
    (ofNames true names).components = .root :: names.map .name := by
  rw [components_of_isAbsolute (isAbsolute_ofNames names), filter_segments_ofNames h]
  congr 1
  apply List.map_congr_left
  intro n member
  rw [component, if_neg]
  simpa using (h n member).below

theorem fileName?_ofNames (h : ∀ n ∈ names, IsName n) :
    (ofNames true names).fileName? = names.getLast? := by
  rw [fileName?, components_ofNames h]
  obtain rfl | ⟨early, n, rfl⟩ := List.eq_nil_or_concat' names
  · rfl
  · rw [List.map_append, ← List.cons_append, List.map_singleton, List.getLast?_concat,
      List.getLast?_concat]

theorem component_key_injective {a b : Component} (same : a.key = b.key) : a = b := by
  have bytes : ∀ m n : Bytes, m.map UInt8.toNat = n.map UInt8.toNat ↔ m = n :=
    fun m n => List.map_inj_right fun _ _ => UInt8.toNat_inj.1
  cases a <;> cases b <;> simp_all [Component.key]

theorem key_injective (hp : Canonical p) (hq : Canonical q) (same : p.key = q.key) : p = q := by
  obtain ⟨names, named, rfl⟩ := hp
  obtain ⟨others, otherNamed, rfl⟩ := hq
  unfold key at same
  rw [List.map_inj_right (fun _ _ => component_key_injective), components_ofNames named,
    components_ofNames otherNamed, List.cons.injEq,
    List.map_inj_right (fun _ _ => Component.name.inj)] at same
  rw [same.2]

theorem ofNames_concat (filled : names ≠ []) (n : Bytes) :
    (ofNames true (names ++ [n])).bytes = (ofNames true names).bytes ++ slash :: n := by
  change slash :: [slash].intercalate (names ++ [n]) = _
  rw [intercalate_concat slash filled]
  rfl

theorem getLast?_ofNames (h : ∀ n ∈ names, IsName n) (filled : names ≠ []) :
    (ofNames true names).bytes.getLast? ≠ some slash := by
  -- the last byte is in the last name, which is not empty
  have ends : ∀ (early : Bytes) {n : Bytes}, IsName n → (early ++ n).getLast? ≠ some slash := by
    intro early n name last
    rw [List.getLast?_append_of_ne_nil _ name.nonempty] at last
    exact name.whole (List.mem_of_getLast? last)
  obtain rfl | ⟨early, n, rfl⟩ := List.eq_nil_or_concat' names
  · exact absurd rfl filled
  · have name := h n (by simp)
    by_cases more : early = []
    · rw [more, List.nil_append, ofNames, List.intercalate_singleton]
      exact ends [slash] name
    · rw [ofNames_concat more, List.append_cons]
      exact ends _ name

theorem join_ofNames (h : ∀ n ∈ names, IsName n) {n : Bytes} (name : IsName n) :
    (ofNames true names).join ⟨n⟩ = ofNames true (names ++ [n]) := by
  rw [join, if_neg name.relative]
  by_cases filled : names = []
  · rw [filled, if_pos (by decide)]
    simp [ofNames]
  · have unended : ((ofNames true names).bytes.isEmpty ||
        (ofNames true names).bytes.getLast? == some slash) = false := by
      rw [beq_eq_false_iff_ne.2 (getLast?_ofNames h filled)]
      rfl
    rw [if_neg (by rw [unended]; decide), ← ofNames_concat filled]

theorem parent?_ofNames (h : ∀ n ∈ names, IsName n) {n : Bytes} (name : IsName n) :
    (ofNames true (names ++ [n])).parent? = some (ofNames true names) := by
  have all : ∀ m ∈ names ++ [n], IsName m :=
    List.forall_mem_append.2 ⟨h, List.forall_mem_singleton.2 name⟩
  have first : (ofNames true (names ++ [n])).components.reverse =
      .name n :: (.root :: names.map .name).reverse := by
    rw [components_ofNames all, List.map_append]
    simp
  have segments : (ofNames true (names ++ [n])).segments.reverse = n :: (names.reverse ++ [[]]) := by
    rw [segments_ofNames all (by simp)]
    simp
  have kept : ((n :: (names.reverse ++ [[]])).dropWhile isFiller).drop 1 = names.reverse ++ [[]] := by
    rw [List.dropWhile_cons_of_neg (by simp [name.filled])]
    rfl
  unfold parent?
  rw [first, segments, kept]
  obtain rfl | ⟨early, last, rfl⟩ := List.eq_nil_or_concat' names
  · rfl
  · have stop : isFiller last = false := (h last (by simp)).filled
    rw [List.reverse_append, List.reverse_singleton, List.singleton_append, List.cons_append,
      List.dropWhile_cons_of_neg (by rw [stop]; decide)]
    have whole : (last :: (early.reverse ++ [[]])).reverse = [] :: (early ++ [last]) := by simp
    dsimp only
    rw [if_neg (by simp), whole, List.intercalate_cons_of_ne_nil (by simp)]
    rfl

theorem Canonical.parent? (h : Canonical p) (found : p.parent? = some q) : Canonical q := by
  obtain ⟨names, named, rfl⟩ := h
  rcases names.eq_nil_or_concat with rfl | ⟨early, last, rfl⟩
  · cases found
  · rw [List.concat_eq_append] at named found
    have front : ∀ n ∈ early, IsName n := by
      intro n member
      exact named n (List.mem_append_left [last] member)
    have whole := parent?_ofNames front (named last (by simp))
    rw [found] at whole
    exact ⟨early, front, Option.some.inj whole⟩

end Canonical

section Spelling
variable {directory : Path} {front back s t : List Char}

def unifySlash (b : UInt8) : UInt8 := if b == backslash then slash else b

def written (text : List Char) : Bytes := (Utf8.encode text).map unifySlash

theorem unifySlash_eq_slash (b : UInt8) : unifySlash b = slash ↔ b.toNat = 47 ∨ b.toNat = 92 := by
  have up : b = backslash ↔ b.toNat = 92 := UInt8.toNat_inj.symm
  have down : b = slash ↔ b.toNat = 47 := UInt8.toNat_inj.symm
  rw [← up, ← down, unifySlash]
  split <;> simp_all

theorem unifySlash_eq_dot (b : UInt8) : unifySlash b = dot ↔ b.toNat = 46 := by
  have stop : b = dot ↔ b.toNat = 46 := UInt8.toNat_inj.symm
  rw [← stop, unifySlash]
  split
  · next same =>
    rw [beq_iff_eq] at same
    rw [same]
    decide
  · rfl

theorem written_append (s t : List Char) : written (s ++ t) = written s ++ written t := by
  unfold written Utf8.encode
  rw [List.flatMap_append, List.map_append]

def isSeparator (c : Char) : Bool := c == '/' || c == '\\'

theorem written_cons (c : Char) (s : List Char) : written (c :: s) = written [c] ++ written s :=
  written_append [c] s

theorem written_char (c : Char) :
    ∃ b rest, written [c] = b :: rest ∧ (b = slash ↔ isSeparator c) ∧ (b = dot ↔ c = '.') ∧
      slash ∉ rest := by
  have encoded : Utf8.encode [c] = String.utf8EncodeChar c := by
    unfold Utf8.encode
    rw [List.flatMap_singleton]
  unfold written
  rw [encoded]
  have separator : isSeparator c ↔ c.toNat = 47 ∨ c.toNat = 92 := by
    unfold isSeparator
    rw [Bool.or_eq_true, beq_iff_eq, beq_iff_eq, ← Char.toNat_inj, ← Char.toNat_inj]
    rfl
  have stop : c = '.' ↔ c.toNat = 46 := Char.toNat_inj.symm
  rw [separator, stop]
  rcases LineIndex.utf8EncodeChar_cases c with ⟨ascii, bytes⟩ | ⟨wide, bytes⟩
  · have value : (UInt8.ofNat c.toNat).toNat = c.toNat := by
      rw [UInt8.toNat_ofNat']
      omega
    refine ⟨unifySlash (UInt8.ofNat c.toNat), [], by rw [bytes]; rfl, ?_, ?_, List.not_mem_nil⟩
    · rw [unifySlash_eq_slash, value]
    · rw [unifySlash_eq_dot, value]
  · have size : (String.utf8EncodeChar c).length = c.utf8Size := String.length_utf8EncodeChar c
    have pos := c.utf8Size_pos
    cases found : String.utf8EncodeChar c with
    | nil =>
      rw [found, List.length_nil] at size
      omega
    | cons b rest =>
      rw [found] at bytes
      have first := bytes b List.mem_cons_self
      refine ⟨unifySlash b, rest.map unifySlash, rfl, ?_, ?_, ?_⟩
      · rw [unifySlash_eq_slash]
        omega
      · rw [unifySlash_eq_dot]
        omega
      · intro member
        obtain ⟨d, later, same⟩ := List.mem_map.1 member
        have high := bytes d (List.mem_cons_of_mem b later)
        rw [unifySlash_eq_slash] at same
        omega

theorem slash_mem_written (s : List Char) : slash ∈ written s ↔ ∃ c ∈ s, isSeparator c := by
  induction s with
  | nil => simp [written, Utf8.encode]
  | cons c s ih =>
    obtain ⟨b, rest, bytes, separates, _, free⟩ := written_char c
    rw [written_cons, List.mem_append, ih, bytes, List.mem_cons, List.exists_mem_cons_iff,
      eq_comm, separates]
    simp only [free, or_false]

theorem written_eq_nil (h : written s = []) : s = [] := by
  cases s with
  | nil => rfl
  | cons c s =>
    obtain ⟨b, rest, bytes, _⟩ := written_char c
    rw [written_cons, bytes] at h
    cases h

theorem written_dot_cons {c : Char} {bytes : Bytes} (h : written (c :: s) = dot :: bytes) :
    c = '.' ∧ written s = bytes := by
  obtain ⟨b, rest, first, _, stop, _⟩ := written_char c
  have whole := written_cons c s
  rw [h, first, List.cons_append, List.cons.injEq] at whole
  obtain rfl := stop.1 whole.1.symm
  exact ⟨rfl, (List.cons.inj h).2⟩

theorem isName_written (whole : ∀ c ∈ s, ¬ isSeparator c) (filled : s ≠ [])
    (notHere : s ≠ ['.']) (notUp : s ≠ ['.', '.']) : IsName (written s) := by
  have single : ∀ {s : List Char}, written s = [dot] → s = ['.'] := by
    intro s stop
    cases s with
    | nil => cases stop
    | cons c s =>
      obtain ⟨rfl, rest⟩ := written_dot_cons stop
      rw [written_eq_nil rest]
  refine ⟨?_, ?_, ?_⟩
  · unfold isFiller
    rw [Bool.or_eq_false_iff, List.isEmpty_eq_false_iff, beq_eq_false_iff_ne]
    exact ⟨fun none => filled (written_eq_nil none), fun stop => notHere (single stop)⟩
  · intro stops
    cases s with
    | nil => cases stops
    | cons c s =>
      obtain ⟨rfl, rest⟩ := written_dot_cons stops
      exact notUp (by rw [single rest])
  · rw [slash_mem_written]
    rintro ⟨c, member, separates⟩
    exact whole c member separates

theorem resolve_eq (h : directory.isAbsolute) (text : List Char) :
    directory.resolve text = ofNames true (walkAll
      (if (Path.mk (written text)).isAbsolute then [] else walkAll [] directory.bytes)
      (written text)).reverse := by
  change (directory.join ⟨written text⟩).normalize = _
  rw [normalize_eq (isAbsolute_join h _), join]
  split
  · rfl
  · split
    · next ready =>
      have begun : Ready directory.bytes := by simpa [Ready] using ready
      rw [walkAll_append begun]
    · rw [walkAll_slash]

/-- A new piece of a path begins between the texts, and what follows is not absolute by itself. -/
def Between (front back : List Char) : Prop :=
  (front = [] ∧ ∀ c, back.head? = some c → ¬ isSeparator c) ∨
    ∃ c, front.getLast? = some c ∧ isSeparator c

/-- Other ways to write a path: slashes for backslashes, a step to the same place, and a step down
and up again. -/
inductive Respelled : List Char → List Char → Prop where
  | slash (front back : List Char) : Respelled (front ++ '\\' :: back) (front ++ '/' :: back)
  | here {front back : List Char} : Between front back →
      Respelled (front ++ ".\\".toList ++ back) (front ++ back)
  | detour {front back : List Char} (name : List Char) : Between front back →
      (∀ c ∈ name, ¬ isSeparator c) → name ≠ [] → name ≠ ".".toList → name ≠ "..".toList →
      Respelled (front ++ (name ++ "\\..\\".toList) ++ back) (front ++ back)

theorem walkAll_here (names : List Bytes) (back : List Char) :
    walkAll names (written (".\\".toList ++ back)) = walkAll names (written back) := by
  have first : written (".\\".toList ++ back) = [dot] ++ slash :: written back := by
    rw [written_append]
    rfl
  rw [first, walkAll_slash]
  rfl

theorem walkAll_detour (names : List Bytes) {name : List Char} (h : IsName (written name))
    (back : List Char) :
    walkAll names (written (name ++ "\\..\\".toList ++ back)) = walkAll names (written back) := by
  have first : written (name ++ "\\..\\".toList ++ back) =
      written name ++ slash :: ([dot, dot] ++ slash :: written back) := by
    rw [written_append, written_append, List.append_assoc]
    rfl
  rw [first, walkAll_slash, walkAll_slash, walkAll_single _ h.whole, walk_name _ h]
  rfl

theorem isAbsolute_written (s : List Char) :
    (Path.mk (written s)).isAbsolute ↔ ∃ c, s.head? = some c ∧ isSeparator c := by
  cases s with
  | nil => simp [isAbsolute, written, Utf8.encode]
  | cons c s =>
    obtain ⟨b, rest, bytes, separates, _⟩ := written_char c
    rw [isAbsolute, written_cons, bytes, beq_iff_eq, List.cons_append, List.head?_cons,
      Option.some.injEq, separates]
    simp

theorem Between.ready (h : Between front back) : Ready (written front) := by
  rcases h with ⟨rfl, _⟩ | ⟨c, last, separates⟩
  · exact .inl rfl
  · obtain ⟨early, rfl⟩ := List.getLast?_eq_some_iff.1 last
    have ends : written [c] = [slash] := by
      unfold isSeparator at separates
      rw [Bool.or_eq_true, beq_iff_eq, beq_iff_eq] at separates
      rcases separates with rfl | rfl <;> rfl
    right
    rw [written_append, ends, List.getLast?_concat]

/-- What stands between the texts may be left out if it leads nowhere and does not begin with a
separator. -/
theorem resolve_without (h : directory.isAbsolute) (between : Between front back) {s : List Char}
    (relative : ∃ c, s.head? = some c ∧ ¬ isSeparator c)
    (nowhere : ∀ names, walkAll names (written (s ++ back)) = walkAll names (written back)) :
    directory.resolve (front ++ s ++ back) = directory.resolve (front ++ back) := by
  have root : (Path.mk (written (front ++ s ++ back))).isAbsolute =
      (Path.mk (written (front ++ back))).isAbsolute := by
    obtain ⟨c, first, notSeparator⟩ := relative
    rw [Bool.eq_iff_iff, isAbsolute_written, isAbsolute_written]
    cases front with
    | cons d front => rfl
    | nil =>
      rcases between with ⟨_, plain⟩ | ⟨d, none, _⟩
      · rw [List.nil_append, List.nil_append, List.head?_append, first]
        constructor
        · rintro ⟨d, found, separates⟩
          obtain rfl := Option.some.inj found
          exact absurd separates notSeparator
        · rintro ⟨d, found, separates⟩
          exact absurd separates (plain d found)
      · cases none
  rw [resolve_eq h, resolve_eq h, root, List.append_assoc, written_append front (s ++ back),
    walkAll_append between.ready, nowhere, ← walkAll_append between.ready, ← written_append]

theorem resolve_respelled (h : directory.isAbsolute) (same : Respelled s t) :
    directory.resolve s = directory.resolve t := by
  cases same with
  | slash front back =>
    have alike : written (front ++ '\\' :: back) = written (front ++ '/' :: back) := by
      rw [written_append, written_append, written_cons '\\', written_cons '/']
      rfl
    rw [resolve_eq h, resolve_eq h, alike]
  | here between => exact resolve_without h between ⟨'.', rfl, by decide⟩ (walkAll_here · _)
  | detour name between whole filled notHere notUp =>
    obtain ⟨c, rest, rfl⟩ := List.exists_cons_of_ne_nil filled
    exact resolve_without h between ⟨c, rfl, whole c List.mem_cons_self⟩
      (walkAll_detour · (isName_written whole filled notHere notUp) _)

end Spelling

end Path
end CodeAtlas
