import CodeAtlas.Proofs.Trees

/-!
Normalising a path without a look at the file system. What is left of a path are names that lead
where its pieces lead, so a path may be normalised before anything is joined to it. In a tree of
directories without links an absolute path that can be followed piece by piece leads to the same
entry after it is normalised.
-/
namespace CodeAtlas
open Text

theorem Text.intercalate_sublist {α : Type} (sep : α) {a b : List (List α)} (h : a.Sublist b) :
    ([sep].intercalate a).Sublist ([sep].intercalate b) := by
  induction h with
  | slnil => exact .slnil
  | @cons a b x h ih =>
    cases b with
    | nil =>
      rw [List.sublist_nil.1 h]
      exact List.nil_sublist _
    | cons y b =>
      rw [List.intercalate_cons_cons]
      exact ih.trans (List.sublist_append_right _ _)
  | @cons_cons a b x h ih =>
    cases a with
    | nil =>
      rw [List.intercalate_singleton]
      cases b with
      | nil => rw [List.intercalate_singleton]
      | cons y b =>
        rw [List.intercalate_cons_cons, List.append_assoc]
        exact List.sublist_append_left _ _
    | cons y a =>
      obtain ⟨z, b, rfl⟩ := List.exists_cons_of_ne_nil (List.ne_nil_of_length_pos
        (Nat.lt_of_lt_of_le (Nat.succ_pos _) h.length_le))
      rw [List.intercalate_cons_cons, List.intercalate_cons_cons]
      exact ih.append_left _

namespace Path
variable {p q : Path} {names : List Bytes}

def remaining (p : Path) : List Bytes := (walkAll [] p.bytes).reverse

theorem isName_remaining (p : Path) : ∀ n ∈ p.remaining, IsName n := by
  intro n member
  exact walkAll_isName (by simp) p.bytes n (List.mem_reverse.1 member)

theorem normalize_eq_remaining (p : Path) : p.normalize = ofNames p.isAbsolute p.remaining := by
  have started : p.start.foldl step [] = [] := by
    unfold start
    split
    · rfl
    · split <;> rfl
  have walked : p.components.foldl step [] = walkAll [] p.bytes := by
    rw [components, List.foldl_append, started, List.foldl_map, List.foldl_filter]
    unfold walkAll
    congr 1
    funext names s
    unfold walk
    cases isFiller s <;> rfl
  rw [normalize, walked, remaining]

theorem isAbsolute_relativeNames (named : ∀ n ∈ names, IsName n) :
    (ofNames false names).isAbsolute = false := by
  cases names with
  | nil => rfl
  | cons n rest =>
    have first := named n List.mem_cons_self
    obtain ⟨tail, begun⟩ : ∃ tail, [slash].intercalate (n :: rest) = n ++ tail := by
      cases rest with
      | nil => exact ⟨[], by simp⟩
      | cons m rest => exact ⟨_, by rw [List.intercalate_cons_cons, List.append_assoc]⟩
    have head : (ofNames false (n :: rest)).bytes.head? = n.head? := by
      change ([slash].intercalate (n :: rest)).head? = _
      rw [begun, List.head?_append_of_ne_nil _ first.nonempty]
    rw [isAbsolute, head]
    simpa [isAbsolute] using first.relative

theorem isAbsolute_normalize_eq (p : Path) : p.normalize.isAbsolute = p.isAbsolute := by
  rw [normalize_eq_remaining]
  cases p.isAbsolute with
  | true => exact isAbsolute_ofNames _
  | false => exact isAbsolute_relativeNames p.isName_remaining

theorem walkAll_normalize (p : Path) : walkAll [] p.normalize.bytes = walkAll [] p.bytes := by
  rw [normalize_eq_remaining]
  cases p.isAbsolute with
  | true => rw [walkAll_canonical p.isName_remaining, remaining, List.reverse_reverse]
  | false =>
    change walkAll [] ([slash].intercalate p.remaining) = _
    rw [walkAll_ofNames p.isName_remaining, remaining, List.reverse_reverse, List.append_nil]

theorem normalize_congr (start : p.isAbsolute = q.isAbsolute)
    (walked : walkAll [] p.bytes = walkAll [] q.bytes) : p.normalize = q.normalize := by
  rw [normalize_eq_remaining, normalize_eq_remaining, start, remaining, remaining, walked]

theorem normalize_normalize (p : Path) : p.normalize.normalize = p.normalize :=
  normalize_congr p.isAbsolute_normalize_eq p.walkAll_normalize

theorem isAbsolute_join_relative (h : ¬ q.isAbsolute) (p : Path) :
    (p.join q).isAbsolute = p.isAbsolute := by
  rw [join, if_neg h]
  obtain ⟨bytes⟩ := p
  cases bytes with
  | nil => simpa [isAbsolute] using h
  | cons b rest => split <;> rfl

theorem walkAll_join (h : ¬ q.isAbsolute) (p : Path) :
    walkAll names (p.join q).bytes = walkAll (walkAll names p.bytes) q.bytes := by
  rw [join, if_neg h]
  split
  · next ready =>
    have begun : Ready p.bytes := by simpa [Ready] using ready
    rw [walkAll_append begun]
  · rw [walkAll_slash]

theorem normalize_join (p q : Path) : (p.join q).normalize = (p.normalize.join q).normalize := by
  by_cases h : q.isAbsolute
  · rw [join, join, if_pos h, if_pos h]
  · apply normalize_congr
    · rw [isAbsolute_join_relative h, isAbsolute_join_relative h, isAbsolute_normalize_eq]
    · rw [walkAll_join h, walkAll_join h, walkAll_normalize]

theorem mem_segments_ofNames {absolute : Bool} (named : ∀ n ∈ names, IsName n) {s : Bytes}
    (member : s ∈ (ofNames absolute names).segments) : s = [] ∨ s ∈ names := by
  by_cases filled : names = []
  · subst filled
    left
    cases absolute <;> simpa [ofNames, segments, pieces] using member
  · cases absolute with
    | true =>
      rw [segments_ofNames named filled] at member
      exact List.mem_cons.1 member
    | false =>
      have inner : (ofNames false names).segments = names :=
        pieces_intercalate (fun n member => (named n member).whole) filled
      rw [inner] at member
      exact .inr member

theorem straight_normalize (p : Path) :
    ∀ s ∈ p.normalize.segments, s ≠ [dot] ∧ s ≠ [dot, dot] := by
  intro s member
  rw [normalize_eq_remaining] at member
  rcases mem_segments_ofNames p.isName_remaining member with rfl | left
  · decide
  · have name := p.isName_remaining s left
    refine ⟨?_, name.below⟩
    rintro rfl
    cases name.filled

theorem straight_components (straight : ∀ s ∈ p.segments, s ≠ [dot] ∧ s ≠ [dot, dot]) :
    ∀ c ∈ p.components, c ≠ .current ∧ c ≠ .parent := by
  intro c member
  rcases List.mem_append.1 member with first | later
  · unfold start at first
    split at first
    · rw [List.mem_singleton.1 first]
      decide
    · split at first
      · next here => exact absurd rfl (straight _ (List.mem_of_head? (eq_of_beq here))).1
      · cases first
  · obtain ⟨s, found, rfl⟩ := List.mem_map.1 later
    have below := (straight s (List.mem_filter.1 found).1).2
    rw [component, if_neg (by simpa using below)]
    simp

theorem walkAll_sublist (bytes : Bytes) : (walkAll [] bytes).reverse.Sublist (pieces slash bytes) := by
  have walked : ∀ (segments names : List Bytes),
      (segments.foldl walk names).reverse.Sublist (names.reverse ++ segments) := by
    intro segments
    induction segments with
    | nil => simp
    | cons s segments ih =>
      intro names
      refine (ih (walk names s)).trans ?_
      unfold walk
      split
      · exact (List.sublist_cons_self s segments).append_left _
      · rcases component_cases s with up | name
        · rw [up]
          exact (List.drop_sublist 1 names).reverse.append (List.sublist_cons_self s segments)
        · rw [name, step, List.reverse_cons, List.append_assoc, List.singleton_append]
  exact walked (pieces slash bytes) []

theorem normalize_sublist (p : Path) : p.normalize.bytes.Sublist p.bytes := by
  rw [normalize_eq_remaining, remaining]
  cases absolute : p.isAbsolute with
  | true =>
    obtain ⟨rest, bytes⟩ := isAbsolute_iff.1 absolute
    have walked : walkAll [] p.bytes = walkAll [] rest := by
      rw [bytes]
      exact walkAll_slash [] [] rest
    rw [walked, bytes]
    have kept := intercalate_sublist slash (walkAll_sublist rest)
    rw [intercalate_pieces] at kept
    exact kept.cons_cons slash
  | false =>
    have kept := intercalate_sublist slash (walkAll_sublist p.bytes)
    rwa [intercalate_pieces] at kept

end Path
namespace FileSystem
open Path
variable {root : Entry} {trail next final : List (Bytes × Entry)} {segment : Bytes}
  {segments : List Bytes}

/-- Where one piece of a path leads from the end of a trail: an empty one and `.` stay, `..` goes to
the parent, which for the root is the root itself, and a name goes to the entry that a directory has
under it. -/
inductive Moves (root : Entry) (trail : List (Bytes × Entry)) :
    Bytes → List (Bytes × Entry) → Prop where
  | stay {segment : Bytes} (filler : isFiller segment) : Moves root trail segment trail
  | up : Moves root trail [dot, dot] (trail.drop 1)
  | enter {entries : List (Bytes × Entry)} {segment : Bytes} {e : Entry}
      (here : entryAt root trail = .directory entries) (filled : isFiller segment = false)
      (below : segment ≠ [dot, dot]) (entered : entries.lookup segment = some e) :
      Moves root trail segment ((segment, e) :: trail)

inductive Leads (root : Entry) :
    List (Bytes × Entry) → List Bytes → List (Bytes × Entry) → Prop where
  | here (trail : List (Bytes × Entry)) : Leads root trail [] trail
  | step {trail next final : List (Bytes × Entry)} {segment : Bytes} {segments : List Bytes}
      (move : Moves root trail segment next) (rest : Leads root next segments final) :
      Leads root trail (segment :: segments) final

namespace Moves

theorem onTrail (move : Moves root trail segment next) (on : OnTrail root trail) :
    OnTrail root next := by
  cases move with
  | stay => exact on
  | up => exact on.drop
  | enter here _ _ entered => exact ⟨⟨_, here, entered⟩, on⟩

theorem names (move : Moves root trail segment next) :
    next.map Prod.fst = walk (trail.map Prod.fst) segment := by
  cases move with
  | stay filler => rw [walk_filler _ filler]
  | up => rw [walk_parent, List.map_drop]
  | enter _ filled below _ =>
    rw [walk, if_neg (by simp [filled]), component, if_neg (by simpa using below)]
    rfl

theorem unique {other : List (Bytes × Entry)} (move : Moves root trail segment next)
    (again : Moves root trail segment other) : next = other := by
  cases move with
  | stay filler =>
    cases again with
    | stay => rfl
    | up => cases filler
    | enter _ filled => cases filled.symm.trans filler
  | up =>
    cases again with
    | stay filler => cases filler
    | up => rfl
    | enter _ _ below => exact absurd rfl below
  | enter here filled below entered =>
    cases again with
    | stay filler => cases filled.symm.trans filler
    | up => exact absurd rfl below
    | enter here' _ _ entered' =>
      cases here.symm.trans here'
      cases entered.symm.trans entered'
      rfl

theorem follow_eq (move : Moves root trail segment next) (name : IsName segment)
    (short : segment.length ≤ nameLimit) (rest : List Bytes) :
    follow root trail (segment :: rest) = follow root next rest := by
  cases move with
  | stay filler => cases name.filled.symm.trans filler
  | up => exact absurd rfl name.below
  | enter here filled below entered =>
    have fits : ¬ nameLimit < segment.length := Nat.not_lt.2 short
    simp only [follow, here, filled, below, fits, entered, if_false, Bool.false_eq_true]

end Moves

namespace Leads

theorem onTrail (leads : Leads root trail segments final) (on : OnTrail root trail) :
    OnTrail root final := by
  induction leads with
  | here => exact on
  | step move _ ih => exact ih (move.onTrail on)

theorem names (leads : Leads root trail segments final) :
    final.map Prod.fst = segments.foldl walk (trail.map Prod.fst) := by
  induction leads with
  | here => rfl
  | step move _ ih => rw [ih, move.names, List.foldl_cons]

theorem unique {other : List (Bytes × Entry)} (leads : Leads root trail segments final)
    (again : Leads root trail segments other) : final = other := by
  induction leads with
  | here =>
    cases again
    rfl
  | step move _ ih =>
    cases again with
    | step move' rest' =>
      cases move.unique move'
      exact ih rest'

theorem concat (leads : Leads root trail segments next) (move : Moves root next segment final) :
    Leads root trail (segments ++ [segment]) final := by
  induction leads with
  | here => exact .step move (.here _)
  | step first _ ih => exact .step first (ih move)

theorem follow_eq (leads : Leads root trail segments final)
    (named : ∀ s ∈ segments, IsName s ∧ s.length ≤ nameLimit) :
    follow root trail segments = .ok ⟨final, entryAt root final⟩ := by
  induction leads with
  | here => rfl
  | step move _ ih =>
    obtain ⟨⟨name, short⟩, others⟩ := List.forall_mem_cons.1 named
    rw [move.follow_eq name short, ih others]

end Leads

theorem leads_of_follow {l : Located} (h : follow root trail segments = .ok l) :
    Leads root trail segments l.trail := by
  induction segments generalizing trail with
  | nil =>
    rw [← Except.ok.inj h]
    exact .here trail
  | cons segment rest ih =>
    obtain ⟨entries, here, ⟨filler, later⟩ | ⟨rfl, later⟩ | ⟨filled, below, _, e, entered, later⟩⟩ :=
      follow_cons h
    · exact .step (.stay filler) (ih later)
    · exact .step .up (ih later)
    · exact .step (.enter here filled below entered) (ih later)

theorem leads_names (on : OnTrail root trail) (named : ∀ n ∈ trail.map Prod.fst, IsName n) :
    Leads root [] (trail.map Prod.fst).reverse trail := by
  induction trail with
  | nil => exact .here []
  | cons last rest ih =>
    obtain ⟨⟨entries, here, entered⟩, before⟩ := on
    rw [List.map_cons, List.forall_mem_cons] at named
    obtain ⟨name, others⟩ := named
    rw [List.map_cons, List.reverse_cons]
    exact (ih before others).concat (.enter here name.filled name.below entered)

variable {p : Path}

/-- What remains of a path are the names on the trail to which it leads. -/
theorem remaining_eq_names (leads : Leads root [] p.segments trail) :
    p.remaining = (trail.map Prod.fst).reverse := by
  rw [remaining, leads.names]
  rfl

theorem leads_remaining (leads : Leads root [] p.segments trail) :
    Leads root [] p.remaining trail := by
  have left := remaining_eq_names leads
  rw [left]
  refine leads_names (leads.onTrail trivial) fun n member => p.isName_remaining n ?_
  rwa [left, List.mem_reverse]

theorem segments_normalize (absolute : p.isAbsolute) :
    ∃ fillers, (∀ s ∈ fillers, isFiller s) ∧ p.normalize.segments = fillers ++ p.remaining := by
  rw [normalize_eq_remaining, absolute]
  by_cases filled : p.remaining = []
  · rw [filled]
    exact ⟨[[], []], by decide, rfl⟩
  · exact ⟨[[]], by decide, segments_ofNames p.isName_remaining filled⟩

theorem leads_fillers {fillers : List Bytes} (fill : ∀ s ∈ fillers, isFiller s)
    (leads : Leads root trail segments final) : Leads root trail (fillers ++ segments) final := by
  induction fillers with
  | nil => exact leads
  | cons s fillers ih =>
    obtain ⟨first, others⟩ := List.forall_mem_cons.1 fill
    exact .step (.stay first) (ih others)

theorem leads_normalize (absolute : p.isAbsolute) (leads : Leads root [] p.segments trail) :
    Leads root [] p.normalize.segments trail := by
  obtain ⟨fillers, fill, segments⟩ := segments_normalize absolute
  rw [segments]
  exact leads_fillers fill (leads_remaining leads)

theorem refusal?_normalize (absolute : p.isAbsolute) (accepted : refusal? p = none) :
    refusal? p.normalize = none := by
  obtain ⟨_, text, fits⟩ := refusal?_eq_none_iff.1 accepted
  obtain ⟨rest, bytes⟩ := isAbsolute_iff.1 (isAbsolute_normalize absolute)
  refine refusal?_eq_none_iff.2 ⟨by simp [bytes], ?_, ?_⟩
  · exact fun zero => text (p.normalize_sublist.subset zero)
  · exact Nat.le_trans p.normalize_sublist.length_le fits

theorem route_absolute (fs : FileSystem) (absolute : p.isAbsolute) : fs.route p = p.segments := by
  rw [route, if_pos absolute, List.nil_append]

theorem locate_normalize {fs : FileSystem} {l : Located} (absolute : p.isAbsolute)
    (h : fs.locate p = .ok l) : fs.locate p.normalize = .ok l := by
  obtain ⟨accepted, followed⟩ := locate_eq_ok_iff.1 h
  rw [route_absolute fs absolute] at followed
  refine locate_eq_ok_iff.2 ⟨refusal?_normalize absolute accepted, ?_⟩
  -- a path was followed from the root, which is a directory then
  obtain ⟨entries, top⟩ : ∃ entries, fs.root = .directory entries := by
    obtain ⟨rest, segments⟩ := segments_of_isAbsolute absolute
    rw [segments] at followed
    obtain ⟨entries, here, _⟩ := follow_cons followed
    exact ⟨entries, here⟩
  have leads := leads_of_follow followed
  have named : ∀ n ∈ p.remaining, IsName n ∧ n.length ≤ nameLimit := by
    intro n member
    refine ⟨p.isName_remaining n member, ?_⟩
    rw [remaining_eq_names leads, List.mem_reverse] at member
    obtain ⟨x, passed, rfl⟩ := List.mem_map.1 member
    exact (trail_follow (by simp) followed x passed).2.2
  obtain ⟨fillers, fill, segments⟩ := segments_normalize absolute
  rw [route_absolute fs (isAbsolute_normalize absolute), segments, follow_append, top,
    follow_fillers entries fill, ← top]
  change follow fs.root [] p.remaining = .ok l
  rw [(leads_remaining leads).follow_eq named, ← entry_follow followed]

end FileSystem

namespace Path
open FileSystem

/-- Normalising is sound without a look at any file system. What it gives has no `.` and no `..` and
is absolute if the path is. It can be done before a path is joined to another, so that a second time
it changes nothing. Where an absolute path can be followed in a tree without links, piece by piece,
its normalised form leads to that same entry and to no other. -/
theorem normalize_sound (p : Path) :
    ((∀ c ∈ p.normalize.components, c ≠ .current ∧ c ≠ .parent) ∧
        (∀ s ∈ p.normalize.segments, s ≠ [dot] ∧ s ≠ [dot, dot]) ∧
        p.normalize.isAbsolute = p.isAbsolute) ∧
      ((∀ q, (p.join q).normalize = (p.normalize.join q).normalize) ∧
        p.normalize.normalize = p.normalize ∧
        ∀ text, p.resolve text = p.normalize.resolve text) ∧
      (p.isAbsolute → ∀ root trail, Leads root [] p.segments trail →
        ∀ final, Leads root [] p.normalize.segments final ↔ final = trail) ∧
      (p.isAbsolute → ∀ (fs : FileSystem) l, fs.locate p = .ok l →
        fs.locate p.normalize = .ok l) := by
  refine ⟨⟨straight_components p.straight_normalize, p.straight_normalize,
    p.isAbsolute_normalize_eq⟩, ⟨p.normalize_join, p.normalize_normalize, ?_⟩, ?_, ?_⟩
  · intro text
    exact p.normalize_join _
  · intro absolute root trail leads final
    have same := leads_normalize absolute leads
    refine ⟨fun again => again.unique same, ?_⟩
    rintro rfl
    exact same
  · intro absolute fs l found
    exact locate_normalize absolute found

def fileBeside : FileSystem :=
  { root := .directory [([0x61], .directory [([0x64], .directory []), ([0x66], .file [1])])] }

def detour : Path := ofString "/../a/./d/..//f"

theorem detour_sound :
    detour.normalize = ofString "/a/f" ∧ detour.isAbsolute ∧
      (∃ l, fileBeside.locate detour = .ok l ∧ l.entry = .file [1] ∧
        fileBeside.locate detour.normalize = .ok l ∧
        Leads fileBeside.root [] detour.segments l.trail ∧
        ∀ final, Leads fileBeside.root [] detour.normalize.segments final ↔ final = l.trail) ∧
      Component.name [0x66] ∈ detour.normalize.components ∧
      (Component.name [0x66] ≠ .current ∧ Component.name [0x66] ≠ .parent) := by
  obtain ⟨⟨straight, _⟩, _, leads, located⟩ := detour.normalize_sound
  have normal : detour.normalize = ofString "/a/f" := by decide +kernel
  have absolute : detour.isAbsolute := by decide +kernel
  have last : Component.name [0x66] ∈ detour.normalize.components := by decide +kernel
  have found : fileBeside.locate detour = .ok ⟨[([0x66], .file [1]), ([0x61],
      .directory [([0x64], .directory []), ([0x66], .file [1])])], .file [1]⟩ := by rfl
  have walked := leads_of_follow (locate_eq_ok_iff.1 found).2
  exact ⟨normal, absolute, ⟨_, found, rfl, located absolute _ _ found, walked,
    leads absolute _ _ walked⟩, last, straight _ last⟩

end Path
end CodeAtlas
