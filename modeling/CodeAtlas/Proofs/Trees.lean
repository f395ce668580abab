import CodeAtlas.Proofs.Documents

/-!
Directories as trees of names. Where a path leads is given by the names on the way there: following
a path keeps to a trail on which each entry is the one its directory has under its name, and a path
of names only is followed exactly if the names lead somewhere.
-/
namespace CodeAtlas
open Text Path

namespace Entry

def descend? : List Bytes → Entry → Option Entry
  | [], e => some e
  | _ :: _, .file _ => none
  | name :: rest, .directory entries => (entries.lookup name).bind (descend? rest)

theorem descend?_append (front back : List Bytes) (e : Entry) :
    e.descend? (front ++ back) = (e.descend? front).bind (descend? back) := by
  induction front generalizing e with
  | nil => rfl
  | cons name rest ih =>
    cases e with
    | file content => rfl
    | directory entries =>
      rw [List.cons_append, descend?, descend?, Option.bind_assoc]
      congr 1
      funext e
      exact ih e

mutual

def distinct : Entry → Bool
  | .file _ => true
  | .directory entries => allDistinct entries

def allDistinct : List (Bytes × Entry) → Bool
  | [] => true
  | (name, e) :: rest => (rest.lookup name).isNone && distinct e && allDistinct rest

end

theorem allDistinct_cons {name : Bytes} {e : Entry} {rest : List (Bytes × Entry)}
    (h : allDistinct ((name, e) :: rest)) :
    rest.lookup name = none ∧ e.distinct ∧ allDistinct rest := by
  rw [allDistinct] at h
  simpa [and_assoc] using h

theorem distinct_of_lookup {entries : List (Bytes × Entry)} (h : allDistinct entries) {name : Bytes}
    {e : Entry} (found : entries.lookup name = some e) : e.distinct := by
  induction entries with
  | nil => cases found
  | cons first rest ih =>
    obtain ⟨_, inner, others⟩ := allDistinct_cons h
    rw [List.lookup_cons] at found
    split at found
    · rw [← Option.some.inj found]
      exact inner
    · exact ih others found

theorem distinct_of_descend? {e found : Entry} (h : e.distinct) {names : List Bytes}
    (led : e.descend? names = some found) : found.distinct := by
  induction names generalizing e with
  | nil =>
    rw [← Option.some.inj led]
    exact h
  | cons name rest ih =>
    cases e with
    | file content => cases led
    | directory entries =>
      obtain ⟨inner, entered, later⟩ := Option.bind_eq_some_iff.1 led
      exact ih (distinct_of_lookup h entered) later

theorem whole_of_lookup {entries : List (Bytes × Entry)} (h : allWellNamed entries) {name : Bytes}
    {e : Entry} (found : entries.lookup name = some e) : slash ∉ name := by
  induction entries with
  | nil => cases found
  | cons first rest ih =>
    obtain ⟨_, whole, _, others⟩ := allWellNamed_cons h
    rw [List.lookup_cons] at found
    split at found
    · next same =>
      rw [eq_of_beq same]
      exact whole
    · exact ih others found

theorem whole_of_descend? {e found : Entry} (h : e.wellNamed) {names : List Bytes}
    (led : e.descend? names = some found) : ∀ n ∈ names, slash ∉ n := by
  induction names generalizing e with
  | nil => simp
  | cons name rest ih =>
    cases e with
    | file content => cases led
    | directory entries =>
      obtain ⟨inner, entered, later⟩ := Option.bind_eq_some_iff.1 led
      exact List.forall_mem_cons.2
        ⟨whole_of_lookup h entered, ih (wellNamed_of_lookup h entered) later⟩

end Entry

def Located.names (l : Located) : List Bytes := (l.trail.map Prod.fst).reverse

def Located.path (l : Located) : Path := ofNames true l.names

namespace FileSystem
variable {root : Entry} {trail : List (Bytes × Entry)} {segments names : List Bytes} {l : Located}

/-- Each entry of the trail is the one that the directory before it has under its name. -/
def OnTrail (root : Entry) : List (Bytes × Entry) → Prop
  | [] => True
  | (name, e) :: rest =>
    (∃ entries, entryAt root rest = .directory entries ∧ entries.lookup name = some e) ∧
      OnTrail root rest

theorem OnTrail.drop (h : OnTrail root trail) : OnTrail root (trail.drop 1) := by
  cases trail with
  | nil => exact h
  | cons last rest => exact h.2

theorem OnTrail.above (h : OnTrail root trail) {entries : List (Bytes × Entry)}
    (here : entryAt root trail = .directory entries) :
    ∃ outer, entryAt root (trail.drop 1) = .directory outer := by
  cases trail with
  | nil => exact ⟨entries, here⟩
  | cons last rest =>
    obtain ⟨⟨outer, above, _⟩, _⟩ := h
    exact ⟨outer, above⟩

theorem OnTrail.descend? (h : OnTrail root trail) :
    root.descend? (trail.map Prod.fst).reverse = some (entryAt root trail) := by
  induction trail with
  | nil => rfl
  | cons last rest ih =>
    obtain ⟨⟨entries, here, entered⟩, before⟩ := h
    rw [List.map_cons, List.reverse_cons, Entry.descend?_append, ih before, here]
    simp [Entry.descend?, entered, entryAt]

/-- One step of a path: what it does to the trail, if it succeeds. -/
theorem follow_cons {segment : Bytes} (h : follow root trail (segment :: segments) = .ok l) :
    ∃ entries, entryAt root trail = .directory entries ∧
      ((isFiller segment ∧ follow root trail segments = .ok l) ∨
        (segment = [dot, dot] ∧ follow root (trail.drop 1) segments = .ok l) ∨
        (isFiller segment = false ∧ segment ≠ [dot, dot] ∧ segment.length ≤ nameLimit ∧
          ∃ e, entries.lookup segment = some e ∧
            follow root ((segment, e) :: trail) segments = .ok l)) := by
  rw [follow] at h
  split at h
  · cases h
  · next entries here =>
    refine ⟨entries, here, ?_⟩
    split at h
    · next filler => exact .inl ⟨filler, h⟩
    · next filled =>
      split at h
      · next up => exact .inr (.inl ⟨up, h⟩)
      · next below =>
        split at h
        · cases h
        · next short =>
          split at h
          · cases h
          · next e entered =>
            exact .inr (.inr ⟨by simpa using filled, below, by omega, e, entered, h⟩)

theorem follow_append (root : Entry) (trail : List (Bytes × Entry)) (front back : List Bytes) :
    follow root trail (front ++ back) =
      (follow root trail front).bind fun l => follow root l.trail back := by
  induction front generalizing trail with
  | nil => rfl
  | cons segment rest ih =>
    rw [List.cons_append, follow, follow]
    cases entryAt root trail with
    | file content => rfl
    | directory entries =>
      dsimp only
      rw [ih, ih]
      split
      · rfl
      · split
        · rfl
        · split
          · rfl
          · cases entries.lookup segment with
            | none => rfl
            | some e => exact ih _

theorem entry_follow (h : follow root trail segments = .ok l) : l.entry = entryAt root l.trail := by
  induction segments generalizing trail with
  | nil =>
    rw [← Except.ok.inj h]
  | cons segment rest ih =>
    obtain ⟨_, _, ⟨_, later⟩ | ⟨_, later⟩ | ⟨_, _, _, _, _, later⟩⟩ := follow_cons h
    · exact ih later
    · exact ih later
    · exact ih later

theorem onTrail_follow (on : OnTrail root trail) (h : follow root trail segments = .ok l) :
    OnTrail root l.trail := by
  induction segments generalizing trail with
  | nil =>
    rw [← Except.ok.inj h]
    exact on
  | cons segment rest ih =>
    obtain ⟨entries, here, ⟨_, later⟩ | ⟨_, later⟩ | ⟨_, _, _, e, entered, later⟩⟩ := follow_cons h
    · exact ih on later
    · exact ih on.drop later
    · have longer : OnTrail root ((segment, e) :: trail) := ⟨⟨entries, here, entered⟩, on⟩
      exact ih longer later

theorem follow_trailing {front : List Bytes} (h : follow root trail (front ++ [[]]) = .ok l) :
    follow root trail front = .ok l := by
  rw [follow_append] at h
  cases found : follow root trail front with
  | error e =>
    rw [found] at h
    cases h
  | ok before =>
    rw [found] at h
    obtain ⟨_, _, ⟨_, later⟩ | ⟨up, _⟩ | ⟨filled, _⟩⟩ := follow_cons h
    · rw [← Except.ok.inj later, ← entry_follow found]
    · cases up
    · cases filled

def route (fs : FileSystem) (p : Path) : List Bytes :=
  (if p.isAbsolute then [] else fs.workingDirectory) ++ p.segments

/-- The error of a path that is not followed at all. -/
def refusal? (p : Path) : Option IoError :=
  if p.bytes.contains 0 then some .zeroByte
  else if p.bytes.isEmpty then some .notFound
  else if pathLimit < p.bytes.length then some .nameTooLong
  else none

theorem refusal?_eq_none_iff {p : Path} :
    refusal? p = none ↔ p.bytes ≠ [] ∧ 0 ∉ p.bytes ∧ p.bytes.length ≤ pathLimit := by
  rw [refusal?]
  split
  · simp_all
  · split
    · simp_all
    · split
      · simp_all
      · simp_all

theorem locate_eq (fs : FileSystem) (p : Path) :
    fs.locate p = match refusal? p with
      | some e => .error e
      | none => follow fs.root [] (fs.route p) := by
  rw [locate, refusal?, route]
  split
  · rfl
  · split
    · rfl
    · split
      · rfl
      · split <;> rfl

theorem locate_eq_ok_iff {fs : FileSystem} {p : Path} :
    fs.locate p = .ok l ↔ refusal? p = none ∧ follow fs.root [] (fs.route p) = .ok l := by
  rw [locate_eq]
  cases refusal? p <;> simp

theorem isFile_iff {fs : FileSystem} {p : Path} :
    fs.isFile p ↔ ∃ content trail, fs.locate p = .ok ⟨trail, .file content⟩ := by
  rw [isFile]
  split
  · next trail content found => exact ⟨fun _ => ⟨content, trail, found⟩, fun _ => rfl⟩
  · next other =>
    refine ⟨fun none => (by cases none), ?_⟩
    rintro ⟨content, trail, found⟩
    exact absurd found (other trail content)

theorem descend?_names {fs : FileSystem} {p : Path} (h : fs.locate p = .ok l) :
    fs.root.descend? l.names = some l.entry := by
  have start : OnTrail fs.root [] := trivial
  have followed := (locate_eq_ok_iff.1 h).2
  rw [entry_follow followed]
  exact (onTrail_follow start followed).descend?

theorem readText_eq_ok_iff {fs : FileSystem} {p : Path} {text : List Char} :
    fs.readText p = .ok text ↔ ∃ trail content, fs.locate p = .ok ⟨trail, .file content⟩ ∧
      Utf8.decode? content = some text := by
  rw [readText]
  constructor
  · intro read
    split at read
    · cases read
    · cases read
    · next trail content found =>
      split at read
      · next decoded =>
        rw [Except.ok.inj read] at decoded
        exact ⟨trail, content, found, decoded⟩
      · cases read
  · rintro ⟨trail, content, found, decoded⟩
    rw [found]
    dsimp only
    rw [decoded]

theorem last_follow {content : Bytes} (on : OnTrail root trail) (moves : segments ≠ [])
    (h : follow root trail segments = .ok l) (file : l.entry = .file content) :
    ∃ n, segments.getLast? = some n ∧ isFiller n = false ∧ n ≠ [dot, dot] ∧
      l.names.getLast? = some n := by
  induction segments generalizing trail with
  | nil => exact absurd rfl moves
  | cons segment rest ih =>
    obtain ⟨entries, here, step⟩ := follow_cons h
    by_cases last : rest = []
    · subst last
      rcases step with ⟨_, later⟩ | ⟨_, later⟩ | ⟨filled, below, _, e, _, later⟩
      · rw [← Except.ok.inj later, here] at file
        cases file
      · rw [← Except.ok.inj later] at file
        obtain ⟨outer, above⟩ := on.above here
        rw [above] at file
        cases file
      · rw [← Except.ok.inj later]
        exact ⟨segment, rfl, filled, below, by simp [Located.names]⟩
    · have ends : (segment :: rest).getLast? = rest.getLast? := by
        rw [List.getLast?_cons, List.getLast?_eq_some_getLast last]
        rfl
      rw [ends]
      rcases step with ⟨_, later⟩ | ⟨_, later⟩ | ⟨_, _, _, e, entered, later⟩
      · exact ih on last later
      · exact ih on.drop last later
      · have longer : OnTrail root ((segment, e) :: trail) := ⟨⟨entries, here, entered⟩, on⟩
        exact ih longer last later

theorem fileName?_of_locate {fs : FileSystem} {p : Path} {content : Bytes}
    (h : fs.locate p = .ok l) (file : l.entry = .file content) :
    p.fileName? = l.names.getLast? ∧ l.names ≠ [] := by
  have start : OnTrail fs.root [] := trivial
  have pieces : p.segments ≠ [] := pieces_ne_nil slash p.bytes
  have moves : fs.route p ≠ [] := by simp [route, pieces]
  obtain ⟨n, last, filled, below, ends⟩ :=
    last_follow start moves (locate_eq_ok_iff.1 h).2 file
  rw [route, List.getLast?_append_of_ne_nil _ pieces] at last
  obtain ⟨early, whole⟩ := List.getLast?_eq_some_iff.1 last
  constructor
  · rw [ends, fileName?, components, whole, List.filter_append]
    simp [filled, component, below]
  · intro none
    rw [none] at ends
    cases ends

theorem follow_names {e : Entry} (named : ∀ n ∈ names, IsName n)
    (short : ∀ n ∈ names, n.length ≤ nameLimit) :
    (∃ trail', follow root trail names = .ok ⟨trail', e⟩) ↔
      (entryAt root trail).descend? names = some e := by
  induction names generalizing trail with
  | nil => simp [follow, Entry.descend?]
  | cons name rest ih =>
    obtain ⟨first, others⟩ := List.forall_mem_cons.1 named
    obtain ⟨fits, othersFit⟩ := List.forall_mem_cons.1 short
    rw [follow]
    cases entryAt root trail with
    | file content => simp [Entry.descend?]
    | directory entries =>
      dsimp only
      rw [if_neg (by simp [first.filled]), if_neg first.below, if_neg (by omega), Entry.descend?]
      cases entries.lookup name with
      | none => simp
      | some inner => exact ih others othersFit

theorem names_follow (straight : [dot, dot] ∉ segments) (h : follow root trail segments = .ok l) :
    l.names = (trail.map Prod.fst).reverse ++ segments.filter fun s => !isFiller s := by
  induction segments generalizing trail with
  | nil =>
    rw [← Except.ok.inj h]
    simp [Located.names]
  | cons segment rest ih =>
    obtain ⟨first, others⟩ := not_or.1 (mt List.mem_cons.2 straight)
    obtain ⟨_, _, ⟨filler, later⟩ | ⟨up, _⟩ | ⟨filled, _, _, _, _, later⟩⟩ := follow_cons h
    · rw [ih others later, List.filter_cons_of_neg (by simp [filler])]
    · exact absurd up.symm first
    · rw [ih others later, List.filter_cons_of_pos (by simp [filled])]
      simp

theorem names_locate {fs : FileSystem} (named : ∀ n ∈ names, IsName n)
    (h : fs.locate (ofNames true names) = .ok l) : l.names = names := by
  have canonical : Canonical (ofNames true names) := ⟨names, named, rfl⟩
  have followed := (locate_eq_ok_iff.1 h).2
  rw [route, if_pos (isAbsolute_ofNames names), List.nil_append] at followed
  rw [names_follow canonical.straight.2 followed, filter_segments_ofNames named]
  rfl

theorem locate_ofNames {fs : FileSystem} {e : Entry} (filled : names ≠ [])
    (named : ∀ n ∈ names, IsName n) (short : ∀ n ∈ names, n.length ≤ nameLimit)
    (accepted : refusal? (ofNames true names) = none) (led : fs.root.descend? names = some e) :
    ∃ trail, fs.locate (ofNames true names) = .ok ⟨trail, e⟩ := by
  have started : (entryAt fs.root []).descend? names = some e := led
  obtain ⟨trail, followed⟩ := (follow_names named short).2 started
  refine ⟨trail, locate_eq_ok_iff.2 ⟨accepted, ?_⟩⟩
  rw [route, if_pos (isAbsolute_ofNames names), List.nil_append, segments_ofNames named filled,
    follow]
  cases top : fs.root with
  | file content =>
    rw [top] at led
    cases names with
    | nil => exact absurd rfl filled
    | cons n rest => cases led
  | directory entries =>
    rw [top] at followed
    exact followed

theorem trail_follow (passed : ∀ x ∈ trail, isFiller x.1 = false ∧ x.1 ≠ [dot, dot] ∧
    x.1.length ≤ nameLimit) (h : follow root trail segments = .ok l) :
    ∀ x ∈ l.trail, isFiller x.1 = false ∧ x.1 ≠ [dot, dot] ∧ x.1.length ≤ nameLimit := by
  induction segments generalizing trail with
  | nil =>
    rw [← Except.ok.inj h]
    exact passed
  | cons segment rest ih =>
    obtain ⟨_, _, ⟨_, later⟩ | ⟨_, later⟩ | ⟨filled, below, short, e, _, later⟩⟩ := follow_cons h
    · exact ih passed later
    · exact ih (fun x member => passed x (List.mem_of_mem_drop member)) later
    · exact ih (List.forall_mem_cons.2 ⟨⟨filled, below, short⟩, passed⟩) later

theorem isName_names {fs : FileSystem} (named : fs.root.wellNamed) {p : Path}
    (h : fs.locate p = .ok l) : ∀ n ∈ l.names, IsName n ∧ n.length ≤ nameLimit := by
  intro n member
  have whole := Entry.whole_of_descend? named (descend?_names h) n member
  rw [Located.names, List.mem_reverse, List.mem_map] at member
  obtain ⟨x, passed, rfl⟩ := member
  obtain ⟨filled, below, short⟩ := trail_follow (by simp) (locate_eq_ok_iff.1 h).2 x passed
  exact ⟨⟨filled, below, whole⟩, short⟩

end FileSystem
end CodeAtlas
