import CodeAtlas.Element.Json
import CodeAtlas.Proofs.JsonRecords

/-!
Elements come back from their text. An element fits the depth of a reader when its coordinates are
offsets and its JSON does not nest too deep. Exactly these elements are read back from what is
written of them, and no other element is ever read.
-/
namespace CodeAtlas
open Json (Value enter?)

namespace Point

def Addressable (p : Point) : Prop := p.line < UInt64.size ∧ p.column < UInt64.size

def Fits (depth : Nat) (p : Point) : Prop := p.Addressable ∧ p.toJson.levels < depth

theorem plainKeys : Value.PlainKeys ["line", "column"] := by decide

theorem written_toJson (p : Point) : p.toJson.Written := by
  refine Value.written_record ?_ ?_
  · exact plainKeys
  · simp [Value.written_nat]

theorem fits_iff {depth : Nat} {p : Point} :
    p.Fits depth ↔ ∃ inner, enter? depth = some inner ∧ p.Addressable := by
  rw [Fits, toJson, Value.levels_record_lt]
  constructor
  · rintro ⟨addressable, inner, entered, _⟩
    exact ⟨inner, entered, addressable⟩
  · rintro ⟨inner, entered, addressable⟩
    have pos : 0 < inner := (Value.enter?_eq_some.1 entered).1
    refine ⟨addressable, inner, entered, ?_⟩
    simpa [Value.nat, Value.levels] using pos

theorem ofJson?_toJson {depth : Nat} {p : Point} (fits : p.Fits depth) :
    ofJson? depth p.toJson = some p := by
  obtain ⟨inner, entered, line, column⟩ := fits_iff.1 fits
  have fields : p.toJson.fields? ["line", "column"] 2 =
      some [some (.nat p.line), some (.nat p.column)] := by
    rw [toJson, Value.fields?_record]
    · rfl
    · exact plainKeys
  simp [ofJson?, entered, fields, Value.offset?_nat line, Value.offset?_nat column]

theorem fits_of_ofJson? {depth : Nat} {v : Value} {p : Point} (h : ofJson? depth v = some p) :
    p.Fits depth := by
  simp only [ofJson?, Option.bind_eq_bind, Option.bind_eq_some_iff] at h
  obtain ⟨inner, entered, fields, _, h⟩ := h
  split at h
  · simp only [Option.bind_eq_some_iff, Option.pure_def, Option.some_inj] at h
    obtain ⟨line, lineRead, column, columnRead, rfl⟩ := h
    exact fits_iff.2
      ⟨inner, entered, Value.lt_of_offset? lineRead, Value.lt_of_offset? columnRead⟩
  · contradiction

end Point

namespace Range

def Addressable (r : Range) : Prop := r.start.Addressable ∧ r.stop.Addressable

def Fits (depth : Nat) (r : Range) : Prop := r.Addressable ∧ r.toJson.levels < depth

theorem plainKeys : Value.PlainKeys ["start", "end"] := by decide

theorem written_toJson (r : Range) : r.toJson.Written := by
  refine Value.written_record ?_ ?_
  · exact plainKeys
  · simp [Point.written_toJson]

theorem fits_iff {depth : Nat} {r : Range} :
    r.Fits depth ↔ ∃ inner, enter? depth = some inner ∧ r.start.Fits inner ∧ r.stop.Fits inner := by
  rw [Fits, toJson, Value.levels_record_lt]
  simp only [Addressable, Point.Fits, List.forall_mem_cons, List.not_mem_nil]
  constructor
  · rintro ⟨⟨start, stop⟩, inner, entered, startLevels, stopLevels, _⟩
    exact ⟨inner, entered, ⟨start, startLevels⟩, stop, stopLevels⟩
  · rintro ⟨inner, entered, ⟨start, startLevels⟩, stop, stopLevels⟩
    exact ⟨⟨start, stop⟩, inner, entered, startLevels, stopLevels, nofun⟩

theorem ofJson?_toJson {depth : Nat} {r : Range} (fits : r.Fits depth) :
    ofJson? depth r.toJson = some r := by
  obtain ⟨inner, entered, start, stop⟩ := fits_iff.1 fits
  have fields : r.toJson.fields? ["start", "end"] 2 =
      some [some r.start.toJson, some r.stop.toJson] := by
    rw [toJson, Value.fields?_record]
    · rfl
    · exact plainKeys
  simp [ofJson?, entered, fields, Point.ofJson?_toJson start, Point.ofJson?_toJson stop]

theorem fits_of_ofJson? {depth : Nat} {v : Value} {r : Range} (h : ofJson? depth v = some r) :
    r.Fits depth := by
  simp only [ofJson?, Option.bind_eq_bind, Option.bind_eq_some_iff] at h
  obtain ⟨inner, entered, fields, _, h⟩ := h
  split at h
  · simp only [Option.bind_eq_some_iff, Option.pure_def, Option.some_inj] at h
    obtain ⟨start, startRead, stop, stopRead, rfl⟩ := h
    exact fits_iff.2
      ⟨inner, entered, Point.fits_of_ofJson? startRead, Point.fits_of_ofJson? stopRead⟩
  · contradiction

end Range

namespace Ranges

def Addressable (r : Ranges) : Prop := ∀ n v, r.get? n = some v → v.Addressable

def Fits (depth : Nat) (r : Ranges) : Prop := r.Addressable ∧ r.toJson.levels < depth

theorem mem_toList {r : Ranges} {n : RangeName} {v : Range} :
    (n, v) ∈ r.toList ↔ r.get? n = some v := by
  cases n <;> simp [toList, get?]

theorem foldl_set_toList (r : Ranges) :
    r.toList.foldl (fun s (n, v) => s.set n v) {} = r := by
  obtain ⟨_ | _, _ | _, _ | _⟩ := r <;> rfl

theorem get?_foldl_set {entries : List (RangeName × Range)} {r : Ranges} {n : RangeName}
    {v : Range} (h : (entries.foldl (fun s (n, v) => s.set n v) r).get? n = some v) :
    (n, v) ∈ entries ∨ r.get? n = some v := by
  induction entries generalizing r with
  | nil => exact .inr h
  | cons entry entries ih =>
    obtain ⟨m, w⟩ := entry
    rcases ih h with later | before
    · exact .inl (List.mem_cons_of_mem _ later)
    · by_cases same : n = m
      · subst same
        rw [get?_set_self, Option.some_inj] at before
        exact .inl (before ▸ List.mem_cons_self)
      · rw [get?_set_of_ne r w same] at before
        exact .inr before

theorem plainKeys (r : Ranges) : Value.PlainKeys (r.toList.map fun (n, _) => n.tag) := by
  have all : Value.PlainKeys ["attributes", "full", "name"] := by decide
  apply all.sublist
  obtain ⟨_ | _, _ | _, _ | _⟩ := r <;> simp [toList, RangeName.tag]

theorem written_toJson (r : Ranges) : r.toJson.Written :=
  Value.written_entries (plainKeys r) Range.written_toJson

theorem fits_iff {depth : Nat} {r : Ranges} :
    r.Fits depth ↔
      ∃ inner, enter? depth = some inner ∧ ∀ n v, r.get? n = some v → v.Fits inner := by
  rw [Fits, toJson, Value.levels_record_lt]
  simp only [List.forall_mem_map, Prod.forall, mem_toList]
  constructor
  · rintro ⟨addressable, inner, entered, levels⟩
    exact ⟨inner, entered, fun n v found => ⟨addressable n v found, levels n v found⟩⟩
  · rintro ⟨inner, entered, each⟩
    exact ⟨fun n v found => (each n v found).1, inner, entered, fun n v found => (each n v found).2⟩

theorem ofJson?_toJson {depth : Nat} {r : Ranges} (fits : r.Fits depth) :
    ofJson? depth r.toJson = some r := by
  obtain ⟨inner, entered, each⟩ := fits_iff.1 fits
  rw [ofJson?, entered]
  calc
    _ = some (r.toList.foldl (fun s (n, v) => s.set n v) {}) :=
      Value.bind_entries (plainKeys r) RangeName.ofTag?_tag
        (fun n v member => Range.ofJson?_toJson (each n v (mem_toList.1 member))) _
    _ = some r := by rw [foldl_set_toList]

theorem fits_of_ofJson? {depth : Nat} {v : Value} {r : Ranges} (h : ofJson? depth v = some r) :
    r.Fits depth := by
  simp only [ofJson?, Option.bind_eq_bind, Option.bind_eq_some_iff, Option.pure_def,
    Option.some_inj] at h
  obtain ⟨inner, entered, members, _, entries, read, rfl⟩ := h
  refine fits_iff.2 ⟨inner, entered, ?_⟩
  intro n v found
  rcases get?_foldl_set found with member | before
  · obtain ⟨w, rangeRead⟩ := Value.of_mem_entries read member
    exact Range.fits_of_ofJson? rangeRead
  · cases n <;> contradiction

end Ranges

namespace PropertyValue

theorem written_toJson (v : PropertyValue) : v.toJson.Written := by
  cases v with
  | flag b => exact .bool b
  | text s => exact Value.written_text s

theorem levels_toJson (v : PropertyValue) : v.toJson.levels = 0 := by
  cases v <;> rfl

theorem ofJson?_toJson (v : PropertyValue) : ofJson? v.toJson = some v := by
  cases v with
  | flag b => rfl
  | text s =>
    have read := Value.text?_text s
    rw [Value.text] at read
    rw [toJson, Value.text, ofJson?, read]
    · rfl
    · intro b same
      contradiction

end PropertyValue

namespace Properties

theorem foldl_set_toList (p : Properties) :
    p.toList.foldl (fun q (n, v) => q.set n v) {} = p := by
  obtain ⟨_ | _, _ | _⟩ := p <;> rfl

theorem plainKeys (p : Properties) : Value.PlainKeys (p.toList.map fun (n, _) => n.tag) := by
  have all : Value.PlainKeys ["accessibility", "static"] := by decide
  apply all.sublist
  obtain ⟨_ | _, _ | _⟩ := p <;> simp [toList, PropertyName.tag]

theorem written_toJson (p : Properties) : p.toJson.Written :=
  Value.written_entries (plainKeys p) PropertyValue.written_toJson

theorem levels_toJson_lt {depth : Nat} {p : Properties} :
    p.toJson.levels < depth ↔ ∃ inner, enter? depth = some inner := by
  rw [toJson, Value.levels_record_lt]
  constructor
  · rintro ⟨inner, entered, _⟩
    exact ⟨inner, entered⟩
  · rintro ⟨inner, entered⟩
    refine ⟨inner, entered, ?_⟩
    intro m member
    obtain ⟨⟨n, v⟩, _, rfl⟩ := List.mem_map.1 member
    rw [PropertyValue.levels_toJson]
    exact (Value.enter?_eq_some.1 entered).1

theorem ofJson?_toJson {depth : Nat} {p : Properties} (fits : p.toJson.levels < depth) :
    ofJson? depth p.toJson = some p := by
  obtain ⟨inner, entered⟩ := levels_toJson_lt.1 fits
  rw [ofJson?, entered]
  calc
    _ = some (p.toList.foldl (fun q (n, v) => q.set n v) {}) :=
      Value.bind_entries (plainKeys p) PropertyName.ofTag?_tag
        (fun _ v _ => PropertyValue.ofJson?_toJson v) _
    _ = some p := by rw [foldl_set_toList]

theorem levels_lt_of_ofJson? {depth : Nat} {v : Value} {p : Properties}
    (h : ofJson? depth v = some p) : p.toJson.levels < depth := by
  rw [ofJson?, Option.bind_eq_bind, Option.bind_eq_some_iff] at h
  obtain ⟨inner, entered, _⟩ := h
  exact levels_toJson_lt.2 ⟨inner, entered⟩

end Properties

namespace Element

def members (e : Element) : List (String × Value) :=
  e.leadFields ++ (e.children.map fun cs => ("children", .arr (cs.map toJson))).toList ++
    e.tailFields

theorem toJsons_eq_map (es : List Element) : toJsons es = es.map toJson := by
  induction es with
  | nil => rfl
  | cons e es ih => rw [toJsons, ih, List.map_cons]

theorem toJson_eq_record (e : Element) : e.toJson = .record e.members := by
  obtain ⟨kind, name, displayName, _ | children, ranges, properties⟩ := e
  · rfl
  · rw [toJson, toJsons_eq_map]
    rfl

theorem plainKeys (e : Element) : Value.PlainKeys (e.members.map Prod.fst) := by
  have all : Value.PlainKeys fieldNames := by decide
  apply all.sublist
  rw [members, tailFields, List.map_append, List.map_append, List.map_append]
  have first : (e.leadFields.map Prod.fst).Sublist ["kind", "name", "displayName"] :=
    List.Sublist.refl _
  exact (first.append (Value.keys_toList_sublist _ _ _)).append
    ((Value.keys_toList_sublist _ _ _).append (Value.keys_toList_sublist _ _ _))

theorem fields?_toJson (e : Element) :
    e.toJson.fields? fieldNames 3 =
      some [some (.text e.kind.tag), some (.text e.name), some (.text e.displayName),
        e.children.map fun cs => .arr (cs.map toJson), e.ranges.map Ranges.toJson,
        e.properties.map Properties.toJson] := by
  rw [toJson_eq_record, Value.fields?_record (plainKeys e)]
  obtain ⟨kind, name, displayName, _ | children, _ | ranges, _ | properties⟩ := e <;> rfl

theorem forall_members {P : Value → Prop} {e : Element} :
    (∀ m ∈ e.members, P m.2) ↔
      (∀ s ∈ [e.kind.tag, e.name, e.displayName], P (.text s)) ∧
      (∀ cs ∈ e.children, P (.arr (cs.map toJson))) ∧ (∀ r ∈ e.ranges, P r.toJson) ∧
      ∀ p ∈ e.properties, P p.toJson := by
  have first : (∀ m ∈ e.leadFields, P m.2) ↔
      ∀ s ∈ [e.kind.tag, e.name, e.displayName], P (.text s) := by
    simp [leadFields]
  rw [members, tailFields, List.forall_mem_append, List.forall_mem_append,
    List.forall_mem_append, Value.forall_toList, Value.forall_toList, Value.forall_toList, first,
    and_assoc]

theorem sizeOf_lt_of_mem {e c : Element} {cs : List Element} (member : cs ∈ e.children)
    (found : c ∈ cs) : sizeOf c < sizeOf e := by
  obtain ⟨kind, name, displayName, children, ranges, properties⟩ := e
  obtain rfl : children = some cs := member
  have inside := List.sizeOf_lt_of_mem found
  simp only [mk.sizeOf_spec, Option.some.sizeOf_spec]
  omega

theorem written_toJson (e : Element) : e.toJson.Written := by
  rw [toJson_eq_record]
  refine Value.written_record (plainKeys e) (forall_members.2 ⟨?_, ?_, ?_, ?_⟩)
  · intro s _
    exact Value.written_text s
  · intro cs member
    refine .arr ?_
    intro v found
    obtain ⟨c, below, rfl⟩ := List.mem_map.1 found
    exact written_toJson c
  · intro r _
    exact r.written_toJson
  · intro p _
    exact p.written_toJson
termination_by e
decreasing_by exact sizeOf_lt_of_mem member below

/-- All coordinates of an element, and of the elements below it, are offsets. -/
inductive Addressable : Element → Prop
  | mk {e : Element} (ranges : ∀ r ∈ e.ranges, r.Addressable)
      (children : ∀ cs ∈ e.children, ∀ c ∈ cs, Addressable c) : Addressable e

def Fits (depth : Nat) (e : Element) : Prop := e.Addressable ∧ e.toJson.levels < depth

theorem addressable_iff {e : Element} :
    e.Addressable ↔
      (∀ r ∈ e.ranges, r.Addressable) ∧ ∀ cs ∈ e.children, ∀ c ∈ cs, c.Addressable := by
  constructor
  · rintro ⟨ranges, children⟩
    exact ⟨ranges, children⟩
  · rintro ⟨ranges, children⟩
    exact ⟨ranges, children⟩

theorem levels_lt_iff {depth : Nat} {e : Element} :
    e.toJson.levels < depth ↔ ∃ inner, enter? depth = some inner ∧
      (∀ cs ∈ e.children, ∃ deeper, enter? inner = some deeper ∧
        ∀ c ∈ cs, c.toJson.levels < deeper) ∧
      (∀ r ∈ e.ranges, r.toJson.levels < inner) ∧
      ∀ p ∈ e.properties, p.toJson.levels < inner := by
  rw [toJson_eq_record, Value.levels_record_lt]
  refine exists_congr fun inner => and_congr_right fun entered => ?_
  have texts : ∀ s ∈ [e.kind.tag, e.name, e.displayName], (Value.text s).levels < inner :=
    fun _ _ => (Value.enter?_eq_some.1 entered).1
  rw [forall_members (P := fun v => v.levels < inner), and_iff_right texts]
  simp only [Value.levels_arr_lt, List.forall_mem_map]

theorem fits_iff {depth : Nat} {e : Element} :
    e.Fits depth ↔ ∃ inner, enter? depth = some inner ∧
      (∀ cs ∈ e.children, ∃ deeper, enter? inner = some deeper ∧ ∀ c ∈ cs, c.Fits deeper) ∧
      (∀ r ∈ e.ranges, r.Fits inner) ∧ ∀ p ∈ e.properties, p.toJson.levels < inner := by
  rw [Fits, addressable_iff, levels_lt_iff]
  constructor
  · rintro ⟨⟨ranges, children⟩, inner, entered, below, rangeLevels, propertyLevels⟩
    refine ⟨inner, entered, ?_, fun r member => ⟨ranges r member, rangeLevels r member⟩,
      propertyLevels⟩
    intro cs member
    obtain ⟨deeper, within, levels⟩ := below cs member
    exact ⟨deeper, within, fun c found => ⟨children cs member c found, levels c found⟩⟩
  · rintro ⟨inner, entered, children, ranges, propertyLevels⟩
    refine ⟨⟨fun r member => (ranges r member).1, ?_⟩, inner, entered, ?_,
      fun r member => (ranges r member).2, propertyLevels⟩
    · intro cs member c found
      obtain ⟨deeper, _, each⟩ := children cs member
      exact (each c found).1
    · intro cs member
      obtain ⟨deeper, within, each⟩ := children cs member
      exact ⟨deeper, within, fun c found => (each c found).2⟩

def children? (depth : Nat) : Value → Option (List Element)
  | .arr items => do items.mapM (ofJson? (← enter? depth))
  | _ => none

theorem of_children? {depth : Nat} {v : Value} {cs : List Element}
    (h : children? depth v = some cs) :
    ∃ deeper, enter? depth = some deeper ∧ ∀ c ∈ cs, ∃ w, ofJson? deeper w = some c := by
  cases v with
  | arr items =>
    simp only [children?, Option.bind_eq_bind, Option.bind_eq_some_iff] at h
    obtain ⟨deeper, within, read⟩ := h
    refine ⟨deeper, within, ?_⟩
    intro c found
    obtain ⟨w, _, childRead⟩ := Value.mem_of_mapM read c found
    exact ⟨w, childRead⟩
  | _ => contradiction

theorem ofJson?_of_enter? {depth inner : Nat} (entered : enter? depth = some inner) (v : Value) :
    ofJson? depth v = (do
      match ← v.fields? fieldNames 3 with
      | [some kind, some name, some displayName, children, ranges, properties] =>
        let kind ← (kind.tag? inner).bind ElementKind.ofTag?
        let name ← name.text?
        let displayName ← displayName.text?
        let children ← Value.optional? (children? inner) children
        let ranges ← Value.optional? (Ranges.ofJson? inner) ranges
        let properties ← Value.optional? (Properties.ofJson? inner) properties
        pure { kind, name, displayName, children, ranges, properties }
      | _ => none) := by
  obtain ⟨pos, rfl⟩ := Value.enter?_eq_some.1 entered
  obtain ⟨depth, rfl⟩ : ∃ n, inner = n + 1 := Nat.exists_eq_add_one.2 pos
  have same : (fun v => match v with
      | .arr items => if depth = 0 then none else items.mapM (ofJson? depth)
      | _ => none) = children? (depth + 1) := by
    funext v
    cases v with
    | arr items => by_cases top : depth = 0 <;> simp [children?, enter?, top]
    | _ => rfl
  rewrite [ofJson?, ← same]
  rfl

theorem ofJson?_eq_none {depth : Nat} (closed : enter? depth = none) (v : Value) :
    ofJson? depth v = none := by
  by_cases low : depth ≤ 1
  · obtain rfl | rfl : depth = 0 ∨ depth = 1 := by omega
    · rfl
    · rfl
  · rw [enter?, if_neg low] at closed
    contradiction

theorem ofJson?_toJson {depth : Nat} {e : Element} (fits : e.Fits depth) :
    ofJson? depth e.toJson = some e := by
  obtain ⟨inner, entered, below, ranges, properties⟩ := fits_iff.1 fits
  have childrenRead : Value.optional? (children? inner)
      (e.children.map fun cs => .arr (cs.map toJson)) = some e.children := by
    refine Value.optional?_map nofun ?_
    intro cs member
    obtain ⟨deeper, within, each⟩ := below cs member
    rw [children?, within]
    exact Value.mapM_map fun c found => ofJson?_toJson (each c found)
  have rangesRead : Value.optional? (Ranges.ofJson? inner) (e.ranges.map Ranges.toJson) =
      some e.ranges :=
    Value.optional?_map nofun fun r member => Ranges.ofJson?_toJson (ranges r member)
  have propertiesRead : Value.optional? (Properties.ofJson? inner)
      (e.properties.map Properties.toJson) = some e.properties :=
    Value.optional?_map nofun fun p member => Properties.ofJson?_toJson (properties p member)
  rw [ofJson?_of_enter? entered, fields?_toJson]
  simp only [Option.bind_eq_bind, Option.bind_some, Value.tag?_text, Value.text?_text,
    ElementKind.ofTag?_tag, childrenRead, rangesRead, propertiesRead]
  cases e
  rfl
termination_by e
decreasing_by exact sizeOf_lt_of_mem member found

theorem of_ofJson? {depth : Nat} {v : Value} {e : Element} (h : ofJson? depth v = some e) :
    ∃ inner, enter? depth = some inner ∧
      (∀ cs ∈ e.children, ∃ w, children? inner w = some cs) ∧
      (∀ r ∈ e.ranges, ∃ w, Ranges.ofJson? inner w = some r) ∧
      ∀ p ∈ e.properties, ∃ w, Properties.ofJson? inner w = some p := by
  cases entered : enter? depth with
  | none =>
    rw [ofJson?_eq_none entered] at h
    contradiction
  | some inner =>
    rw [ofJson?_of_enter? entered, Option.bind_eq_bind, Option.bind_eq_some_iff] at h
    obtain ⟨fields, _, h⟩ := h
    split at h
    · simp only [Option.bind_eq_bind, Option.bind_eq_some_iff, Option.pure_def,
        Option.some_inj] at h
      obtain ⟨kind, _, name, _, displayName, _, children, childrenRead, ranges, rangesRead,
        properties, propertiesRead, rfl⟩ := h
      refine ⟨inner, rfl, ?_, ?_, ?_⟩
      · rintro cs rfl
        exact Value.of_optional? childrenRead
      · rintro r rfl
        exact Value.of_optional? rangesRead
      · rintro p rfl
        exact Value.of_optional? propertiesRead
    · contradiction

theorem fits_of_ofJson? {depth : Nat} {v : Value} {e : Element} (h : ofJson? depth v = some e) :
    e.Fits depth := by
  -- what was read says nothing of `v`'s size, so the depth carries the induction: it drops by two
  induction depth using Nat.strongRecOn generalizing v e with
  | ind depth ih =>
    obtain ⟨inner, entered, children, ranges, properties⟩ := of_ofJson? h
    refine fits_iff.2 ⟨inner, entered, ?_, ?_, ?_⟩
    · intro cs member
      obtain ⟨w, read⟩ := children cs member
      obtain ⟨deeper, within, each⟩ := of_children? read
      refine ⟨deeper, within, ?_⟩
      intro c found
      obtain ⟨u, childRead⟩ := each c found
      rw [Value.enter?_eq_some] at entered within
      exact ih deeper (by omega) childRead
    · intro r member
      obtain ⟨w, read⟩ := ranges r member
      exact Ranges.fits_of_ofJson? read
    · intro p member
      obtain ⟨w, read⟩ := properties p member
      exact Properties.levels_lt_of_ofJson? read

theorem ofText?_toText (e : Element) : ofText? e.toText = ofJson? Json.nesting e.toJson := by
  rw [ofText?, toText, (written_toJson e).read?_toText]
  rfl

theorem fits_of_ofText? {s : String} {e : Element} (h : ofText? s = some e) :
    e.Fits Json.nesting := by
  rw [ofText?, Option.bind_eq_bind, Option.bind_eq_some_iff] at h
  obtain ⟨v, _, read⟩ := h
  exact fits_of_ofJson? read

theorem toJson_eq_of_toText_eq {e f : Element} (h : e.toText = f.toText) : e.toJson = f.toJson := by
  rw [toText, toText] at h
  apply Option.some.inj
  rw [← (written_toJson e).read?_toText, h, (written_toJson f).read?_toText]

/-- Within the levels that a reader enters nothing of an element is lost in its text, no two
elements share a text however deep they are, and what any text was read as is read again from its
own text. -/
theorem text_keeps_element :
    (∀ e : Element, ofText? e.toText = some e ↔
      e.Addressable ∧ e.toJson.levels < Json.nesting) ∧
    (∀ e f : Element, e.Addressable → f.Addressable → e.toText = f.toText → e = f) ∧
    ∀ s e, ofText? s = some e → ofText? e.toText = some e := by
  refine ⟨?_, ?_, ?_⟩
  · intro e
    refine ⟨fits_of_ofText?, ?_⟩
    intro fits
    rw [ofText?_toText]
    exact ofJson?_toJson fits
  · intro e f addressable addressable' same
    -- No text is read at this depth: it only has to be enough for both.
    have tree := toJson_eq_of_toText_eq same
    have first := ofJson?_toJson ⟨addressable, Nat.lt_succ_self e.toJson.levels⟩
    have second := ofJson?_toJson ⟨addressable', Nat.lt_succ_self f.toJson.levels⟩
    rw [← tree, first] at second
    exact Option.some.inj second
  · intro s e read
    rw [ofText?_toText]
    exact ofJson?_toJson (fits_of_ofText? read)

/-- A method with control characters, a quote and a backslash in its name, the largest coordinates
and a property that is the text of a flag; one child has nothing, the other has all and it is
empty. -/
def quotedControl : Element where
  kind := .method
  name := "a\x01\n\"b\\"
  displayName := "𝄞\x7f/"
  children := some [{}, { children := some [], ranges := some {}, properties := some {} }]
  ranges := some { full := some ⟨⟨0, 0⟩, ⟨18446744073709551615, 18446744073709551615⟩⟩ }
  properties := some { accessibility := some (.text "true"), isStatic := some (.flag true) }

theorem quotedControl_kept :
    quotedControl.Addressable ∧ quotedControl.toJson.levels < Json.nesting ∧
      ofText? quotedControl.toText = some quotedControl ∧
      ({} : Element).toText ≠
        ({ children := some [], ranges := some {}, properties := some {} } : Element).toText := by
  have absent : ({} : Element).Addressable := ⟨nofun, nofun⟩
  have empty : ({ children := some [], ranges := some {}, properties := some {} } :
      Element).Addressable := by
    refine ⟨?_, by simp⟩
    rintro _ ⟨⟩ n v found
    cases n <;> contradiction
  have addressable : quotedControl.Addressable := by
    refine ⟨?_, ?_⟩
    · rintro _ ⟨⟩ n v found
      cases n with
      | full =>
        obtain rfl := Option.some.inj found
        refine ⟨⟨?_, ?_⟩, ?_, ?_⟩ <;> decide
      | _ => contradiction
    · rintro _ ⟨⟩
      simp [absent, empty]
  have levels : quotedControl.toJson.levels < Json.nesting := by decide
  refine ⟨addressable, levels, (text_keeps_element.1 _).2 ⟨addressable, levels⟩, ?_⟩
  intro same
  have := text_keeps_element.2.1 _ _ absent empty same
  simp at this

end Element
end CodeAtlas
