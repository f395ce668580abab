import CodeAtlas.Element.Builder
import CodeAtlas.Element.Json
import Mathlib.Data.List.Nodup
import Mathlib.Data.List.Perm.Basic

/-!
What an element remembers of the steps that build it. A run stops at the first step that adds a
range or a property under a name used before. Otherwise the element has the last kind and names that
were set, the children in the order in which they were added, and the ranges and properties in no
order at all, so that steps in another order build the same element.
-/
namespace CodeAtlas

namespace BuildStep

def kind? : BuildStep → Option ElementKind
  | .kind k => some k
  | _ => none

def name? : BuildStep → Option String
  | .name s => some s
  | _ => none

def displayName? : BuildStep → Option String
  | .displayName s => some s
  | _ => none

def child? : BuildStep → Option Element
  | .child c => some c
  | _ => none

def key? : BuildStep → Option Duplicate
  | .range n _ => some (.range n)
  | .property n _ => some (.property n)
  | _ => none

def keys (steps : List BuildStep) : List Duplicate := steps.filterMap key?

def last? {α : Type} (setting? : BuildStep → Option α) (steps : List BuildStep) : Option α :=
  (steps.filterMap setting?).getLast?

theorem range_mem_keys {n : RangeName} {steps : List BuildStep} :
    .range n ∈ keys steps ↔ ∃ r, .range n r ∈ steps := by
  rw [keys, List.mem_filterMap]
  constructor
  · rintro ⟨s, member, adds⟩
    cases s with
    | range m r =>
      cases adds
      exact ⟨r, member⟩
    | _ => cases adds
  · rintro ⟨r, member⟩
    exact ⟨_, member, rfl⟩

theorem property_mem_keys {n : PropertyName} {steps : List BuildStep} :
    .property n ∈ keys steps ↔ ∃ v, .property n v ∈ steps := by
  rw [keys, List.mem_filterMap]
  constructor
  · rintro ⟨s, member, adds⟩
    cases s with
    | property m v =>
      cases adds
      exact ⟨v, member⟩
    | _ => cases adds
  · rintro ⟨v, member⟩
    exact ⟨_, member, rfl⟩

end BuildStep

/-- A collection that is there if anything was added to it, and then has just what was added. -/
structure Holds {C K V : Type} (get? : C → K → Option V) (added : K → V → Prop) (c : Option C) :
    Prop where
  absent : c = none ↔ ∀ k v, ¬ added k v
  entries : ∀ k v, c.bind (get? · k) = some v ↔ added k v

namespace Holds
variable {C K V : Type} {get? : C → K → Option V} {added : K → V → Prop} {c d : Option C}

theorem congr {added' : K → V → Prop} (same : ∀ k v, added k v ↔ added' k v)
    (h : Holds get? added c) : Holds get? added' c := by
  refine ⟨?_, ?_⟩
  · simp only [h.absent, same]
  · simp only [h.entries, same, implies_true]

theorem get?_of_unused (h : Holds get? added c) {k : K} (unused : ∀ v, ¬ added k v) :
    c.bind (get? · k) = none := by
  rw [Option.eq_none_iff_forall_ne_some]
  intro v found
  exact unused v ((h.entries k v).1 found)

theorem add (h : Holds get? added c) (set : C → K → V → C) (blank : C) {k : K} {v : V}
    (unused : ∀ v, ¬ added k v) (get?_blank : ∀ j, get? blank j = none)
    (get?_set_self : ∀ c, get? (set c k v) k = some v)
    (get?_set_of_ne : ∀ c j, j ≠ k → get? (set c k v) j = get? c j) :
    Holds get? (fun j w => added j w ∨ (j = k ∧ w = v)) (some (set (c.getD blank) k v)) := by
  refine ⟨⟨nofun, fun none => absurd (.inr ⟨rfl, rfl⟩) (none k v)⟩, ?_⟩
  intro j w
  rw [Option.bind_some]
  by_cases same : j = k
  · subst same
    rw [get?_set_self, Option.some.injEq]
    have fresh := unused w
    simp only [fresh, false_or, true_and, eq_comm]
  · rw [get?_set_of_ne _ _ same, ← h.entries]
    cases c with
    | none => simp [get?_blank, same]
    | some c => simp [same]

theorem unique (ext : ∀ a b, (∀ k, get? a k = get? b k) → a = b) (h : Holds get? added c)
    (h' : Holds get? added d) : c = d := by
  have alike : c = none ↔ d = none := h.absent.trans h'.absent.symm
  cases c with
  | none => exact (alike.1 rfl).symm
  | some a =>
    cases d with
    | none => exact absurd (alike.2 rfl) nofun
    | some b =>
      congr 1
      apply ext
      intro k
      exact Option.ext fun v => (h.entries k v).trans (h'.entries k v).symm

end Holds

namespace Ranges

theorem ext_get? (a b : Ranges) (same : ∀ n, a.get? n = b.get? n) : a = b := by
  cases a
  cases b
  congr 1
  · exact same .attributes
  · exact same .full
  · exact same .name

end Ranges

namespace Properties

theorem ext_get? (a b : Properties) (same : ∀ n, a.get? n = b.get? n) : a = b := by
  cases a
  cases b
  congr 1
  · exact same .accessibility
  · exact same .isStatic

end Properties

namespace Element
open BuildStep

/-- The element has what the steps set last and all that they added. -/
structure Records (steps : List BuildStep) (e : Element) : Prop where
  kind : e.kind = (last? kind? steps).getD .unknown
  name : e.name = (last? name? steps).getD ""
  displayName : e.displayName = (last? displayName? steps).getD ""
  children : e.children =
    if steps.filterMap child? = [] then none else some (steps.filterMap child?)
  ranges : Holds Ranges.get? (fun n r => .range n r ∈ steps) e.ranges
  properties : Holds Properties.get? (fun n v => .property n v ∈ steps) e.properties

theorem records_empty : Records [] empty where
  kind := rfl
  name := rfl
  displayName := rfl
  children := rfl
  ranges := ⟨by simp [empty], by simp [empty]⟩
  properties := ⟨by simp [empty], by simp [empty]⟩

theorem Records.unique {steps : List BuildStep} {e f : Element} (he : Records steps e)
    (hf : Records steps f) : e = f := by
  have ranges := he.ranges.unique Ranges.ext_get? hf.ranges
  have properties := he.properties.unique Properties.ext_get? hf.properties
  cases e
  cases f
  congr 1
  · exact he.kind.trans hf.kind.symm
  · exact he.name.trans hf.name.symm
  · exact he.displayName.trans hf.displayName.symm
  · exact he.children.trans hf.children.symm

section Steps
variable {before : List BuildStep} {e f : Element} {s : BuildStep}

theorem filterMap_concat {α : Type} (read? : BuildStep → Option α) :
    (before ++ [s]).filterMap read? = before.filterMap read? ++ (read? s).toList := by
  rw [List.filterMap_append]
  cases found : read? s with
  | none => rw [List.filterMap_cons_none found]; rfl
  | some a => rw [List.filterMap_cons_some found]; rfl

theorem last?_concat {α : Type} (setting? : BuildStep → Option α) (default : α) :
    (last? setting? (before ++ [s])).getD default =
      (setting? s).getD ((last? setting? before).getD default) := by
  rw [last?, last?, filterMap_concat, List.getLast?_append]
  cases setting? s <;> rfl

theorem Records.concat (h : Records before e) (kind : f.kind = (kind? s).getD e.kind)
    (name : f.name = (name? s).getD e.name)
    (displayName : f.displayName = (displayName? s).getD e.displayName)
    (children : f.children = ((child? s).map fun c => e.children.getD [] ++ [c]).or e.children)
    (ranges : Holds Ranges.get? (fun n r => .range n r ∈ before ∨ .range n r = s) f.ranges)
    (properties :
      Holds Properties.get? (fun n v => .property n v ∈ before ∨ .property n v = s) f.properties) :
    Records (before ++ [s]) f where
  kind := by rw [last?_concat, kind, h.kind]
  name := by rw [last?_concat, name, h.name]
  displayName := by rw [last?_concat, displayName, h.displayName]
  children := by
    rw [children, h.children, filterMap_concat]
    cases child? s with
    | none => rw [Option.toList_none, List.append_nil]; rfl
    | some c => split <;> simp_all
  ranges := ranges.congr (by simp)
  properties := properties.congr (by simp)

theorem apply_of_used {d : Duplicate} (h : Records before e) (adds : s.key? = some d)
    (used : d ∈ keys before) : e.apply s = .error d := by
  cases s with
  | range n r =>
    obtain rfl : Duplicate.range n = d := Option.some.inj adds
    obtain ⟨r', member⟩ := range_mem_keys.1 used
    have found : e.range? n = some r' := (h.ranges.entries n r').2 member
    rw [apply, addRange, if_pos (by rw [found]; rfl)]
  | property n v =>
    obtain rfl : Duplicate.property n = d := Option.some.inj adds
    obtain ⟨v', member⟩ := property_mem_keys.1 used
    have found : e.property? n = some v' := (h.properties.entries n v').2 member
    rw [apply, addProperty, if_pos (by rw [found]; rfl)]
  | kind | name | displayName | child => cases adds

theorem apply_of_unused (h : Records before e) (unused : ∀ d, s.key? = some d → d ∉ keys before) :
    ∃ f, e.apply s = .ok f ∧ Records (before ++ [s]) f := by
  have ranges : (∀ n r, .range n r ≠ s) →
      Holds Ranges.get? (fun n r => .range n r ∈ before ∨ .range n r = s) e.ranges :=
    fun other => h.ranges.congr (by simp [other])
  have properties : (∀ n v, .property n v ≠ s) →
      Holds Properties.get? (fun n v => .property n v ∈ before ∨ .property n v = s) e.properties :=
    fun other => h.properties.congr (by simp [other])
  cases s with
  | range n r =>
    have fresh : ∀ r', .range n r' ∉ before := by
      intro r' member
      exact unused _ rfl (range_mem_keys.2 ⟨r', member⟩)
    have none : e.range? n = none := h.ranges.get?_of_unused fresh
    have added := h.ranges.add Ranges.set {} fresh (fun j => by cases j <;> rfl)
      (fun c => c.get?_set_self n r) (fun c j other => c.get?_set_of_ne r other)
    refine ⟨_, by rw [apply, addRange, if_neg (by rw [none]; decide)], ?_⟩
    exact h.concat rfl rfl rfl rfl (added.congr (by simp)) (properties nofun)
  | property n v =>
    have fresh : ∀ v', .property n v' ∉ before := by
      intro v' member
      exact unused _ rfl (property_mem_keys.2 ⟨v', member⟩)
    have none : e.property? n = none := h.properties.get?_of_unused fresh
    have added := h.properties.add Properties.set {} fresh (fun j => by cases j <;> rfl)
      (fun c => c.get?_set_self n v) (fun c j other => c.get?_set_of_ne v other)
    refine ⟨_, by rw [apply, addProperty, if_neg (by rw [none]; decide)], ?_⟩
    exact h.concat rfl rfl rfl rfl (ranges nofun) (added.congr (by simp))
  | kind | name | displayName | child =>
    exact ⟨_, rfl, h.concat rfl rfl rfl rfl (ranges nofun) (properties nofun)⟩

end Steps

section Runs
variable {before steps : List BuildStep} {e : Element} {d : Duplicate}

/-- After `before` comes the first step that adds something under a name used before, and that name
is `d`. -/
structure FirstRepeat (steps before : List BuildStep) (d : Duplicate) : Prop where
  next : ∃ s after, steps = before ++ s :: after ∧ s.key? = some d
  used : d ∈ keys before
  distinct : (keys before).Nodup

theorem FirstRepeat.not_nodup (h : FirstRepeat steps before d) : ¬ (keys steps).Nodup := by
  obtain ⟨s, after, rfl, adds⟩ := h.next
  intro distinct
  rw [keys, List.filterMap_append, List.filterMap_cons_some adds, List.nodup_append] at distinct
  exact distinct.2.2 d h.used d List.mem_cons_self rfl

theorem build_append (e : Element) (a b : List BuildStep) :
    e.build (a ++ b) = (e.build a).bind fun f => f.build b := by
  induction a generalizing e with
  | nil => rfl
  | cons s rest ih =>
    rw [List.cons_append, build, build]
    cases e.apply s with
    | error d => rfl
    | ok f => exact ih f

/-- A run from an element with a history either records all steps or stops at the first repeat. -/
theorem build_cases (h : Records before e) (distinct : (keys before).Nodup)
    (steps : List BuildStep) :
    ((keys (before ++ steps)).Nodup ∧ ∃ f, e.build steps = .ok f ∧ Records (before ++ steps) f) ∨
      ∃ front d, FirstRepeat (before ++ steps) (before ++ front) d ∧ e.build steps = .error d := by
  induction steps generalizing before e with
  | nil =>
    left
    rw [List.append_nil]
    exact ⟨distinct, e, rfl, h⟩
  | cons s rest ih =>
    rw [build]
    by_cases used : ∃ d, s.key? = some d ∧ d ∈ keys before
    · obtain ⟨d, adds, used⟩ := used
      right
      refine ⟨[], d, ?_, by rw [apply_of_used h adds used]; rfl⟩
      rw [List.append_nil]
      exact ⟨⟨s, rest, rfl, adds⟩, used, distinct⟩
    · have unused : ∀ d, s.key? = some d → d ∉ keys before :=
        fun d adds member => used ⟨d, adds, member⟩
      obtain ⟨f, applied, records⟩ := apply_of_unused h unused
      have extended : (keys (before ++ [s])).Nodup := by
        rw [keys, filterMap_concat, List.nodup_append]
        refine ⟨distinct, by cases s.key? <;> simp, ?_⟩
        rintro a member b adds rfl
        exact unused a (Option.mem_toList.1 adds) member
      have run := ih records extended
      rw [List.append_assoc, List.singleton_append] at run
      rw [applied]
      rcases run with kept | ⟨front, d, first, stopped⟩
      · exact .inl kept
      · rw [List.append_assoc] at first
        exact .inr ⟨s :: front, d, first, stopped⟩

theorem build_of_nodup (distinct : (keys steps).Nodup) :
    ∃ f, empty.build steps = .ok f ∧ Records steps f := by
  rcases build_cases records_empty List.nodup_nil steps with kept | ⟨front, d, first, _⟩
  · exact kept.2
  · exact absurd distinct first.not_nodup

theorem build_of_repeat (h : FirstRepeat steps before d) : empty.build steps = .error d := by
  obtain ⟨f, built, records⟩ := build_of_nodup h.distinct
  obtain ⟨s, after, rfl, adds⟩ := h.next
  rw [build_append, built]
  change (f.apply s).bind _ = _
  rw [apply_of_used records adds h.used]
  rfl

theorem build_eq_error_iff : empty.build steps = .error d ↔ ∃ before, FirstRepeat steps before d := by
  constructor
  · intro stopped
    rcases build_cases records_empty List.nodup_nil steps with
      ⟨_, f, built, _⟩ | ⟨front, d', first, found⟩
    · cases stopped.symm.trans built
    · cases stopped.symm.trans found
      exact ⟨front, first⟩
  · rintro ⟨before, first⟩
    exact build_of_repeat first

theorem build_eq_ok_iff :
    empty.build steps = .ok e ↔ (keys steps).Nodup ∧ Records steps e := by
  constructor
  · intro built
    rcases build_cases records_empty List.nodup_nil steps with
      ⟨distinct, f, found, records⟩ | ⟨front, d, _, stopped⟩
    · cases built.symm.trans found
      exact ⟨distinct, records⟩
    · cases built.symm.trans stopped
  · rintro ⟨distinct, records⟩
    obtain ⟨f, built, found⟩ := build_of_nodup distinct
    rw [built, records.unique found]

theorem exists_error_iff : (∃ d, empty.build steps = .error d) ↔ ¬ (keys steps).Nodup := by
  constructor
  · rintro ⟨d, stopped⟩
    obtain ⟨before, first⟩ := build_eq_error_iff.1 stopped
    exact first.not_nodup
  · intro repeated
    cases run : empty.build steps with
    | error d => exact ⟨d, rfl⟩
    | ok e => exact absurd (build_eq_ok_iff.1 run).1 repeated

theorem build_take (h : FirstRepeat steps before d) (j : Nat) :
    (j ≤ before.length → ∃ e, empty.build (steps.take j) = .ok e) ∧
      (before.length < j → empty.build (steps.take j) = .error d) := by
  obtain ⟨s, after, rfl, adds⟩ := h.next
  constructor
  · intro early
    rw [List.take_append_of_le_length early]
    obtain ⟨f, built, _⟩ := build_of_nodup
      (h.distinct.sublist ((List.take_sublist j before).filterMap key?))
    exact ⟨f, built⟩
  · intro late
    obtain ⟨k, rfl⟩ : ∃ k, j = before.length + (k + 1) := ⟨j - before.length - 1, by omega⟩
    rw [List.take_length_add_append, List.take_succ_cons]
    exact build_of_repeat ⟨⟨s, after.take k, rfl, adds⟩, h.used, h.distinct⟩

end Runs

/-- The same steps in another order, with the children in the same order and the same last
settings. -/
structure Reordered (a b : List BuildStep) : Prop where
  perm : a.Perm b
  children : a.filterMap child? = b.filterMap child?
  kind : last? kind? a = last? kind? b
  name : last? name? a = last? name? b
  displayName : last? displayName? a = last? displayName? b

namespace Reordered
variable {a b : List BuildStep} (h : Reordered a b)
include h

theorem nodup_keys : (keys a).Nodup ↔ (keys b).Nodup := (h.perm.filterMap key?).nodup_iff

theorem records {e : Element} (records : Records a e) : Records b e where
  kind := h.kind ▸ records.kind
  name := h.name ▸ records.name
  displayName := h.displayName ▸ records.displayName
  children := h.children ▸ records.children
  ranges := records.ranges.congr fun _ _ => h.perm.mem_iff
  properties := records.properties.congr fun _ _ => h.perm.mem_iff

end Reordered

/-- Steps fail exactly when a range or a property is added a second time, at the first such step and
with its name. Otherwise they build the element with their last settings, their children in order and
just their ranges and properties, so that their order is seen in the children and the last settings
alone. -/
theorem build_follows_steps (steps : List BuildStep) :
    ((∃ d, empty.build steps = .error d) ↔ ¬ (keys steps).Nodup) ∧
      (∀ d, empty.build steps = .error d ↔ ∃ before, FirstRepeat steps before d) ∧
      (∀ before d, FirstRepeat steps before d → ∀ j,
        (j ≤ before.length → ∃ e, empty.build (steps.take j) = .ok e) ∧
          (before.length < j → empty.build (steps.take j) = .error d)) ∧
      (∀ e, empty.build steps = .ok e ↔ (keys steps).Nodup ∧ Records steps e) ∧
      ∀ others, Reordered steps others →
        ((∃ d, empty.build steps = .error d) ↔ ∃ d, empty.build others = .error d) ∧
          ∀ e, empty.build steps = .ok e →
            ∃ f, empty.build others = .ok f ∧ f = e ∧ f.toText = e.toText := by
  refine ⟨exists_error_iff, fun _ => build_eq_error_iff, fun _ _ first => build_take first,
    fun _ => build_eq_ok_iff, ?_⟩
  intro others reordered
  refine ⟨?_, ?_⟩
  · rw [exists_error_iff, exists_error_iff, reordered.nodup_keys]
  · intro e built
    obtain ⟨distinct, records⟩ := build_eq_ok_iff.1 built
    refine ⟨e, ?_, rfl, rfl⟩
    exact build_eq_ok_iff.2 ⟨reordered.nodup_keys.1 distinct, reordered.records records⟩

def mixedSteps : List BuildStep :=
  [.name "a", .child { name := "x" }, .range .full ⟨⟨0, 1⟩, ⟨2, 3⟩⟩, .name "b",
    .child { name := "y" }, .property .isStatic (.flag true)]

def shuffledSteps : List BuildStep :=
  [.property .isStatic (.flag true), .child { name := "x" }, .name "a",
    .range .full ⟨⟨0, 1⟩, ⟨2, 3⟩⟩, .name "b", .child { name := "y" }]

def repeatedSteps : List BuildStep :=
  mixedSteps ++ [.kind .class, .range .full ⟨⟨4, 5⟩, ⟨6, 7⟩⟩, .property .isStatic (.flag true)]

theorem mixedSteps_followed :
    (Reordered mixedSteps shuffledSteps ∧
        ∃ e f, empty.build mixedSteps = .ok e ∧ empty.build shuffledSteps = .ok f ∧ f = e ∧
          f.toText = e.toText ∧ e.name = "b" ∧
          e.children.map (·.map Element.name) = some ["x", "y"]) ∧
      FirstRepeat repeatedSteps (mixedSteps ++ [.kind .class]) (.range .full) ∧
        (∃ e, empty.build (repeatedSteps.take 7) = .ok e) ∧
        empty.build (repeatedSteps.take 8) = .error (.range .full) ∧
        empty.build repeatedSteps = .error (.range .full) := by
  have reordered : Reordered mixedSteps shuffledSteps := by
    refine ⟨?_, rfl, rfl, rfl, rfl⟩
    have moved := List.perm_append_singleton (.property .isStatic (.flag true)) (mixedSteps.take 5)
    exact moved.trans ((List.Perm.swap _ _ _).cons _)
  have first : FirstRepeat repeatedSteps (mixedSteps ++ [.kind .class]) (.range .full) :=
    ⟨⟨_, _, rfl, rfl⟩, by decide, by decide⟩
  obtain ⟨_, _, _, _, orders⟩ := build_follows_steps mixedSteps
  obtain ⟨_, errors, prefixes, _⟩ := build_follows_steps repeatedSteps
  obtain ⟨f, other, same, text⟩ := (orders _ reordered).2 _ rfl
  exact ⟨⟨reordered, _, f, rfl, other, same, text, rfl, rfl⟩, first,
    (prefixes _ _ first 7).1 (by decide), (prefixes _ _ first 8).2 (by decide),
    (errors _).2 ⟨_, first⟩⟩

end Element
end CodeAtlas
