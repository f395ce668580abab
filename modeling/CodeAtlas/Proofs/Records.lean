import CodeAtlas.Proofs.Listing
import CodeAtlas.Proofs.TextParts
import Mathlib.Data.List.Lex
import Mathlib.Data.List.Sort

/-!
What the records of a forest of elements tell of it. Each element has an address, the places that
lead to it from the top, and the order in which the elements are reported is the order of their
addresses. The depth, the kind and the name can be read back from the text of a record. The
depths alone give the addresses, so the records tell the forest's shape with its kinds and names.
-/
namespace CodeAtlas

/-- The way to an element: its root's place among the roots, then a place among the children for
each level below. -/
abbrev Address := List Nat

namespace Address

/-- The address at a depth that comes after `last`: the next place beside the one that leads to
`last`, or the first place if `last` ends above that depth. -/
def next (last : Address) (depth : Nat) : Address :=
  last.take depth ++ [last[depth]?.elim 0 (· + 1)]

def assign {α : Type} (last : Address) : List (Nat × α) → List (Address × α)
  | [] => []
  | (depth, x) :: rest => (next last depth, x) :: assign (next last depth) rest

theorem next_below (a : Address) : next a a.length = a ++ [0] := by
  simp [next]

/-- Wherever the elements below `parent ++ [i]` end, the next one beside it has the next place. -/
theorem next_beside {last parent : Address} {i n : Nat}
    (inside : next last (parent.length + 1) = parent ++ [i] ++ [n]) :
    next last parent.length = parent ++ [i + 1] := by
  have lead : last.take (parent.length + 1) = parent ++ [i] := (List.append_inj' inside rfl).1
  have front : last.take parent.length = parent := by
    have shorter := congrArg (List.take parent.length) lead
    rwa [List.take_take, Nat.min_eq_left (Nat.le_succ _), List.take_left] at shorter
  have place : last[parent.length]? = some i := by
    rw [← List.getElem?_take_of_lt (Nat.lt_succ_self parent.length), lead,
      List.getElem?_concat_length]
  rw [next, front, place]
  rfl

theorem assign_map {α β : Type} (f : α → β) (last : Address) (rows : List (Nat × α)) :
    assign last (rows.map fun r => (r.1, f r.2)) =
      (assign last rows).map fun s => (s.1, f s.2) := by
  induction rows generalizing last with
  | nil => rfl
  | cons r rest ih => rw [List.map_cons, assign, ih, assign, List.map_cons]

end Address

namespace Element

def descend? (e : Element) : Address → Option Element
  | [] => some e
  | i :: rest => e.offspring[i]?.bind fun c => c.descend? rest

def locate? (es : List Element) : Address → Option Element
  | [] => none
  | i :: rest => es[i]?.bind fun e => e.descend? rest

/-- The shape of a forest with its kinds and names: which addresses there are, and what is there. -/
def sketch (es : List Element) (a : Address) : Option (ElementKind × String) :=
  (locate? es a).map fun e => (e.kind, e.name)

mutual

def survey (a : Address) : Element → List (Address × Element)
  | e@⟨_, _, _, some children, _, _⟩ => (a, e) :: surveys a 0 children
  | e@⟨_, _, _, none, _, _⟩ => [(a, e)]

def surveys (parent : Address) (i : Nat) : List Element → List (Address × Element)
  | [] => []
  | e :: rest => survey (parent ++ [i]) e ++ surveys parent (i + 1) rest

end

theorem forest_induction {P : List Element → Prop} (nil : P [])
    (cons : ∀ e rest, P e.offspring → P rest → P (e :: rest)) : (es : List Element) → P es
  | [] => nil
  | ⟨_, _, _, none, _, _⟩ :: rest => cons _ rest nil (forest_induction nil cons rest)
  | ⟨_, _, _, some children, _, _⟩ :: rest =>
    cons _ rest (forest_induction nil cons children) (forest_induction nil cons rest)

theorem listings_cons (depth : Nat) (e : Element) (rest : List Element) :
    listings depth (e :: rest) =
      (depth, e) :: (listings (depth + 1) e.offspring ++ listings depth rest) := by
  obtain ⟨_, _, _, _ | children, _, _⟩ := e <;> simp [listings, listing, offspring]

theorem surveys_cons (parent : Address) (i : Nat) (e : Element) (rest : List Element) :
    surveys parent i (e :: rest) =
      (parent ++ [i], e) ::
        (surveys (parent ++ [i]) 0 e.offspring ++ surveys parent (i + 1) rest) := by
  obtain ⟨_, _, _, _ | children, _, _⟩ := e <;> simp [surveys, survey, offspring]

theorem listings_eq_map_surveys (parent : Address) (i : Nat) (es : List Element) :
    listings parent.length es =
      (surveys parent i es).map fun s => (s.1.length - 1, s.2) := by
  induction es using forest_induction generalizing parent i with
  | nil => rfl
  | cons e rest inner later =>
    have inside := inner (parent ++ [i]) 0
    rw [List.length_append, List.length_singleton] at inside
    rw [listings_cons, surveys_cons, List.map_cons, List.map_append, ← inside,
      ← later parent (i + 1), List.length_append, List.length_singleton, Nat.add_sub_cancel]

theorem mem_surveys {parent a : Address} {i : Nat} {es : List Element} {x : Element} :
    (a, x) ∈ surveys parent i es ↔
      ∃ j rest, a = parent ++ (i + j) :: rest ∧ locate? es (j :: rest) = some x := by
  induction es using forest_induction generalizing parent i a with
  | nil => simp [surveys, locate?]
  | cons e others inner later =>
    rw [surveys_cons, List.mem_cons, List.mem_append, inner, later]
    constructor
    · rintro (same | ⟨j, rest, rfl, found⟩ | ⟨j, rest, rfl, found⟩)
      · obtain ⟨rfl, rfl⟩ := Prod.mk.inj same
        exact ⟨0, [], rfl, rfl⟩
      · exact ⟨0, j :: rest, by simp, found⟩
      · exact ⟨j + 1, rest, by rw [Nat.add_right_comm, Nat.add_assoc], found⟩
    -- a way either stays at the first element, goes down from it or leads past it
    · rintro ⟨_ | j, rest, rfl, found⟩
      · cases rest with
        | nil => exact .inl (by rw [← Option.some.inj found]; rfl)
        | cons k rest => exact .inr (.inl ⟨k, rest, by simp, found⟩)
      · exact .inr (.inr ⟨j, rest, by rw [Nat.add_right_comm, Nat.add_assoc], found⟩)

theorem pairwise_surveys (parent : Address) (i : Nat) (es : List Element) :
    (surveys parent i es).Pairwise fun s t => s.1 < t.1 := by
  induction es using forest_induction generalizing parent i with
  | nil => exact .nil
  | cons e others inner later =>
    have down : ∀ s ∈ surveys (parent ++ [i]) 0 e.offspring,
        ∃ k rest, s.1 = parent ++ i :: k :: rest := by
      rintro ⟨a, x⟩ member
      obtain ⟨j, rest, rfl, _⟩ := mem_surveys.1 member
      exact ⟨0 + j, rest, by simp⟩
    have past : ∀ t ∈ surveys parent (i + 1) others,
        ∃ j rest, i < j ∧ t.1 = parent ++ j :: rest := by
      rintro ⟨a, x⟩ member
      obtain ⟨j, rest, rfl, _⟩ := mem_surveys.1 member
      exact ⟨i + 1 + j, rest, by omega, rfl⟩
    rw [surveys_cons, List.pairwise_cons, List.pairwise_append]
    refine ⟨?_, inner _ _, later _ _, ?_⟩
    · intro t member
      rcases List.mem_append.1 member with h | h
      · obtain ⟨k, rest, same⟩ := down t h
        rw [same]
        exact List.Lex.append_left _ (.cons .nil) parent
      · obtain ⟨j, rest, greater, same⟩ := past t h
        rw [same]
        exact List.Lex.append_left _ (.rel greater) parent
    · intro s member t member'
      obtain ⟨_, _, same⟩ := down s member
      obtain ⟨j, _, greater, same'⟩ := past t member'
      rw [same, same']
      exact List.Lex.append_left _ (.rel greater) parent

/-- The depths of a listing give the addresses back, whatever is listed after it. -/
theorem assign_listings {last parent : Address} {i : Nat} (es : List Element)
    (start : Address.next last parent.length = parent ++ [i]) :
    ∃ last', Address.next last' parent.length = parent ++ [i + es.length] ∧
      ∀ more, Address.assign last (listings parent.length es ++ more) =
        surveys parent i es ++ Address.assign last' more := by
  induction es using forest_induction generalizing last parent i with
  | nil => exact ⟨last, start, fun more => rfl⟩
  -- the way at which the elements below `e` end still tells the place of `e`
  | cons e rest inner later =>
    obtain ⟨deep, ended, inside⟩ := inner (Address.next_below (parent ++ [i]))
    rw [List.length_append, List.length_singleton] at ended inside
    obtain ⟨last', finished, beside⟩ := later (Address.next_beside ended)
    refine ⟨last', ?_, ?_⟩
    · rw [finished, List.length_cons, Nat.add_right_comm, Nat.add_assoc]
    · intro more
      rw [listings_cons, surveys_cons, List.cons_append, List.append_assoc, Address.assign, start,
        inside, beside, List.cons_append, List.append_assoc]

theorem mem_surveys_top {a : Address} {es : List Element} {x : Element} :
    (a, x) ∈ surveys [] 0 es ↔ locate? es a = some x := by
  rw [mem_surveys]
  constructor
  · rintro ⟨j, rest, rfl, found⟩
    rwa [Nat.zero_add]
  · intro found
    cases a with
    | nil => cases found
    | cons j rest => exact ⟨j, rest, by simp, found⟩

def sketched (es : List Element) : List (Address × ElementKind × String) :=
  (surveys [] 0 es).map fun s => (s.1, s.2.kind, s.2.name)

theorem mem_sketched {a : Address} {shown : ElementKind × String} {es : List Element} :
    (a, shown) ∈ sketched es ↔ sketch es a = some shown := by
  rw [sketched, List.mem_map, sketch, Option.map_eq_some_iff]
  constructor
  · rintro ⟨⟨b, x⟩, member, same⟩
    obtain ⟨rfl, rfl⟩ := Prod.mk.inj same
    exact ⟨x, mem_surveys_top.1 member, rfl⟩
  · rintro ⟨x, found, rfl⟩
    exact ⟨(a, x), mem_surveys_top.2 found, rfl⟩

/-- Addresses grow along the list, so what it holds decides about it. -/
theorem sketched_eq_iff {es es' : List Element} :
    sketched es = sketched es' ↔ sketch es = sketch es' := by
  constructor
  · intro same
    funext a
    refine Option.ext fun shown => ?_
    rw [← mem_sketched, ← mem_sketched, same]
  · intro same
    let before : Address × ElementKind × String → Address × ElementKind × String → Prop :=
      fun s t => s.1 < t.1
    have : Std.Irrefl before := ⟨fun s => lt_irrefl s.1⟩
    have : Std.Antisymm before := ⟨fun s t h h' => absurd (h.trans h') (lt_irrefl s.1)⟩
    have sorted : ∀ fs, (sketched fs).Pairwise before := fun fs =>
      List.pairwise_map.2 (pairwise_surveys [] 0 fs)
    refine (sorted es).eq_of_mem_iff (sorted es') ?_
    rintro ⟨a, shown⟩
    rw [mem_sketched, mem_sketched, same]

def rows (es : List Element) : List (Nat × ElementKind × String) :=
  (sketched es).map fun s => (s.1.length - 1, s.2)

theorem rows_eq_map_listings (es : List Element) :
    rows es = (listings 0 es).map fun p => (p.1, p.2.kind, p.2.name) := by
  have listed : listings 0 es = _ := listings_eq_map_surveys [] 0 es
  rw [listed, rows, sketched, List.map_map, List.map_map]
  rfl

theorem assign_rows (es : List Element) : Address.assign [] (rows es) = sketched es := by
  have start : Address.next [] ([] : Address).length = [] ++ [0] := rfl
  obtain ⟨last, _, all⟩ := assign_listings es start
  have given : Address.assign [] (listings 0 es) = surveys [] 0 es := by
    simpa [Address.assign] using all []
  rw [rows_eq_map_listings, Address.assign_map fun e : Element => (e.kind, e.name), given, sketched]

theorem rows_eq_iff {es es' : List Element} : rows es = rows es' ↔ sketch es = sketch es' := by
  rw [← sketched_eq_iff]
  constructor
  · intro same
    rw [← assign_rows, same, assign_rows]
  · intro same
    rw [rows, same, rows]

end Element

namespace ElementKind

theorem space_notMem_tag (k : ElementKind) : ' ' ∉ k.tag.toList := by
  cases k <;> decide

theorem tag_ne_nil (k : ElementKind) : k.tag.toList ≠ [] := by
  cases k <;> decide

theorem dropWhile_indented (n : Nat) (k : ElementKind) (s : List Char) :
    (List.replicate n ' ' ++ (k.tag.toList ++ s)).dropWhile (· == ' ') = k.tag.toList ++ s := by
  have spaces : ∀ c ∈ List.replicate n ' ', (c == ' ') = true := by
    intro c member
    rw [List.eq_of_mem_replicate member]
    rfl
  obtain ⟨c, word, tag⟩ := List.exists_cons_of_ne_nil k.tag_ne_nil
  have letter : (c == ' ') = false := by
    have free := k.space_notMem_tag
    rw [tag, List.mem_cons, not_or] at free
    exact beq_false_of_ne (Ne.symm free.1)
  rw [List.dropWhile_append_of_pos spaces, tag, List.cons_append, List.dropWhile_cons, letter]
  rfl

theorem takeWhile_indented (n : Nat) (k : ElementKind) (s : List Char) :
    (List.replicate n ' ' ++ (k.tag.toList ++ s)).takeWhile (· == ' ') = List.replicate n ' ' := by
  have whole := List.takeWhile_append_dropWhile (p := (· == ' '))
    (l := List.replicate n ' ' ++ (k.tag.toList ++ s))
  rw [dropWhile_indented] at whole
  exact List.append_cancel_right whole

end ElementKind

namespace Event
open Text

/-- The depth, the kind and the name in the text of a record about an element of a document. -/
def readElement? (document : Path) (message : String) : Option (Nat × ElementKind × String) :=
  (after? (document.display ++ ": ").toList message.toList).bind fun line =>
    (cutFirst? ' ' (line.dropWhile (· == ' '))).bind fun (tag, name) =>
      (ElementKind.ofTag? (String.ofList tag)).map fun kind =>
        ((line.takeWhile (· == ' ')).length / 2, kind, String.ofList name)

def readElements? (document : Path) (messages : List String) :
    Option (List (Nat × ElementKind × String)) :=
  messages.mapM (readElement? document)

theorem message_elementFound (document : Path) (depth : Nat) (e : Element) :
    (elementFound document depth e.label).message =
      document.display ++ ": " ++ String.ofList (List.replicate (2 * depth) ' ') ++
        (e.kind.tag ++ " " ++ e.name) :=
  rfl

theorem readElement?_message (document : Path) (depth : Nat) (e : Element) :
    readElement? document (elementFound document depth e.label).message =
      some (depth, e.kind, e.name) := by
  have text : (elementFound document depth e.label).message.toList =
      (document.display ++ ": ").toList ++
        (List.replicate (2 * depth) ' ' ++ (e.kind.tag.toList ++ ' ' :: e.name.toList)) := by
    rw [message_elementFound]
    simp [String.toList_append]
  rw [readElement?, text, after?_append, Option.bind_some, ElementKind.dropWhile_indented,
    ElementKind.takeWhile_indented, cutFirst?_append e.kind.space_notMem_tag, Option.bind_some]
  dsimp only
  rw [String.ofList_toList, String.ofList_toList, ElementKind.ofTag?_tag, Option.map_some,
    List.length_replicate, Nat.mul_div_cancel_left depth Nat.two_pos]

theorem readElements?_events (document : Path) (es : List Element) :
    readElements? document ((Element.events document es).map message) = some (Element.rows es) := by
  have each : readElement? document ∘ message ∘
      (fun p : Nat × Element => elementFound document p.1 p.2.label) =
        fun p => pure (p.1, p.2.kind, p.2.name) := by
    funext p
    exact readElement?_message document p.1 p.2
  rw [readElements?, Element.events, List.map_map, List.mapM_map, each, List.mapM_pure,
    Element.rows_eq_map_listings]
  rfl

end Event

namespace Element

/-- The elements of a forest are reported one by one in the order of their addresses, which is
parents first and children in order, each by one debug record: the document, two spaces for each
level of depth, then kind and name. There are as many records as elements. Depths, kinds and names
can be read back from the texts, and the depths that were read lead to the address of every element,
so two forests are read alike exactly when they have the same shape, kinds and names. -/
theorem records_tell_sketch (document : Path) (es : List Element) :
    let records := events document es
    let surveyed := surveys [] 0 es
    (surveyed.Pairwise (fun s t => s.1 < t.1) ∧
        ∀ a e, (a, e) ∈ surveyed ↔ locate? es a = some e) ∧
      records.map (fun r => (r.level, r.message)) =
        surveyed.map (fun s => (Level.debug,
          document.display ++ ": " ++ String.ofList (List.replicate (2 * (s.1.length - 1)) ' ') ++
            (s.2.kind.tag ++ " " ++ s.2.name))) ∧
      records.length = (es.map total).sum ∧
      ∃ read, Event.readElements? document (records.map Event.message) = some read ∧
        read = surveyed.map (fun s => (s.1.length - 1, s.2.kind, s.2.name)) ∧
        (∀ a shown, (a, shown) ∈ Address.assign [] read ↔ sketch es a = some shown) ∧
        ∀ document' es',
          Event.readElements? document' ((events document' es').map Event.message) = some read ↔
            sketch es' = sketch es := by
  intro records surveyed
  refine ⟨⟨pairwise_surveys [] 0 es, fun a e => mem_surveys_top⟩, ?_, ?_, ?_⟩
  · have listed : listings 0 es = surveyed.map fun s => (s.1.length - 1, s.2) :=
      listings_eq_map_surveys [] 0 es
    change (events document es).map _ = _
    rw [events, listed, List.map_map, List.map_map]
    rfl
  · change (events document es).length = _
    rw [events, List.length_map, length_listings, totals_eq_sum]
  · refine ⟨rows es, Event.readElements?_events document es, ?_, ?_, ?_⟩
    · rw [rows, sketched, List.map_map]
      rfl
    · intro a shown
      rw [assign_rows, mem_sketched]
    · intro document' es'
      rw [Event.readElements?_events, Option.some.injEq, rows_eq_iff]

example :
    (events (.ofString "/a.cs")
      [{ kind := .class, name := "C", children := some [{ kind := .field, name := "x y" }] },
        { kind := .enum, name := "E", children := some [] }]).map Event.message =
      ["/a.cs: class C", "/a.cs:   field x y", "/a.cs: enum E"] := by
  decide +kernel

end Element
end CodeAtlas
