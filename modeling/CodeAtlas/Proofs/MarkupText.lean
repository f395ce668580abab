import CodeAtlas.Markup.Attribute
import CodeAtlas.Proofs.TextParts

/-!
Trees of marked-up text and how they are written. Characters of markup are written as references, a
tag is its name and its attributes, and an element without content has two written forms. The tokens
of a written tree are those of the tree, in order, and the attributes of its tags can be asked for.
-/
namespace CodeAtlas.Markup
open Text

/-- The characters of names; XML has fewer. -/
def isNameChar (c : Char) : Bool := !isSpace c && !"<>/='\"&:!?".toList.contains c

structure Name where
  chars : List Char
  filled : chars ≠ []
  fits : ∀ c ∈ chars, isNameChar c

def Name.of (text : String) (filled : text.toList ≠ [] := by decide)
    (fits : text.toList.all isNameChar := by decide) : Name :=
  ⟨text.toList, filled, List.all_eq_true.1 fits⟩

structure FullName where
  space : Option Name := none
  base : Name

def FullName.chars (n : FullName) : List Char :=
  match n.space with
  | none => n.base.chars
  | some space => space.chars ++ ':' :: n.base.chars

structure Attribute where
  name : FullName
  value : List Char

structure Comment where
  chars : List Char
  fits : ¬ ['-', '-'] <:+: chars ∧ chars.getLast? ≠ some '-'

inductive Content where
  | text (chars : List Char)
  | comment (comment : Comment)
  /-- `short` says how the element is written if it has no children. -/
  | element (name : FullName) (attributes : List Attribute) (children : List Content)
      (short : Bool)

def Attribute.render (a : Attribute) : List Char :=
  ' ' :: (a.name.chars ++ '=' :: '"' :: (escape a.value ++ ['"']))

def Comment.render (c : Comment) : List Char := "<!--".toList ++ (c.chars ++ "-->".toList)

def renderTag (name : FullName) (attributes : List Attribute) : List Char :=
  name.chars ++ attributes.flatMap Attribute.render

def tagFor (name : FullName) (attributes : List Attribute) : Tag :=
  ⟨name.chars, attributes.flatMap Attribute.render⟩

namespace Content

def isText : Content → Bool
  | text _ => true
  | _ => false

mutual

def render : Content → List Char
  | text chars => escape chars
  | comment c => c.render
  | element name attributes children short =>
    if children.isEmpty && short then '<' :: (renderTag name attributes ++ ['/', '>'])
    else '<' :: (renderTag name attributes ++ '>' ::
      (renderAll children ++ '<' :: '/' :: (name.chars ++ ['>'])))

def renderAll : List Content → List Char
  | [] => []
  | n :: rest => render n ++ renderAll rest

end

mutual

def tokens : Content → List Token
  | text chars =>
    let content := trimBy isSpace (escape chars)
    if content.isEmpty then [] else [.text content]
  | comment _ => []
  | element name attributes children short =>
    if children.isEmpty && short then [.empty (tagFor name attributes)]
    else .start (tagFor name attributes) :: (tokensAll children ++ [.stop name.chars])

def tokensAll : List Content → List Token
  | [] => []
  | n :: rest => tokens n ++ tokensAll rest

end

mutual

def apart : Content → Bool
  | element _ _ children _ => apartAll children
  | _ => true

def apartAll : List Content → Bool
  | [] => true
  | n :: rest => apart n && !(n.isText && rest.head?.any isText) && apartAll rest

end

end Content

section References

theorem unescape_cons {c : Char} (h : c ≠ '&') (s : List Char) :
    unescape (c :: s) = (unescape s).map (c :: ·) := by
  obtain ⟨p, ps, split⟩ := List.exists_cons_of_ne_nil (pieces_ne_nil '&' s)
  have front : pieces '&' ([c] ++ s) = ([c] ++ p) :: ps := by
    apply pieces_append _ split
    rw [List.mem_singleton]
    exact Ne.symm h
  unfold unescape
  rw [split, ← List.singleton_append, front]
  dsimp only
  cases ps.mapM afterAmpersand <;> rfl

theorem unescape_reference {name : List Char} {c : Char} (known : reference? name = some c)
    (closed : ';' ∉ name) (inner : '&' ∉ name) (s : List Char) :
    unescape ('&' :: (name ++ ';' :: s)) = (unescape s).map (c :: ·) := by
  obtain ⟨p, ps, split⟩ := List.exists_cons_of_ne_nil (pieces_ne_nil '&' s)
  have front : pieces '&' ('&' :: (name ++ ';' :: s)) = [] :: (name ++ ';' :: p) :: ps := by
    have inside : '&' ∉ name ++ [';'] := by simp [inner]
    have rest := pieces_append inside split
    rw [List.append_assoc, List.append_assoc] at rest
    rw [pieces, if_pos rfl]
    exact congrArg _ rest
  have first : afterAmpersand (name ++ ';' :: p) = .ok (c :: p) := by
    rw [afterAmpersand, cutFirst?_append closed]
    dsimp only
    rw [known]
  unfold unescape
  rw [split, front]
  dsimp only
  rw [List.mapM_cons, first]
  cases ps.mapM afterAmpersand <;> rfl

theorem escapeChar_cases (c : Char) :
    (escapeChar c = [c] ∧ c ≠ '<' ∧ c ≠ '>' ∧ c ≠ '&' ∧ c ≠ '\'' ∧ c ≠ '"') ∨
      ∃ name, escapeChar c = '&' :: (name ++ [';']) ∧ reference? name = some c ∧
        name ⊆ "ltgampoqus".toList := by
  unfold escapeChar
  split
  · next same => exact .inr ⟨['l', 't'], rfl, same ▸ by decide, by decide⟩
  split
  · next same => exact .inr ⟨['g', 't'], rfl, same ▸ by decide, by decide⟩
  split
  · next same => exact .inr ⟨['a', 'm', 'p'], rfl, same ▸ by decide, by decide⟩
  split
  · next same => exact .inr ⟨['a', 'p', 'o', 's'], rfl, same ▸ by decide, by decide⟩
  split
  · next same => exact .inr ⟨['q', 'u', 'o', 't'], rfl, same ▸ by decide, by decide⟩
  · next less greater ampersand single double =>
    exact .inl ⟨rfl, less, greater, ampersand, single, double⟩

theorem unescape_escape (s : List Char) : unescape (escape s) = .ok s := by
  induction s with
  | nil => rfl
  | cons c s ih =>
    have read : unescape (escapeChar c ++ escape s) = (unescape (escape s)).map (c :: ·) := by
      rcases escapeChar_cases c with ⟨plain, _, _, other, _⟩ | ⟨name, written, known, letters⟩
      · rw [plain]
        exact unescape_cons other _
      · have closed : ';' ∉ name := fun member => absurd (letters member) (by decide)
        have inner : '&' ∉ name := fun member => absurd (letters member) (by decide)
        rw [written, List.cons_append, List.append_assoc]
        exact unescape_reference known closed inner _
    rw [escape, List.flatMap_cons, ← escape, read, ih]
    rfl

theorem escape_free {d : Char} (h : d ∈ ['<', '>', '\'', '"']) (s : List Char) :
    d ∉ escape s := by
  unfold escape
  rw [List.mem_flatMap]
  rintro ⟨c, _, member⟩
  rcases escapeChar_cases c with ⟨plain, less, greater, _, single, double⟩ |
    ⟨name, written, _, letters⟩
  · rw [plain, List.mem_singleton] at member
    subst member
    simp [less, greater, single, double] at h
  · rw [written] at member
    have cases : d = '&' ∨ d ∈ name ∨ d = ';' := by simpa using member
    rcases cases with rfl | inside | rfl
    · exact absurd h (by decide)
    · have apart : ∀ d ∈ ['<', '>', '\'', '"'], d ∉ "ltgampoqus".toList := by simp
      exact apart d h (letters inside)
    · exact absurd h (by decide)

theorem dropWhile_flatMap {written : Char → List Char} {p : Char → Bool}
    (dropped : ∀ c, p c → written c = [c])
    (kept : ∀ c, ¬ p c → ∃ d rest, written c = d :: rest ∧ ¬ p d) (s : List Char) :
    (s.flatMap written).dropWhile p = (s.dropWhile p).flatMap written := by
  induction s with
  | nil => rfl
  | cons c s ih =>
    by_cases h : p c
    · rw [List.flatMap_cons, dropped c h, List.singleton_append, List.dropWhile_cons_of_pos h,
        List.dropWhile_cons_of_pos h]
      exact ih
    · obtain ⟨d, rest, eq, stays⟩ := kept c h
      rw [List.dropWhile_cons_of_neg h, List.flatMap_cons, eq, List.cons_append,
        List.dropWhile_cons_of_neg stays]

theorem escapeChar_of_isSpace (c : Char) (h : isSpace c) : escapeChar c = [c] := by
  rcases escapeChar_cases c with ⟨plain, _⟩ | ⟨name, _, known, _⟩
  · exact plain
  · unfold isSpace at h
    simp only [Bool.or_eq_true, beq_iff_eq] at h
    rcases h with ((rfl | rfl) | rfl) | rfl <;> rfl

theorem trimBy_escape (s : List Char) :
    trimBy isSpace (escape s) = escape (trimBy isSpace s) := by
  have front : ∀ c, ¬ isSpace c → ∃ d rest, escapeChar c = d :: rest ∧ ¬ isSpace d := by
    intro c h
    rcases escapeChar_cases c with ⟨plain, _⟩ | ⟨name, written, _⟩
    · exact ⟨c, [], plain, h⟩
    · exact ⟨'&', name ++ [';'], written, by decide⟩
  have back : ∀ c, ¬ isSpace c → ∃ d rest, (escapeChar c).reverse = d :: rest ∧ ¬ isSpace d := by
    intro c h
    rcases escapeChar_cases c with ⟨plain, _⟩ | ⟨name, written, _⟩
    · exact ⟨c, [], by rw [plain]; rfl, h⟩
    · exact ⟨';', name.reverse ++ ['&'], by rw [written]; simp, by decide⟩
  have same : ∀ c, isSpace c → (escapeChar c).reverse = [c] := by
    intro c h
    rw [escapeChar_of_isSpace c h]
    rfl
  unfold trimBy escape
  rw [dropWhile_flatMap escapeChar_of_isSpace front, List.reverse_flatMap, Function.comp_def,
    dropWhile_flatMap same back, List.reverse_flatMap]
  simp [Function.comp_def]

end References

section Tags

theorem FullName.fits (n : FullName) : ∀ c ∈ n.chars, c = ':' ∨ isNameChar c := by
  intro c member
  unfold chars at member
  split at member
  · exact .inr (n.base.fits c member)
  · next space _ =>
    rcases List.mem_append.1 member with early | late
    · exact .inr (space.fits c early)
    · rcases List.mem_cons.1 late with rfl | inside
      · exact .inl rfl
      · exact .inr (n.base.fits c inside)

theorem FullName.filled (n : FullName) : n.chars ≠ [] := by
  unfold chars
  split
  · exact n.base.filled
  · simp

theorem FullName.notMem (n : FullName) {c : Char} (colon : c ≠ ':') (other : isNameChar c = false) :
    c ∉ n.chars := by
  intro member
  rcases n.fits c member with same | fits
  · exact colon same
  · rw [other] at fits
    cases fits

theorem FullName.isSpace_eq_false (n : FullName) : ∀ c ∈ n.chars, isSpace c = false := by
  intro c member
  rcases n.fits c member with rfl | fits
  · decide
  · unfold isNameChar at fits
    simp only [Bool.and_eq_true, Bool.not_eq_true'] at fits
    exact fits.1

theorem localName_chars (n : FullName) : localName n.chars = n.base.chars := by
  have plain : ∀ m : Name, ':' ∉ m.chars := by
    intro m member
    exact absurd (m.fits _ member) (by decide)
  obtain ⟨space, base⟩ := n
  cases space with
  | none => rw [localName, FullName.chars, cutFirst?_eq_none (plain base)]
  | some space => rw [localName, FullName.chars, cutFirst?_append (plain space)]

/-- Reading a tag goes over the text and leaves no quote open. -/
def Steady (s : List Char) : Prop :=
  ∀ t, tagBody? none (s ++ t) = (tagBody? none t).map fun r => (s ++ r.1, r.2)

theorem Steady.append {s t : List Char} (first : Steady s) (second : Steady t) :
    Steady (s ++ t) := by
  intro u
  rw [List.append_assoc, first, second, Option.map_map]
  simp [Function.comp_def]

theorem steady_plain {s : List Char} (h : ∀ c ∈ s, c ≠ '>' ∧ c ≠ '"' ∧ c ≠ '\'') : Steady s := by
  intro t
  induction s with
  | nil => simp
  | cons c s ih =>
    obtain ⟨stop, double, single⟩ := h c List.mem_cons_self
    have quote : ¬ (c = '"' ∨ c = '\'') := by simp [double, single]
    rw [List.cons_append, tagBody?, if_neg stop, if_neg quote,
      ih fun d member => h d (List.mem_cons_of_mem c member), Option.map_map]
    rfl

theorem tagBody?_quoted {s : List Char} (h : '"' ∉ s) (t : List Char) :
    tagBody? (some '"') (s ++ '"' :: t) =
      (tagBody? none t).map fun r => (s ++ '"' :: r.1, r.2) := by
  induction s with
  | nil => rw [List.nil_append, tagBody?, if_pos rfl]; rfl
  | cons c s ih =>
    rw [List.mem_cons, not_or] at h
    rw [List.cons_append, tagBody?, if_neg (Ne.symm h.1), ih h.2, Option.map_map]
    rfl

theorem steady_name (n : FullName) : Steady n.chars := by
  apply steady_plain
  intro c member
  refine ⟨?_, ?_, ?_⟩
  all_goals
    rintro rfl
    exact n.notMem (by decide) (by decide) member

theorem steady_attribute (a : Attribute) : Steady a.render := by
  have quoted : Steady ('"' :: (escape a.value ++ ['"'])) := by
    intro t
    have value := escape_free (d := '"') (by decide) a.value
    rw [List.cons_append, List.append_assoc, List.singleton_append, tagBody?,
      if_neg (by decide), if_pos (Or.inl rfl), tagBody?_quoted value, Option.map_map]
    simp [Function.comp_def]
  have before : Steady [' '] := steady_plain (by simp)
  have equals : Steady ['='] := steady_plain (by simp)
  exact (before.append ((steady_name a.name).append (equals.append quoted)))

theorem steady_tag (name : FullName) (attributes : List Attribute) :
    Steady (renderTag name attributes) := by
  unfold renderTag
  apply (steady_name name).append
  induction attributes with
  | nil => exact steady_plain (by simp)
  | cons a rest ih =>
    rw [List.flatMap_cons]
    exact (steady_attribute a).append ih

theorem tagOf_renderTag (name : FullName) (attributes : List Attribute) :
    tagOf (renderTag name attributes) = tagFor name attributes := by
  have all : ∀ c ∈ name.chars, (!isSpace c) = true := by
    intro c member
    rw [name.isSpace_eq_false c member]
    rfl
  have ends : (attributes.flatMap Attribute.render).takeWhile (fun c => !isSpace c) = [] ∧
      (attributes.flatMap Attribute.render).dropWhile (fun c => !isSpace c) =
        attributes.flatMap Attribute.render := by
    cases attributes with
    | nil => exact ⟨rfl, rfl⟩
    | cons a rest => exact ⟨rfl, rfl⟩
  unfold tagOf renderTag tagFor
  rw [List.takeWhile_append_of_pos all, List.dropWhile_append_of_pos all, ends.1, ends.2,
    List.append_nil]

theorem getLast?_renderTag (name : FullName) (attributes : List Attribute) :
    (renderTag name attributes).getLast? ≠ some '/' := by
  unfold renderTag
  rcases List.eq_nil_or_concat attributes with rfl | ⟨front, a, rfl⟩
  · rw [List.flatMap_nil, List.append_nil]
    intro last
    exact name.notMem (by decide) (by decide) (List.mem_of_getLast? last)
  · have last : a.render = (' ' :: (a.name.chars ++ '=' :: '"' :: escape a.value)) ++ ['"'] := by
      simp [Attribute.render]
    simp only [List.concat_eq_append, List.flatMap_append, List.flatMap_cons, List.flatMap_nil,
      List.append_nil, last, ← List.append_assoc, List.getLast?_concat]
    decide

theorem renderTag_cons (name : FullName) (attributes : List Attribute) :
    ∃ c rest, renderTag name attributes = c :: rest ∧ c ≠ '/' ∧ c ≠ '!' ∧ c ≠ '?' := by
  obtain ⟨c, rest, eq⟩ := List.exists_cons_of_ne_nil name.filled
  refine ⟨c, rest ++ attributes.flatMap Attribute.render, ?_, ?_⟩
  · rw [renderTag, eq, List.cons_append]
  · have member : c ∈ name.chars := eq ▸ List.mem_cons_self
    refine ⟨?_, ?_, ?_⟩
    all_goals
      rintro rfl
      exact name.notMem (by decide) (by decide) member

theorem mark_tag {s content rest : List Char} {c : Char} {t : List Char} (first : s = c :: t)
    (other : c ≠ '!' ∧ c ≠ '?') (body : tagBody? none s = some (content, rest)) :
    mark s = .ok (some (tagToken content), rest) := by
  subst first
  have comment : after? "!--".toList (c :: t) = none := if_neg (Ne.symm other.1)
  have data : after? "![CDATA[".toList (c :: t) = none := if_neg (Ne.symm other.1)
  unfold mark
  rw [comment, data]
  dsimp only
  split
  · next same => exact absurd (List.cons.inj same).1 other.1
  · next same => exact absurd (List.cons.inj same).1 other.2
  · rw [body]

theorem mark_start (name : FullName) (attributes : List Attribute) (rest : List Char) :
    mark (renderTag name attributes ++ '>' :: rest) =
      .ok (some (.start (tagFor name attributes)), rest) := by
  obtain ⟨c, t, eq, notEnd, other⟩ := renderTag_cons name attributes
  have body : tagBody? none (renderTag name attributes ++ '>' :: rest) =
      some (renderTag name attributes, rest) := by
    rw [steady_tag name attributes, tagBody?, if_pos rfl]
    simp
  have token : tagToken (renderTag name attributes) = .start (tagFor name attributes) := by
    unfold tagToken
    split
    · next same => exact absurd (List.cons.inj (eq.symm.trans same)).1 notEnd
    · rw [if_neg (getLast?_renderTag name attributes), tagOf_renderTag]
  rw [mark_tag (by rw [eq, List.cons_append]) other body, token]

theorem mark_empty (name : FullName) (attributes : List Attribute) (rest : List Char) :
    mark (renderTag name attributes ++ '/' :: '>' :: rest) =
      .ok (some (.empty (tagFor name attributes)), rest) := by
  obtain ⟨c, t, eq, notEnd, other⟩ := renderTag_cons name attributes
  have slash : Steady ['/'] := steady_plain (by simp)
  have body : tagBody? none (renderTag name attributes ++ '/' :: '>' :: rest) =
      some (renderTag name attributes ++ ['/'], rest) := by
    have whole := ((steady_tag name attributes).append slash) ('>' :: rest)
    rw [List.append_assoc, List.singleton_append] at whole
    rw [whole, tagBody?, if_pos rfl]
    simp
  have token : tagToken (renderTag name attributes ++ ['/']) =
      .empty (tagFor name attributes) := by
    unfold tagToken
    split
    · next same =>
      rw [eq, List.cons_append] at same
      exact absurd (List.cons.inj same).1 notEnd
    · rw [if_pos List.getLast?_concat, List.dropLast_concat, tagOf_renderTag]
  rw [mark_tag (by rw [eq, List.cons_append]) other body, token]

theorem endName_chars (name : FullName) : endName name.chars = name.chars := by
  obtain ⟨front, c, eq⟩ := List.exists_cons_of_ne_nil
    (List.reverse_ne_nil_iff.2 name.filled)
  have member : front ∈ name.chars := by
    rw [← List.mem_reverse, eq]
    exact List.mem_cons_self
  have solid : ¬ isSpace front = true := by simp [name.isSpace_eq_false front member]
  have some : ¬ name.chars.all isSpace = true := by
    intro all
    exact solid (List.all_eq_true.1 all front member)
  rw [endName, if_neg some, eq, List.dropWhile_cons_of_neg solid, ← eq, List.reverse_reverse]

theorem mark_stop (name : FullName) (rest : List Char) :
    mark ('/' :: (name.chars ++ '>' :: rest)) = .ok (some (.stop name.chars), rest) := by
  have slash : Steady ['/'] := steady_plain (by simp)
  have body : tagBody? none ('/' :: (name.chars ++ '>' :: rest)) =
      some ('/' :: name.chars, rest) := by
    have whole := (slash.append (steady_name name)) ('>' :: rest)
    rw [List.append_assoc, List.singleton_append] at whole
    rw [whole, tagBody?, if_pos rfl]
    simp
  rw [mark_tag rfl (by decide) body, tagToken, endName_chars]

theorem mark_comment (c : Comment) (rest : List Char) :
    mark ("!--".toList ++ (c.chars ++ ("-->".toList ++ rest))) = .ok (none, rest) := by
  have cut : cutAt? "-->".toList (c.chars ++ ("-->".toList ++ rest)) = some (c.chars, rest) := by
    apply cutAt?_append (by decide)
    intro u v split filled begins
    change ['-', '-', '>'] <+: _ at begins
    obtain ⟨noDashes, lastDash⟩ := c.fits
    match v, filled with
    | [a], _ =>
      obtain ⟨rfl, _⟩ := List.cons_prefix_cons.1 begins
      exact lastDash (by rw [split]; simp)
    | a :: b :: more, _ =>
      obtain ⟨rfl, later⟩ := List.cons_prefix_cons.1 begins
      obtain ⟨rfl, _⟩ := List.cons_prefix_cons.1 later
      exact noDashes ⟨u, more, by rw [split]; simp⟩
  unfold mark
  rw [after?_append]
  dsimp only
  rw [skipPast, cut]
  rfl

end Tags

section Attributes

theorem assigned_render (value after : List Char) :
    assigned ('=' :: '"' :: (escape value ++ '"' :: after)) = .ok (escape value, after) := by
  have quoted := cutFirst?_append (escape_free (d := '"') (by decide) value) after
  have equals : ('=' :: '"' :: (escape value ++ '"' :: after)).dropWhile isSpace =
      '=' :: '"' :: (escape value ++ '"' :: after) := rfl
  have opening : ('"' :: (escape value ++ '"' :: after)).dropWhile isSpace =
      '"' :: (escape value ++ '"' :: after) := rfl
  simp only [assigned, equals, opening, quoted, true_or, if_true]

theorem writtenValue_render (wanted : List Char) (a : Attribute) (after : List Char) :
    writtenValue wanted (a.render ++ after) =
      if a.name.chars = wanted then .ok (some (escape a.value)) else writtenValue wanted after := by
  obtain ⟨c, rest, eq⟩ := List.exists_cons_of_ne_nil a.name.filled
  have space : isSpace c = false := a.name.isSpace_eq_false c (eq ▸ List.mem_cons_self)
  have unended : ∀ d ∈ rest, (!endsName d) = true := by
    intro d later
    have member : d ∈ a.name.chars := eq ▸ List.mem_cons_of_mem c later
    have equals : d ≠ '=' := by
      rintro rfl
      exact a.name.notMem (by decide) (by decide) member
    simp [endsName, equals, a.name.isSpace_eq_false d member]
  let value := '=' :: '"' :: (escape a.value ++ '"' :: after)
  have text : a.render ++ after = ' ' :: c :: (rest ++ value) := by
    simp [Attribute.render, eq, value]
  have skip : (' ' :: c :: (rest ++ value)).dropWhile isSpace = c :: (rest ++ value) := by
    rw [List.dropWhile_cons_of_pos (by decide), List.dropWhile_cons_of_neg (by simp [space])]
  have name : (rest ++ value).takeWhile (fun c => !endsName c) = rest := by
    rw [List.takeWhile_append_of_pos unended, List.takeWhile_cons_of_neg (by decide),
      List.append_nil]
  have assigns : (rest ++ value).dropWhile (fun c => !endsName c) = value := by
    rw [List.dropWhile_append_of_pos unended, List.dropWhile_cons_of_neg (by decide)]
  rw [text, writtenValue]
  split
  · next none =>
    rw [skip] at none
    cases none
  · next first others found =>
    rw [skip] at found
    obtain ⟨rfl, rfl⟩ := List.cons.inj found
    dsimp only
    rw [name, ← eq]
    split
    · next e failed =>
      rw [assigns, assigned_render] at failed
      cases failed
    · next found left read =>
      rw [assigns, assigned_render] at read
      obtain ⟨rfl, rfl⟩ := Prod.mk.inj (Except.ok.inj read)
      rfl

theorem writtenValue_attributes (wanted : List Char) (attributes : List Attribute) :
    writtenValue wanted (attributes.flatMap Attribute.render) =
      .ok ((attributes.find? fun a => a.name.chars == wanted).map fun a => escape a.value) := by
  induction attributes with
  | nil =>
    rw [List.flatMap_nil, writtenValue]
    rfl
  | cons a rest ih =>
    rw [List.flatMap_cons, writtenValue_render, List.find?_cons]
    by_cases same : a.name.chars = wanted
    · rw [if_pos same, beq_iff_eq.2 same]
      rfl
    · rw [if_neg same, beq_eq_false_iff_ne.2 same, ih]

theorem attribute_tagFor (name : FullName) (attributes : List Attribute) (wanted : String) :
    (tagFor name attributes).attribute wanted =
      .ok ((attributes.find? fun a => a.name.chars == wanted.toList).map Attribute.value) := by
  unfold Tag.attribute tagFor
  rw [writtenValue_attributes]
  cases attributes.find? fun a => a.name.chars == wanted.toList with
  | none => rfl
  | some a =>
    change some <$> unescape (escape a.value) = _
    rw [unescape_escape]
    rfl

end Attributes

section Tokens

/-- The text begins with the given tokens, whatever those of the rest are. -/
def Yields (s : List Char) (found : List Token) (rest : List Char) : Prop :=
  tokens (s ++ rest) = (tokens rest).map (found ++ ·)

theorem yields_nil (rest : List Char) : Yields [] [] rest := by
  unfold Yields
  rw [List.nil_append]
  cases tokens rest <;> rfl

theorem Yields.append {s t rest : List Char} {first second : List Token}
    (before : Yields s first (t ++ rest)) (after : Yields t second rest) :
    Yields (s ++ t) (first ++ second) rest := by
  unfold Yields at *
  rw [List.append_assoc, before, after]
  cases tokens rest with
  | error e => rfl
  | ok ts => exact congrArg Except.ok (List.append_assoc first second ts).symm

theorem yields_mark (token : Option Token) {s rest : List Char}
    (h : mark (s ++ rest) = .ok (token, rest)) : Yields ('<' :: s) token.toList rest := by
  unfold Yields
  rw [List.cons_append, tokens]
  split
  · next e failed =>
    rw [h] at failed
    cases failed
  · next found left read =>
    rw [h] at read
    obtain ⟨rfl, rfl⟩ := Prod.mk.inj (Except.ok.inj read)
    rfl

def Opens (s : List Char) : Prop := ∀ c ∈ s.head?, c = '<'

theorem opens_cons (s : List Char) : Opens ('<' :: s) := by
  intro c head
  exact (Option.some.inj head).symm

theorem takeWhile_text {s rest : List Char} (h : '<' ∉ s) (next : Opens rest) :
    (s ++ rest).takeWhile (· != '<') = s ∧ (s ++ rest).dropWhile (· != '<') = rest := by
  have all : ∀ c ∈ s, (c != '<') = true := by
    intro c member
    rw [bne_iff_ne]
    rintro rfl
    exact h member
  rw [List.takeWhile_append_of_pos all, List.dropWhile_append_of_pos all]
  cases rest with
  | nil => simp
  | cons c rest =>
    obtain rfl := next c rfl
    simp

theorem yields_text {s rest : List Char} (h : '<' ∉ s) (next : Opens rest) :
    Yields s (if (trimBy isSpace s).isEmpty then [] else [.text (trimBy isSpace s)]) rest := by
  cases s with
  | nil => exact yields_nil rest
  | cons c s =>
    rw [List.mem_cons, not_or] at h
    obtain ⟨taken, left⟩ := takeWhile_text h.2 next
    unfold Yields
    rw [List.cons_append, tokens]
    · rw [taken, left]
      cases tokens rest <;> split <;> rfl
    · intro same
      exact h.1 same.symm

namespace Content

theorem opens_renderAll {nodes : List Content} {rest : List Char} (next : Opens rest)
    (h : nodes.head?.any isText = false) : Opens (renderAll nodes ++ rest) := by
  cases nodes with
  | nil => exact next
  | cons n nodes =>
    rw [renderAll, List.append_assoc]
    cases n with
    | text => simp [isText] at h
    | comment => exact opens_cons _
    | element name attributes children short =>
      rw [render]
      split <;> exact opens_cons _

mutual

theorem yields_render (n : Content) (rest : List Char) (h : n.apart)
    (next : n.isText → Opens rest) : Yields n.render n.tokens rest := by
  match n with
  | text chars =>
    rw [render, tokens]
    exact yields_text (escape_free (by decide) chars) (next rfl)
  | comment c =>
    have read := mark_comment c rest
    rw [← List.append_assoc, ← List.append_assoc, List.append_assoc "!--".toList] at read
    exact yields_mark none read
  | element name attributes children short =>
    rw [render, tokens]
    split
    · apply yields_mark (some (.empty (tagFor name attributes)))
      rw [List.append_assoc]
      exact mark_empty name attributes rest
    · let last := '<' :: '/' :: (name.chars ++ ['>'])
      have start : Yields ('<' :: (renderTag name attributes ++ ['>']))
          [.start (tagFor name attributes)] ((renderAll children ++ last) ++ rest) := by
        apply yields_mark (some (.start (tagFor name attributes)))
        rw [List.append_assoc]
        exact mark_start name attributes _
      have inner : Yields (renderAll children) (tokensAll children) (last ++ rest) :=
        yields_renderAll children _ h (opens_cons _)
      have stop : Yields last [.stop name.chars] rest := by
        apply yields_mark (some (.stop name.chars))
        rw [List.cons_append, List.append_assoc]
        exact mark_stop name rest
      have whole := start.append (inner.append stop)
      simpa [last] using whole

theorem yields_renderAll (nodes : List Content) (rest : List Char) (h : apartAll nodes)
    (next : Opens rest) : Yields (renderAll nodes) (tokensAll nodes) rest := by
  match nodes with
  | [] => exact yields_nil rest
  | n :: nodes =>
    rw [apartAll, Bool.and_eq_true, Bool.and_eq_true] at h
    obtain ⟨⟨first, between⟩, others⟩ := h
    rw [renderAll, tokensAll]
    refine Yields.append (yields_render n _ first ?_) (yields_renderAll nodes rest others next)
    intro isText
    apply opens_renderAll next
    simpa [isText] using between

end

end Content
end Tokens
end CodeAtlas.Markup
