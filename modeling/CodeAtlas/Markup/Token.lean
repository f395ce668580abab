import CodeAtlas.Markup.Error
import CodeAtlas.Text.Ascii
import CodeAtlas.Text.Blank
import CodeAtlas.Text.Split

/-!
Marked-up texts as tokens: tags and the texts between them. Comments, character data, instructions
and document types divide texts and are otherwise passed over. Names are not checked here, nor is
that tags match.
-/
namespace CodeAtlas.Markup
open Text

structure Tag where
  name : List Char
  rest : List Char
  deriving DecidableEq, Repr

/-- The part of a name after its first colon, or the whole name. -/
def localName (name : List Char) : List Char :=
  match cutFirst? ':' name with
  | some (_, l) => l
  | none => name

def Tag.isNamed (t : Tag) (name : String) : Bool := sameName (localName t.name) name.toList

inductive Token where
  | text (content : List Char)
  | start (tag : Tag)
  | empty (tag : Tag)
  | stop (name : List Char)
  deriving DecidableEq, Repr

def tagOf (content : List Char) : Tag :=
  ⟨content.takeWhile fun c => !isSpace c, content.dropWhile fun c => !isSpace c⟩

/-- The name in an end tag: space after it does not count, but space alone is a name. -/
def endName (content : List Char) : List Char :=
  if content.all isSpace then content else (content.reverse.dropWhile isSpace).reverse

def tagToken (content : List Char) : Token :=
  match content with
  | '/' :: rest => .stop (endName rest)
  | _ =>
    if content.getLast? = some '/' then .empty (tagOf content.dropLast)
    else .start (tagOf content)

/-- Reads up to the `>` that is not inside quotes; `quote` is the quote that is open. -/
def tagBody? : Option Char → List Char → Option (List Char × List Char)
  | _, [] => none
  | none, c :: rest =>
    if c = '>' then some ([], rest)
    else (tagBody? (if c = '"' ∨ c = '\'' then some c else none) rest).map
      fun (content, rest) => (c :: content, rest)
  | some q, c :: rest =>
    (tagBody? (if c = q then none else some q) rest).map
      fun (content, rest) => (c :: content, rest)

/-- Reads up to the `>` that closes a document type with `inner` brackets open in it. -/
def doctypeBody? : Nat → List Char → Option (List Char × List Char)
  | _, [] => none
  | inner, c :: rest =>
    if c = '>' then
      match inner with
      | 0 => some ([], rest)
      | inner + 1 => (doctypeBody? inner rest).map fun (content, rest) => (c :: content, rest)
    else
      (doctypeBody? (if c = '<' then inner + 1 else inner) rest).map
        fun (content, rest) => (c :: content, rest)

def skipPast (mark : List Char) (unclosed : Error) (s : List Char) : Except Error (List Char) :=
  match cutAt? mark s with
  | some (_, rest) => .ok rest
  | none => .error unclosed

/-- An instruction ends with a question mark other than the one with which it begins. -/
def skipInstruction (s : List Char) : Except Error (List Char) :=
  match cutAt? "?>".toList s with
  | some (_ :: _, rest) => .ok rest
  | _ => .error .unclosedInstruction

/-- A document type says more than its first word. -/
def skipDoctype (s : List Char) : Except Error (List Char) :=
  if sameName (s.take 7) "doctype".toList then
    match doctypeBody? 0 (s.drop 7) with
    | some (content, rest) => if content.all isSpace then .error .emptyDoctype else .ok rest
    | none => .error .unclosedDoctype
  else .error .unknownMark

/-- Reads what follows `<`: a token, if there is one to keep, and the rest. -/
def mark (s : List Char) : Except Error (Option Token × List Char) :=
  match after? "!--".toList s, after? "![CDATA[".toList s with
  | some body, _ => (skipPast "-->".toList .unclosedComment body).map (none, ·)
  | none, some body => (skipPast "]]>".toList .unclosedCharacterData body).map (none, ·)
  | none, none =>
    match s with
    | '!' :: body => (skipDoctype body).map (none, ·)
    | '?' :: _ => (skipInstruction s).map (none, ·)
    | _ =>
      match tagBody? none s with
      | some (content, rest) => .ok (some (tagToken content), rest)
      | none => .error .unclosedTag

theorem ends_cons {c : Char} {s content rest : List Char} {body? : Option (List Char × List Char)}
    (ends : ∀ {content}, body? = some (content, rest) → s = content ++ '>' :: rest)
    (h : (body?.map fun (content, rest) => (c :: content, rest)) = some (content, rest)) :
    c :: s = content ++ '>' :: rest := by
  obtain ⟨⟨content', rest'⟩, found, same⟩ := Option.map_eq_some_iff.1 h
  obtain ⟨rfl, rfl⟩ := Prod.mk.inj same
  rw [List.cons_append, ← ends found]

theorem tagBody?_ends {quote : Option Char} {s content rest : List Char}
    (h : tagBody? quote s = some (content, rest)) : s = content ++ '>' :: rest := by
  induction s generalizing quote content with
  | nil =>
    unfold tagBody? at h
    cases h
  | cons c s ih =>
    cases quote with
    | none =>
      rw [tagBody?] at h
      split at h
      · next close =>
        obtain ⟨rfl, rfl⟩ := Prod.mk.inj (Option.some.inj h)
        rw [close, List.nil_append]
      · exact ends_cons ih h
    | some q => exact ends_cons ih h

theorem doctypeBody?_ends {inner : Nat} {s content rest : List Char}
    (h : doctypeBody? inner s = some (content, rest)) : s = content ++ '>' :: rest := by
  induction s generalizing inner content with
  | nil =>
    unfold doctypeBody? at h
    cases h
  | cons c s ih =>
    unfold doctypeBody? at h
    split at h
    · next close =>
      split at h
      · obtain ⟨rfl, rfl⟩ := Prod.mk.inj (Option.some.inj h)
        rw [close, List.nil_append]
      · exact ends_cons ih h
    · exact ends_cons ih h

theorem cutAt?_ends (stop : List Char) {s before rest : List Char}
    (h : cutAt? (stop ++ ['>']) s = some (before, rest)) : '>' :: rest <:+ s := by
  rw [← append_of_cutAt? h, List.append_assoc]
  exact (List.suffix_append stop _).trans (List.suffix_append before _)

theorem skipPast_ends (stop : List Char) {unclosed : Error} {s rest : List Char}
    (h : skipPast (stop ++ ['>']) unclosed s = .ok rest) : '>' :: rest <:+ s := by
  unfold skipPast at h
  split at h
  · next found =>
    obtain rfl := Except.ok.inj h
    exact cutAt?_ends stop found
  · cases h

theorem skipInstruction_ends {s rest : List Char} (h : skipInstruction s = .ok rest) :
    '>' :: rest <:+ s := by
  unfold skipInstruction at h
  split at h
  · next found =>
    obtain rfl := Except.ok.inj h
    exact cutAt?_ends ['?'] found
  · cases h

theorem skipDoctype_ends {s rest : List Char} (h : skipDoctype s = .ok rest) :
    '>' :: rest <:+ s := by
  unfold skipDoctype at h
  split at h
  · split at h
    · next content rest' found =>
      split at h
      · cases h
      · obtain rfl := Except.ok.inj h
        have inner : '>' :: rest' <:+ s.drop 7 := ⟨content, (doctypeBody?_ends found).symm⟩
        exact inner.trans (List.drop_suffix 7 s)
    · cases h
  · cases h

theorem ok_of_map_ok {x : Except Error (List Char)} {o : Option Token} {t : List Char}
    (h : x.map (none, ·) = .ok (o, t)) : x = .ok t := by
  cases x with
  | error e => cases h
  | ok a =>
    simp only [Except.map, Except.ok.injEq, Prod.mk.injEq] at h
    rw [h.2]

theorem mark_ends {s rest : List Char} {token : Option Token} (h : mark s = .ok (token, rest)) :
    '>' :: rest <:+ s := by
  have led : ∀ {lead body : List Char}, after? lead s = some body → body <:+ s := by
    intro lead body found
    rw [after?_eq_some_iff.1 found]
    exact List.suffix_append lead body
  unfold mark at h
  split at h
  · next body _ lead =>
    exact (skipPast_ends ['-', '-'] (ok_of_map_ok h)).trans (led lead)
  · next body lead =>
    exact (skipPast_ends [']', ']'] (ok_of_map_ok h)).trans (led lead)
  · split at h
    · next body _ _ =>
      exact (skipDoctype_ends (ok_of_map_ok h)).trans (List.suffix_cons '!' body)
    · exact skipInstruction_ends (ok_of_map_ok h)
    · split at h
      · next content rest' found =>
        obtain ⟨_, rfl⟩ := Prod.mk.inj (Except.ok.inj h)
        exact ⟨content, (tagBody?_ends found).symm⟩
      · cases h

/-- The tokens of a text. A text between marks is trimmed, and left out if nothing remains. -/
def tokens (s : List Char) : Except Error (List Token) :=
  match s with
  | [] => .ok []
  | '<' :: rest =>
    match _h : mark rest with
    | .error e => .error e
    | .ok (token, rest) => (tokens rest).map (token.toList ++ ·)
  | c :: rest =>
    let content := trimBy isSpace (c :: rest.takeWhile (· != '<'))
    (tokens (rest.dropWhile (· != '<'))).map fun ts =>
      if content.isEmpty then ts else .text content :: ts
termination_by s.length
decreasing_by
  · have := (mark_ends _h).length_le
    rw [List.length_cons] at this ⊢
    omega
  · have := length_dropWhile_le (· != '<') rest
    rw [List.length_cons]
    omega

def ofFile : List Char → Except Error (List Token)
  | '\uFEFF' :: rest => tokens rest
  | s => tokens s

end CodeAtlas.Markup
