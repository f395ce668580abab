import CodeAtlas.Json.Quoted
import CodeAtlas.Path.Uri
import CodeAtlas.Proofs.LineIndex
import CodeAtlas.Proofs.Paths
import CodeAtlas.Proofs.TextParts

/-!
File URIs can be read back. Each byte of a component is written as one character or as an escape, and
none but a slash is written as a slash. So cutting a URI at its slashes and reading the escapes gives
the components of the path, byte for byte, and URIs tell absolute paths apart by their components.
-/
namespace CodeAtlas
open Text

def Component.bytes : Component → Bytes
  | .root => []
  | .current => [Path.dot]
  | .parent => [Path.dot, Path.dot]
  | .name n => n

namespace Path
variable {p : Path}

/-- The pieces between slashes that are neither empty nor a single dot. -/
def steps (p : Path) : List Bytes := p.segments.filter fun s => !isFiller s

theorem steps_whole (p : Path) : ∀ s ∈ p.steps, s ≠ [] ∧ slash ∉ s := by
  intro s h
  obtain ⟨listed, kept⟩ := List.mem_filter.1 h
  refine ⟨?_, notMem_of_mem_pieces listed⟩
  rintro rfl
  cases kept

theorem bytes_component (s : Bytes) : (component s).bytes = s := by
  unfold component
  split
  · next parent => exact (beq_iff_eq.1 parent).symm
  · rfl

theorem components_eq_steps (h : p.isAbsolute) :
    p.components = .root :: p.steps.map component :=
  components_of_isAbsolute h

theorem steps_eq_bytes (h : p.isAbsolute) : p.steps = (p.components.drop 1).map Component.bytes := by
  rw [components_eq_steps h, List.drop_one, List.tail_cons, List.map_map]
  exact (List.map_id'' bytes_component p.steps).symm

end Path

namespace Uri
open Json.Quoted (hexValue?)

/-- The bytes of a text with escapes. A percent sign without two digits after it stands for itself. -/
def decode : List Char → Bytes
  | '%' :: a :: b :: rest =>
    match hexValue? a, hexValue? b with
    | some high, some low => UInt8.ofNat (16 * high + low) :: decode rest
    | _, _ => UInt8.ofNat '%'.toNat :: decode (a :: b :: rest)
  | c :: rest => String.utf8EncodeChar c ++ decode rest
  | [] => []

def steps? (u : Uri) : Option (List Bytes) :=
  (after? (scheme ++ "://").toList u.text.toList).map fun path =>
    ((pieces '/' path).filter fun piece => !piece.isEmpty).map decode

section Bytes
variable {b : UInt8} {bytes : Bytes}

theorem hexValue?_hexDigit {n : Nat} (h : n < 16) : hexValue? (hexDigit n) = some n := by
  revert n
  decide

def isShown (c : Char) : Bool :=
  c.toNat < 128 && !(['?', '#', ' ', '"', '\\'].contains c)

theorem isShown_hexDigit {n : Nat} (h : n < 16) : isShown (hexDigit n) ∧ hexDigit n ≠ '/' := by
  revert n
  decide

theorem encodeByte_cases (b : UInt8) :
    (encodeByte b = ['%', hexDigit (b.toNat / 16), hexDigit (b.toNat % 16)]) ∨
      (encodeByte b = [Char.ofNat b.toNat] ∧ 0x20 < b.toNat ∧ b.toNat < 0x7F ∧
        Char.ofNat b.toNat ∉ reserved) := by
  unfold encodeByte
  cases encoded : isEncoded b with
  | true => exact .inl (if_pos rfl)
  | false =>
    unfold isEncoded at encoded
    simp only [Bool.or_eq_false_iff, decide_eq_false_iff_not, UInt8.le_iff_toNat_le,
      List.contains_eq_mem] at encoded
    obtain ⟨⟨low, high⟩, free⟩ := encoded
    refine .inr ⟨if_neg Bool.false_ne_true, ?_, ?_, free⟩
    · exact Nat.lt_of_not_le low
    · exact Nat.lt_of_not_le high

theorem toNat_ofNat_byte (h : b.toNat < 0x7F) : (Char.ofNat b.toNat).toNat = b.toNat := by
  have valid : b.toNat.isValidChar := .inl (by omega)
  rw [Char.ofNat, dif_pos valid]
  rfl

theorem decode_cons {c : Char} (h : c ≠ '%') (rest : List Char) :
    decode (c :: rest) = String.utf8EncodeChar c ++ decode rest := by
  rw [decode]
  intro a b later escape
  exact absurd escape h

theorem decode_encodeByte (b : UInt8) (rest : List Char) :
    decode (encodeByte b ++ rest) = b :: decode rest := by
  rcases encodeByte_cases b with escaped | ⟨plain, _, high, free⟩
  · have size := b.toNat_lt
    have first := hexValue?_hexDigit (n := b.toNat / 16) (by omega)
    have second := hexValue?_hexDigit (n := b.toNat % 16) (by omega)
    rw [escaped, List.cons_append, List.cons_append, List.cons_append, List.nil_append, decode,
      first, second]
    dsimp only
    rw [Nat.div_add_mod, UInt8.ofNat_toNat]
  · have value := toNat_ofNat_byte high
    have other : Char.ofNat b.toNat ≠ '%' := by
      intro percent
      exact free (percent ▸ by decide)
    rw [plain, List.singleton_append, decode_cons other]
    rcases LineIndex.utf8EncodeChar_cases (Char.ofNat b.toNat) with ⟨_, single⟩ | ⟨wide, _⟩
    · rw [single, value, UInt8.ofNat_toNat, List.singleton_append]
    · omega

theorem decode_encode (bytes : Bytes) : decode (encode bytes) = bytes := by
  induction bytes with
  | nil => rfl
  | cons b bytes ih =>
    change decode (encodeByte b ++ encode bytes) = b :: bytes
    rw [decode_encodeByte, ih]

theorem isShown_encodeByte (b : UInt8) : ∀ c ∈ encodeByte b, isShown c := by
  rcases encodeByte_cases b with escaped | ⟨plain, low, high, free⟩
  · have size := b.toNat_lt
    rw [escaped]
    simp only [List.mem_cons, List.not_mem_nil, or_false, forall_eq_or_imp, forall_eq]
    exact ⟨rfl, (isShown_hexDigit (by omega)).1, (isShown_hexDigit (by omega)).1⟩
  · have value := toNat_ofNat_byte high
    have apart : Char.ofNat b.toNat ∉ ['?', '#', ' ', '"', '\\'] := by
      intro member
      have listed : ∀ c ∈ ['?', '#', ' ', '"', '\\'], c = ' ' ∨ c ∈ reserved := by
        simp [reserved]
      rcases listed _ member with blank | held
      · rw [blank] at value
        exact absurd value (Nat.ne_of_lt low)
      · exact free held
    rw [plain]
    intro c member
    rw [List.mem_singleton.1 member]
    unfold isShown
    rw [value, Bool.and_eq_true, decide_eq_true_iff, Bool.not_eq_true', List.contains_eq_mem,
      decide_eq_false_iff_not]
    exact ⟨by omega, apart⟩

theorem slash_notMem_encodeByte (h : b ≠ Path.slash) : '/' ∉ encodeByte b := by
  rcases encodeByte_cases b with escaped | ⟨plain, _, high, _⟩
  · have size := b.toNat_lt
    have first := (isShown_hexDigit (n := b.toNat / 16) (by omega)).2
    have second := (isShown_hexDigit (n := b.toNat % 16) (by omega)).2
    rw [escaped]
    simp [first.symm, second.symm]
  · rw [plain, List.mem_singleton]
    intro same
    have value := toNat_ofNat_byte high
    rw [← same] at value
    exact h (UInt8.toNat_inj.1 value.symm)

theorem slash_notMem_encode (whole : Path.slash ∉ bytes) : '/' ∉ encode bytes := by
  intro member
  obtain ⟨b, listed, found⟩ := List.mem_flatMap.1 member
  apply slash_notMem_encodeByte _ found
  rintro rfl
  exact whole listed

theorem encode_ne_nil (filled : bytes ≠ []) : encode bytes ≠ [] := by
  intro empty
  apply filled
  rw [← decode_encode bytes, empty]
  rfl

end Bytes

section Steps
variable {p q : Path}

theorem componentText_eq (c : Component) : componentText c = encode c.bytes := by
  cases c <;> rfl

def pathText (steps : List Bytes) : List Char :=
  if steps.isEmpty then ['/'] else steps.flatMap fun s => '/' :: encode s

theorem ofPath_absolute (h : p.isAbsolute) :
    ofPath p = .ok ⟨scheme ++ "://" ++ String.ofList (pathText p.steps)⟩ := by
  unfold ofPath pathText
  dsimp only
  rw [if_pos h, Path.components_eq_steps h, List.drop_one, List.tail_cons, List.isEmpty_map,
    List.flatMap_map]
  simp only [componentText_eq, Path.bytes_component]

theorem ofPath_relative (h : ¬ p.isAbsolute) : ofPath p = .error ⟨p⟩ := if_neg h

theorem pieces_slashed {steps : List Bytes} (whole : ∀ s ∈ steps, Path.slash ∉ s) :
    pieces '/' (steps.flatMap fun s => '/' :: encode s) = [] :: steps.map encode := by
  induction steps using List.reverseRecOn with
  | nil => rfl
  | append_singleton steps s ih =>
    have last := slash_notMem_encode (whole s (List.mem_append_right steps List.mem_cons_self))
    rw [List.flatMap_append, List.flatMap_singleton, pieces_append_sep,
      ih fun t early => whole t (List.mem_append_left [s] early), pieces_of_notMem last,
      List.map_append]
    rfl

theorem pieces_pathText {steps : List Bytes} (whole : ∀ s ∈ steps, s ≠ [] ∧ Path.slash ∉ s) :
    ((pieces '/' (pathText steps)).filter fun piece => !piece.isEmpty).map decode = steps := by
  unfold pathText
  split
  · next none => rw [List.isEmpty_iff.1 none]; rfl
  · rw [pieces_slashed fun s listed => (whole s listed).2, List.filter_cons_of_neg (by simp)]
    have filled : ∀ piece ∈ steps.map encode, !piece.isEmpty := by
      intro piece listed
      obtain ⟨s, member, rfl⟩ := List.mem_map.1 listed
      simpa using encode_ne_nil (whole s member).1
    rw [List.filter_eq_self.2 filled, List.map_map]
    exact List.map_id'' decode_encode steps

theorem toList_text (path : List Char) :
    (scheme ++ "://" ++ String.ofList path).toList = (scheme ++ "://").toList ++ path := by
  rw [String.toList_append, String.toList_ofList]

theorem steps?_text {steps : List Bytes} (whole : ∀ s ∈ steps, s ≠ [] ∧ Path.slash ∉ s) :
    steps? ⟨scheme ++ "://" ++ String.ofList (pathText steps)⟩ = some steps := by
  unfold steps?
  dsimp only
  rw [toList_text, after?_append, Option.map_some, pieces_pathText whole]

theorem isShown_pathText (steps : List Bytes) : ∀ c ∈ pathText steps, isShown c := by
  intro c member
  unfold pathText at member
  split at member
  · rw [List.mem_singleton.1 member]
    decide
  · obtain ⟨s, _, found⟩ := List.mem_flatMap.1 member
    rcases List.mem_cons.1 found with rfl | inside
    · decide
    · obtain ⟨b, _, written⟩ := List.mem_flatMap.1 inside
      exact isShown_encodeByte b c written

theorem isShown_text (steps : List Bytes) :
    ∀ c ∈ (scheme ++ "://" ++ String.ofList (pathText steps)).toList, isShown c := by
  intro c member
  rw [toList_text] at member
  rcases List.mem_append.1 member with early | late
  · have all : (scheme ++ "://").toList.all isShown := by decide
    exact List.all_eq_true.1 all c early
  · exact isShown_pathText steps c late

theorem pathText_slash (steps : List Bytes) : ∃ rest, pathText steps = '/' :: rest := by
  unfold pathText
  cases steps with
  | nil => exact ⟨[], rfl⟩
  | cons s steps => exact ⟨_, rfl⟩

end Steps

/-- A path has a URI exactly if it begins with a slash. The URI is plain text that begins like that of
a file, and the steps that are read from it are the pieces of the path between slashes, without the
empty ones and single dots, which are its components after the root. Absolute paths have the same URI
exactly if they have the same components. -/
theorem uri_tells_components (p : Path) :
    ((∃ e, ofPath p = .error e) ↔ p.bytes.head? ≠ some Path.slash) ∧
      (∀ u, ofPath p = .ok u →
        (∀ c ∈ u.text.toList, c.toNat < 128 ∧ c ∉ ['?', '#', ' ', '"', '\\']) ∧
          "file:///".toList <+: u.text.toList ∧
          u.steps? = some p.steps ∧ p.steps = (p.components.drop 1).map Component.bytes) ∧
      ∀ q, p.isAbsolute → q.isAbsolute → (ofPath p = ofPath q ↔ p.components = q.components) := by
  refine ⟨?_, ?_, ?_⟩
  · by_cases absolute : p.isAbsolute
    · have begins : p.bytes.head? = some Path.slash := beq_iff_eq.1 absolute
      simp [ofPath_absolute absolute, begins]
    · have other : p.bytes.head? ≠ some Path.slash := fun begins => absolute (beq_iff_eq.2 begins)
      simp [ofPath_relative absolute, other]
  · intro u found
    have absolute : p.isAbsolute := by
      by_contra relative
      rw [ofPath_relative relative] at found
      cases found
    rw [ofPath_absolute absolute] at found
    obtain rfl := Except.ok.inj found
    refine ⟨?_, ?_, steps?_text p.steps_whole, Path.steps_eq_bytes absolute⟩
    · intro c member
      have shown : isShown c := isShown_text p.steps c member
      unfold isShown at shown
      simpa using shown
    · obtain ⟨rest, slash⟩ := pathText_slash p.steps
      rw [toList_text, slash]
      exact ⟨rest, rfl⟩
  · intro q absolute absolute'
    constructor
    · intro same
      rw [ofPath_absolute absolute, ofPath_absolute absolute'] at same
      have texts := congrArg steps? (Except.ok.inj same)
      rw [steps?_text p.steps_whole, steps?_text q.steps_whole] at texts
      rw [Path.components_eq_steps absolute, Path.components_eq_steps absolute',
        Option.some.inj texts]
    · intro same
      rw [ofPath_absolute absolute, ofPath_absolute absolute', Path.steps_eq_bytes absolute,
        Path.steps_eq_bytes absolute', same]

/-- A path with fillers, a step up, what looks like an escape, and a byte that is no text. -/
def strangePath : Path := ⟨Utf8.ofString "/a b//./%41/../" ++ [0xFF, 0x23]⟩

theorem strangePath_read :
    let u : Uri := ⟨"file:///a%20b/%2541/../%FF%23"⟩
    ofPath strangePath = .ok u ∧
      u.steps? = some [Utf8.ofString "a b", Utf8.ofString "%41", Utf8.ofString "..", [0xFF, 0x23]] := by
  intro u
  have found : ofPath strangePath = .ok u := by decide +kernel
  have steps : strangePath.steps =
      [Utf8.ofString "a b", Utf8.ofString "%41", Utf8.ofString "..", [0xFF, 0x23]] := by
    decide +kernel
  refine ⟨found, ?_⟩
  rw [((uri_tells_components strangePath).2.1 u found).2.2.1, steps]

end Uri
end CodeAtlas
