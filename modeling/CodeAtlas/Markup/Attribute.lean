import CodeAtlas.Markup.Reference
import CodeAtlas.Markup.Token

/-!
The attributes of a tag, looked through from the left until the wanted one is found. What stands
after it is not looked at.
-/
namespace CodeAtlas.Markup
open Text

def endsName (c : Char) : Bool := c == '=' || isSpace c

def assigned (s : List Char) : Except Error (List Char × List Char) :=
  match s.dropWhile isSpace with
  | '=' :: rest =>
    match rest.dropWhile isSpace with
    | [] => .error .missingValue
    | q :: rest =>
      if q = '"' ∨ q = '\'' then
        match cutFirst? q rest with
        | some found => .ok found
        | none => .error .unclosedQuote
      else .error .unquotedValue
  | _ => .error .missingEquals

theorem length_assigned {s a b : List Char} (h : assigned s = .ok (a, b)) :
    b.length ≤ s.length := by
  rw [assigned] at h
  split at h
  · next rest hs =>
    have hs := congrArg List.length hs
    have h1 := length_dropWhile_le isSpace s
    have h2 := length_dropWhile_le isSpace rest
    simp only [List.length_cons] at hs
    split at h
    · cases h
    · next hr =>
      have hr := congrArg List.length hr
      simp only [List.length_cons] at hr
      split at h
      · split at h
        · next hc =>
          have hc := length_cutFirst? ((Except.ok.inj h) ▸ hc)
          omega
        · cases h
      · cases h
  · cases h

/-- The value of an attribute as it is written. The first character of an attribute belongs to
its name whatever it is. -/
def writtenValue (wanted : List Char) (s : List Char) : Except Error (Option (List Char)) :=
  match _hs : s.dropWhile isSpace with
  | [] => .ok none
  | c :: rest =>
    let name := c :: rest.takeWhile fun c => !endsName c
    match _h : assigned (rest.dropWhile fun c => !endsName c) with
    | .error e => .error e
    | .ok (value, after) => if name = wanted then .ok (some value) else writtenValue wanted after
termination_by s.length
decreasing_by
  have h1 := length_assigned _h
  have h2 := length_dropWhile_le isSpace s
  have h3 := length_dropWhile_le (fun c => !endsName c) rest
  rw [_hs, List.length_cons] at h2
  omega

def Tag.attribute (t : Tag) (name : String) : Except Error (Option (List Char)) := do
  match ← writtenValue name.toList t.rest with
  | none => pure none
  | some value => some <$> unescape value

end CodeAtlas.Markup
