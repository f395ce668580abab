import CodeAtlas.Markup.Error
import CodeAtlas.Text.Split

/-!
References in marked-up texts: five names for characters of markup, and numbers for all others.
-/
namespace CodeAtlas.Markup
open Text

def namedReference? (name : List Char) : Option Char :=
  [("lt".toList, '<'), ("gt".toList, '>'), ("amp".toList, '&'), ("apos".toList, '\''),
    ("quot".toList, '"')].lookup name

def digitValue? (base : Nat) (c : Char) : Option Nat :=
  let value? :=
    if '0' ≤ c ∧ c ≤ '9' then some (c.toNat - '0'.toNat)
    else if 'a' ≤ c ∧ c ≤ 'z' then some (c.toNat - 'a'.toNat + 10)
    else if 'A' ≤ c ∧ c ≤ 'Z' then some (c.toNat - 'A'.toNat + 10)
    else none
  value?.filter (· < base)

def number? (base : Nat) (digits : List Char) : Option Nat :=
  if digits.isEmpty then none
  else (digits.mapM (digitValue? base)).map fun ds => ds.foldl (fun n d => n * base + d) 0

/-- The character with a number. There is none for zero and for half a pair. -/
def charOf? (n : Nat) : Option Char :=
  if n ≠ 0 ∧ n.isValidChar then some (Char.ofNat n) else none

def reference? : List Char → Option Char
  | '#' :: 'x' :: digits => (number? 16 digits).bind charOf?
  | '#' :: digits => (number? 10 digits).bind charOf?
  | name => namedReference? name

def afterAmpersand (s : List Char) : Except Error (List Char) :=
  match cutFirst? ';' s with
  | none => .error .unclosedReference
  | some (name, rest) =>
    match reference? name with
    | none => .error .unknownReference
    | some c => .ok (c :: rest)

def unescape (s : List Char) : Except Error (List Char) :=
  match pieces '&' s with
  | [] => .ok []
  | first :: rest => (rest.mapM afterAmpersand).map fun texts => first ++ texts.flatten

def escapeChar (c : Char) : List Char :=
  if c = '<' then "&lt;".toList
  else if c = '>' then "&gt;".toList
  else if c = '&' then "&amp;".toList
  else if c = '\'' then "&apos;".toList
  else if c = '"' then "&quot;".toList
  else [c]

def escape (s : List Char) : List Char := s.flatMap escapeChar

end CodeAtlas.Markup
