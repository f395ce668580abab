/-!
Numbers as JSON writes them, and the ones among them that are offsets: natural numbers below
`2 ^ 64`, written without sign, fraction or exponent.
-/
namespace CodeAtlas.Json.Number

def isDigit (c : Char) : Bool := '0' ≤ c && c ≤ '9'

def digits? (s : List Char) : Option (List Char × List Char) :=
  match s.takeWhile isDigit with
  | [] => none
  | ds => some (ds, s.dropWhile isDigit)

/-- The integer part: no leading zero, except for zero itself. -/
def whole? : List Char → Option (List Char × List Char)
  | '0' :: rest => if (rest.head?.map isDigit).getD false then none else some (['0'], rest)
  | s => digits? s

def fraction? : List Char → Option (List Char × List Char)
  | '.' :: rest => (digits? rest).map fun (ds, r) => ('.' :: ds, r)
  | s => some ([], s)

def exponent? : List Char → Option (List Char × List Char)
  | [] => some ([], [])
  | e :: rest =>
    if e = 'e' ∨ e = 'E' then
      match rest with
      | '+' :: rest => (digits? rest).map fun (ds, r) => (e :: '+' :: ds, r)
      | '-' :: rest => (digits? rest).map fun (ds, r) => (e :: '-' :: ds, r)
      | rest => (digits? rest).map fun (ds, r) => (e :: ds, r)
    else some ([], e :: rest)

def unsigned? (s : List Char) : Option (List Char × List Char) := do
  let (a, s) ← whole? s
  let (b, s) ← fraction? s
  let (c, s) ← exponent? s
  pure (a ++ b ++ c, s)

def read? : List Char → Option (List Char × List Char)
  | '-' :: rest => (unsigned? rest).map fun (w, r) => ('-' :: w, r)
  | s => unsigned? s

def write (n : Nat) : List Char := Nat.toDigits 10 n

def ofDigits (ds : List Char) : Nat := ds.foldl (fun n c => n * 10 + (c.toNat - '0'.toNat)) 0

def offset? (s : List Char) : Option Nat :=
  if s.all isDigit && !s.isEmpty && ofDigits s < UInt64.size then some (ofDigits s) else none

end CodeAtlas.Json.Number
