/-!
Texts between quotes. Writing escapes quotes, backslashes and control characters and leaves the
rest alone; reading also takes the other escapes of the format. A `\u` escape stands for a UTF-16
unit, so a pair of them can be one character, and half a pair is none.
-/
namespace CodeAtlas.Json.Quoted

def hexDigit (n : Nat) : Char := Nat.digitChar n

def escapeChar (c : Char) : List Char :=
  if c = '"' then ['\\', '"']
  else if c = '\\' then ['\\', '\\']
  else if c = '\x08' then ['\\', 'b']
  else if c = '\x0c' then ['\\', 'f']
  else if c = '\n' then ['\\', 'n']
  else if c = '\r' then ['\\', 'r']
  else if c = '\t' then ['\\', 't']
  else if c.toNat < 0x20 then
    ['\\', 'u', '0', '0', hexDigit (c.toNat / 16), hexDigit (c.toNat % 16)]
  else [c]

def escape (s : List Char) : List Char := s.flatMap escapeChar

def hexValue? (c : Char) : Option Nat :=
  if '0' ≤ c ∧ c ≤ '9' then some (c.toNat - '0'.toNat)
  else if 'a' ≤ c ∧ c ≤ 'f' then some (c.toNat - 'a'.toNat + 10)
  else if 'A' ≤ c ∧ c ≤ 'F' then some (c.toNat - 'A'.toNat + 10)
  else none

def unit? (a b c d : Char) : Option Nat := do
  let a ← hexValue? a
  let b ← hexValue? b
  let c ← hexValue? c
  let d ← hexValue? d
  pure (((a * 16 + b) * 16 + c) * 16 + d)

def simpleEscape? (c : Char) : Option Char :=
  if c = '"' ∨ c = '\\' ∨ c = '/' then some c
  else if c = 'b' then some '\x08'
  else if c = 'f' then some '\x0c'
  else if c = 'n' then some '\n'
  else if c = 'r' then some '\r'
  else if c = 't' then some '\t'
  else none

def isHighHalf (n : Nat) : Bool := 0xD800 ≤ n && n ≤ 0xDBFF

def isLowHalf (n : Nat) : Bool := 0xDC00 ≤ n && n ≤ 0xDFFF

def unescape? : List Char → Option (List Char)
  | [] => some []
  | '\\' :: 'u' :: a :: b :: c :: d :: rest =>
    match unit? a b c d with
    | none => none
    | some high =>
      if isHighHalf high then
        match rest with
        | '\\' :: 'u' :: e :: f :: g :: h :: rest =>
          match unit? e f g h with
          | none => none
          | some low =>
            if isLowHalf low then
              (unescape? rest).map
                (Char.ofNat (0x10000 + (high - 0xD800) * 0x400 + (low - 0xDC00)) :: ·)
            else none
        | _ => none
      else if isLowHalf high then none
      else (unescape? rest).map (Char.ofNat high :: ·)
  | '\\' :: c :: rest =>
    match simpleEscape? c with
    | some c => (unescape? rest).map (c :: ·)
    | none => none
  | ['\\'] => none
  | c :: rest => (unescape? rest).map (c :: ·)

/-- Reads up to the closing quote: what is written before it, and what follows it. Escapes must
be complete, and control characters may not stand for themselves. -/
def body? : List Char → Option (List Char × List Char)
  | [] => none
  | '"' :: rest => some ([], rest)
  | '\\' :: 'u' :: a :: b :: c :: d :: rest =>
    match unit? a b c d with
    | none => none
    | some _ => (body? rest).map fun (w, r) => ('\\' :: 'u' :: a :: b :: c :: d :: w, r)
  | '\\' :: c :: rest =>
    match simpleEscape? c with
    | some _ => (body? rest).map fun (w, r) => ('\\' :: c :: w, r)
    | none => none
  | ['\\'] => none
  | c :: rest => if c.toNat < 0x20 then none else (body? rest).map fun (w, r) => (c :: w, r)

end CodeAtlas.Json.Quoted
