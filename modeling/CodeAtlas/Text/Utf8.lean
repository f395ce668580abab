/-!
Bytes as text. A byte sequence is read as a list of characters and of faults; a fault is a
longest run of bytes that begins some character but does not complete it, or one byte that
begins none. Strict reading refuses any fault, lossy reading shows each as U+FFFD.
-/
namespace CodeAtlas.Text

abbrev Bytes := List UInt8

namespace Utf8

def encode (s : List Char) : Bytes := s.flatMap String.utf8EncodeChar

def ofString (s : String) : Bytes := encode s.toList

def payload (b : UInt8) : Nat := (b &&& 0x3F).toNat

def isContinuation (b : UInt8) : Bool := 0x80 ≤ b && b ≤ 0xBF

/-- Which second bytes may follow a leading byte of a longer sequence. -/
def secondFits (lead second : UInt8) : Bool :=
  if lead == 0xE0 then 0xA0 ≤ second && second ≤ 0xBF
  else if lead == 0xED then 0x80 ≤ second && second ≤ 0x9F
  else if lead == 0xF0 then 0x90 ≤ second && second ≤ 0xBF
  else if lead == 0xF4 then 0x80 ≤ second && second ≤ 0x8F
  else isContinuation second

def isLead2 (b : UInt8) : Bool := 0xC2 ≤ b && b ≤ 0xDF
def isLead3 (b : UInt8) : Bool := 0xE0 ≤ b && b ≤ 0xEF
def isLead4 (b : UInt8) : Bool := 0xF0 ≤ b && b ≤ 0xF4

def char2 (a b : UInt8) : Char := Char.ofNat ((a &&& 0x1F).toNat * 64 + payload b)

def char3 (a b c : UInt8) : Char :=
  Char.ofNat (((a &&& 0x0F).toNat * 64 + payload b) * 64 + payload c)

def char4 (a b c d : UInt8) : Char :=
  Char.ofNat ((((a &&& 0x07).toNat * 64 + payload b) * 64 + payload c) * 64 + payload d)

/-- The characters of a byte sequence, with `none` for each fault. -/
def scan : Bytes → List (Option Char)
  | [] => []
  | a :: rest =>
    if a < 0x80 then some (Char.ofNat a.toNat) :: scan rest
    else if isLead2 a then
      match rest with
      | [] => [none]
      | b :: rest =>
        if secondFits a b then some (char2 a b) :: scan rest else none :: scan (b :: rest)
    else if isLead3 a then
      match rest with
      | [] => [none]
      | b :: rest =>
        if secondFits a b then
          match rest with
          | [] => [none]
          | c :: rest =>
            if isContinuation c then some (char3 a b c) :: scan rest else none :: scan (c :: rest)
        else none :: scan (b :: rest)
    else if isLead4 a then
      match rest with
      | [] => [none]
      | b :: rest =>
        if secondFits a b then
          match rest with
          | [] => [none]
          | c :: rest =>
            if isContinuation c then
              match rest with
              | [] => [none]
              | d :: rest =>
                if isContinuation d then some (char4 a b c d) :: scan rest
                else none :: scan (d :: rest)
            else none :: scan (c :: rest)
        else none :: scan (b :: rest)
    else none :: scan rest

def decode? (bytes : Bytes) : Option (List Char) := (scan bytes).mapM id

/-- The text of a byte sequence, with U+FFFD for each fault. -/
def lossy (bytes : Bytes) : List Char := (scan bytes).map (·.getD '\uFFFD')

end Utf8
end CodeAtlas.Text
