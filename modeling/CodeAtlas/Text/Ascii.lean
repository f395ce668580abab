/-!
Comparison of names without regard to the case of ASCII letters. Other characters are compared
as they are.
-/
namespace CodeAtlas.Text

/-- `Char.toLower` changes the letters `A` to `Z` only. -/
def sameName (a b : List Char) : Bool := a.map Char.toLower == b.map Char.toLower

def lowerByte (b : UInt8) : UInt8 := if 65 ≤ b && b ≤ 90 then b + 32 else b

def sameBytes (a b : List UInt8) : Bool := a.map lowerByte == b.map lowerByte

end CodeAtlas.Text
