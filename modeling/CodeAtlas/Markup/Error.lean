/-!
What can be wrong with a marked-up text.
-/
namespace CodeAtlas.Markup

inductive Error where
  | unclosedTag
  | unclosedComment
  | unclosedCharacterData
  | unclosedInstruction
  | unclosedDoctype
  | emptyDoctype
  | unknownMark
  | mismatchedEnd
  | missingEquals
  | missingValue
  | unquotedValue
  | unclosedQuote
  | unclosedReference
  | unknownReference
  deriving DecidableEq, Repr

def isSpace (c : Char) : Bool := c == ' ' || c == '\t' || c == '\r' || c == '\n'

end CodeAtlas.Markup
