import CodeAtlas.Path.Basic

/-!
File URIs of absolute paths. Each component is percent-encoded by itself: control bytes, bytes
outside ASCII, space, and the characters that have a meaning of their own in a URI.
-/
namespace CodeAtlas
open Text

structure Uri where
  text : String
  deriving DecidableEq, Repr, Inhabited

structure InvalidPath where
  path : Path
  deriving DecidableEq, Repr

def InvalidPath.message (e : InvalidPath) : String :=
  "Invalid document path: " ++ e.path.display ++ " is not an absolute file path"

namespace Uri

def reserved : List Char := ['"', '#', '%', '<', '>', '?', '\x60', '\x7b', '\x7d', '\\']

def isEncoded (b : UInt8) : Bool :=
  b ≤ 0x20 || 0x7F ≤ b || reserved.contains (Char.ofNat b.toNat)

def hexDigit (n : Nat) : Char := (Nat.digitChar n).toUpper

def encodeByte (b : UInt8) : List Char :=
  if isEncoded b then ['%', hexDigit (b.toNat / 16), hexDigit (b.toNat % 16)]
  else [Char.ofNat b.toNat]

def encode (bytes : Bytes) : List Char := bytes.flatMap encodeByte

def componentText : Component → List Char
  | .root => []
  | .current => ['.']
  | .parent => ['.', '.']
  | .name n => encode n

def scheme : String := "file"

def ofPath (p : Path) : Except InvalidPath Uri :=
  if p.isAbsolute then
    let steps := p.components.drop 1
    let path := if steps.isEmpty then ['/'] else steps.flatMap fun c => '/' :: componentText c
    .ok ⟨scheme ++ "://" ++ String.ofList path⟩
  else .error ⟨p⟩

end Uri
end CodeAtlas
