import Termwise.Text.Units

/-!
# Termwise.Text.Quoted

Strings as they are written in the text form of a term, between double quotes:

```text
"  \                    after a backslash
newline, tab, return    \n  \t  \r
other control           \x{hh}     at least two lower-case hex digits
lone surrogate          \x{hhhh}
anything else           itself
```
-/

namespace Termwise.Text.Quoted

open Termwise.Text.Units

/-! ## hex digits -/

/-- A number in lower-case hexadecimal, padded with zeros to at least `width` digits. -/
def hex (width n : Nat) : List Char :=
  let digits := Nat.toDigits 16 n
  List.replicate (width - digits.length) '0' ++ digits

/-! ## escapes -/

/-- Whether a character is a control: below U+0020, or from U+007F to U+009F. -/
def isControl (c : Char) : Bool := c.toNat < 0x20 || (0x7F ≤ c.toNat && c.toNat ≤ 0x9F)

/-- A code point in braces after a backslash and an x. -/
def escaped (width n : Nat) : List Char := ['\\', 'x', '\x7b'] ++ hex width n ++ ['\x7d']

/-- One decoded piece as it stands between the quotes. -/
def piece : Piece → List Char
  | .lone u => escaped 4 u.toNat
  | .char '"' => ['\\', '"']
  | .char '\\' => ['\\', '\\']
  | .char '\n' => ['\\', 'n']
  | .char '\t' => ['\\', 't']
  | .char '\r' => ['\\', 'r']
  | .char c => if isControl c then escaped 2 c.toNat else [c]

/-- A unit sequence as a quoted text. -/
def ofUnits (units : List UInt16) : String :=
  String.ofList ('"' :: (decode units).flatMap piece ++ ['"'])

end Termwise.Text.Quoted
