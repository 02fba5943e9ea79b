import Termwise.Text.Visible

/-!
# Termwise.Text.Escaped

Texts in error messages: in double quotes, with `\0`, `\t`, `\r`, `\n`, the double quote and the
backslash escaped by a backslash, and every other character that does not show by
itself by its code point in hexadecimal digits.
-/

namespace Termwise.Text.Escaped

/-- A character as it stands in quotes. -/
def ofChar (c : Char) : List Char :=
  match c with
  | '\t' => ['\\', 't']
  | '\r' => ['\\', 'r']
  | '\n' => ['\\', 'n']
  | '"' => ['\\', '"']
  | '\\' => ['\\', '\\']
  | c =>
    if c.toNat = 0 then ['\\', '0']
    else if isVisible c then [c]
    else '\\' :: 'u' :: '\x7b' :: Nat.toDigits 16 c.toNat ++ ['\x7d']

/-- A text in quotes. -/
def ofString (s : String) : String := String.ofList ('"' :: s.toList.flatMap ofChar ++ ['"'])

end Termwise.Text.Escaped
