/-!
# Termwise.Toml.Text

Blanks, line ends, comments, strings and keys of TOML documents.  A reader takes
characters off the front and gives what it read and the rest; it refuses with
`none`.

```text
"basic"     'literal'        on one line
"""basic""" '''literal'''    over several lines, a line end after the opening dropped
```
-/

namespace Termwise.Toml

/-! ## blanks and lines -/

/-- Whether a character is a blank. -/
def isBlank (c : Char) : Bool := c == ' ' || c == '\t'

/-- Whether a character may stand in comments and strings: no control character but the tab. -/
def isPlain (c : Char) : Bool := c == '\t' || (0x20 ≤ c.toNat && c.toNat != 0x7F)

/-- The rest after blanks. -/
def skipBlanks (cs : List Char) : List Char := cs.dropWhile isBlank

/-- The rest after a line end. -/
def newline? : List Char → Option (List Char)
  | '\n' :: rest => some rest
  | '\r' :: '\n' :: rest => some rest
  | _ => none

/-- The rest after blanks, a comment, and a line end or the end of the document. -/
def endOfLine? (cs : List Char) : Option (List Char) :=
  let rest := match skipBlanks cs with
    | '#' :: rest => rest.dropWhile isPlain
    | rest => rest
  if rest.isEmpty then some [] else newline? rest

mutual

/-- The rest after blanks, line ends and comments. -/
def skipSpace : List Char → List Char
  | '#' :: rest => skipComment rest
  | '\r' :: '\n' :: rest => skipSpace rest
  | c :: rest => if isBlank c || c == '\n' then skipSpace rest else c :: rest
  | [] => []

/-- The rest after a comment and what `skipSpace` skips. -/
def skipComment : List Char → List Char
  | '\n' :: rest => skipSpace rest
  | '\r' :: '\n' :: rest => skipSpace rest
  | c :: rest => if isPlain c then skipComment rest else c :: rest
  | [] => []

end

/-! ## escapes -/

/-- The value of a hexadecimal digit. -/
def hexDigit? (c : Char) : Option Nat :=
  if c.isDigit then some (c.toNat - '0'.toNat)
  else if 'a' ≤ c ∧ c ≤ 'f' then some (c.toNat - 'a'.toNat + 10)
  else if 'A' ≤ c ∧ c ≤ 'F' then some (c.toNat - 'A'.toNat + 10)
  else none

/-- The character of a code point in hexadecimal digits. -/
def codePoint? (digits : List Char) : Option Char := do
  let values ← digits.mapM hexDigit?
  let n := values.foldl (fun n d => 16 * n + d) 0
  if n.isValidChar then some (Char.ofNat n) else none

/-- The character that a backslash and a letter stand for. -/
def escaped? (c : Char) : Option Char :=
  match c with
  | 'b' => some (Char.ofNat 8)
  | 't' => some '\t'
  | 'n' => some '\n'
  | 'f' => some (Char.ofNat 12)
  | 'r' => some '\r'
  | '"' => some '"'
  | '\\' => some '\\'
  | _ => none

/-! ## strings on one line -/

/-- A character put in front of what was read. -/
def cons? (c : Option Char) (read : Option (List Char × List Char)) :
    Option (List Char × List Char) := do
  let c ← c
  let (text, rest) ← read
  return (c :: text, rest)

/-- The text of a basic string after its opening quote. -/
def basicText : List Char → Option (List Char × List Char)
  | '"' :: rest => some ([], rest)
  | '\\' :: 'u' :: a :: b :: c :: d :: rest => cons? (codePoint? [a, b, c, d]) (basicText rest)
  | '\\' :: 'U' :: a :: b :: c :: d :: e :: f :: g :: h :: rest =>
    cons? (codePoint? [a, b, c, d, e, f, g, h]) (basicText rest)
  | '\\' :: c :: rest => cons? (escaped? c) (basicText rest)
  | c :: rest => if isPlain c then cons? (some c) (basicText rest) else none
  | [] => none

/-- The text of a literal string after its opening quote. -/
def literalText : List Char → Option (List Char × List Char)
  | '\'' :: rest => some ([], rest)
  | c :: rest => if isPlain c then cons? (some c) (literalText rest) else none
  | [] => none

/-! ## strings over several lines -/

/-- Up to two quotes in front of the three that close a string belong to it. -/
def lastQuotes (quote : Char) : List Char → List Char × List Char
  | a :: b :: rest =>
    if a = quote then
      if b = quote then ([a, b], rest) else ([a], b :: rest)
    else ([], a :: b :: rest)
  | [a] => if a = quote then ([a], []) else ([], [a])
  | [] => ([], [])

/-- What a backslash at the end of a line has done so far. -/
inductive Folding where
  /-- Nothing. -/
  | off
  /-- Blanks are skipped, and a line end has to follow. -/
  | pending
  /-- Blanks and line ends are skipped. -/
  | skipping
deriving DecidableEq

/-- The text of a long basic string after its opening quotes. -/
def longBasicText : Folding → List Char → Option (List Char × List Char)
  | .pending, '\n' :: rest => longBasicText .skipping rest
  | .pending, '\r' :: '\n' :: rest => longBasicText .skipping rest
  | .pending, c :: rest => if isBlank c then longBasicText .pending rest else none
  | .skipping, '\n' :: rest => longBasicText .skipping rest
  | .skipping, '\r' :: '\n' :: rest => longBasicText .skipping rest
  | .skipping, ' ' :: rest => longBasicText .skipping rest
  | .skipping, '\t' :: rest => longBasicText .skipping rest
  | _, '"' :: '"' :: '"' :: rest => some (lastQuotes '"' rest)
  | _, '\\' :: 'u' :: a :: b :: c :: d :: rest =>
    cons? (codePoint? [a, b, c, d]) (longBasicText .off rest)
  | _, '\\' :: 'U' :: a :: b :: c :: d :: e :: f :: g :: h :: rest =>
    cons? (codePoint? [a, b, c, d, e, f, g, h]) (longBasicText .off rest)
  | _, '\\' :: '\n' :: rest => longBasicText .skipping rest
  | _, '\\' :: '\r' :: '\n' :: rest => longBasicText .skipping rest
  | _, '\\' :: c :: rest =>
    if isBlank c then longBasicText .pending rest else cons? (escaped? c) (longBasicText .off rest)
  | _, '\r' :: '\n' :: rest => cons? (some '\n') (longBasicText .off rest)
  | _, c :: rest =>
    if isPlain c || c == '\n' then cons? (some c) (longBasicText .off rest) else none
  | _, [] => none

/-- The text of a long literal string after its opening quotes. -/
def longLiteralText : List Char → Option (List Char × List Char)
  | '\'' :: '\'' :: '\'' :: rest => some (lastQuotes '\'' rest)
  | '\r' :: '\n' :: rest => cons? (some '\n') (longLiteralText rest)
  | c :: rest => if isPlain c || c == '\n' then cons? (some c) (longLiteralText rest) else none
  | [] => none

/-- The rest without a line end in front. -/
def dropNewline (cs : List Char) : List Char := (newline? cs).getD cs

/-- A string of any of the four forms. -/
def string? (cs : List Char) : Option (String × List Char) :=
  (match cs with
    | '"' :: '"' :: '"' :: rest => longBasicText .off (dropNewline rest)
    | '\'' :: '\'' :: '\'' :: rest => longLiteralText (dropNewline rest)
    | '"' :: rest => basicText rest
    | '\'' :: rest => literalText rest
    | _ => none).map fun (text, rest) => (String.ofList text, rest)

/-! ## keys -/

/-- Whether a character may stand in a key without quotes. -/
def isBare (c : Char) : Bool := c.isAlphanum || c == '_' || c == '-'

/-- One part of a key. -/
def keyPart? (cs : List Char) : Option (String × List Char) :=
  match cs with
  | '"' :: rest => (basicText rest).map fun (text, rest) => (String.ofList text, rest)
  | '\'' :: rest => (literalText rest).map fun (text, rest) => (String.ofList text, rest)
  | _ =>
    let bare := cs.takeWhile isBare
    if bare.isEmpty then none else some (String.ofList bare, cs.dropWhile isBare)

/-- The parts of a key, at most so many, with dots between them and blanks around them. -/
def keyParts? : Nat → List Char → Option (List String × List Char)
  | 0, _ => none
  | bound + 1, cs => do
    let (part, rest) ← keyPart? (skipBlanks cs)
    match skipBlanks rest with
    | '.' :: rest => do
      let (parts, rest) ← keyParts? bound rest
      return (part :: parts, rest)
    | rest => return ([part], rest)

/-- Nesting deeper than this is refused. -/
def nestingLimit : Nat := 80

/-- A key: the parts before the last one, and the last one. -/
def key? (cs : List Char) : Option ((List String × String) × List Char) := do
  let (parts, rest) ← keyParts? (nestingLimit - 1) cs
  return ((parts.dropLast, ← parts.getLast?), rest)

end Termwise.Toml
