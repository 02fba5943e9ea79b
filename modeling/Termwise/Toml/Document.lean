import Termwise.Toml.Number

/-!
# Termwise.Toml.Document

Reading TOML documents:

```text
document   lines, each with a line end; the last one may do without
line       nothing, key = value, [key] or [[key]], and perhaps a comment
value      string, number, date, true, false, [value, ...] or { key = value, ... }
```

Arrays and inline tables nest less than `nestingLimit` deep.
-/

namespace Termwise.Toml

/-! ## values -/

mutual

/-- A value inside so many arrays and inline tables; `fuel` bounds the number of readers at work,
twice the length of the text being enough. -/
def value? (fuel depth : Nat) (cs : List Char) : Option (Value × List Char) :=
  match fuel with
  | 0 => none
  | fuel + 1 =>
    match cs with
    | '"' :: _ | '\'' :: _ => (string? cs).map fun (s, rest) => (.text s, rest)
    | '[' :: rest =>
      if depth + 1 < nestingLimit then
        (items? fuel (depth + 1) (skipSpace rest)).map fun (vs, rest) => (.array vs, rest)
      else none
    | '\x7b' :: rest =>
      if depth + 1 < nestingLimit then
        match skipBlanks rest with
        | '\x7d' :: rest => some (.table .inline [], rest)
        | rest => pairs? fuel (depth + 1) (.table .inline []) rest
      else none
    | 't' :: 'r' :: 'u' :: 'e' :: rest => some (.boolean true, rest)
    | 'f' :: 'a' :: 'l' :: 's' :: 'e' :: rest => some (.boolean false, rest)
    | _ => (time? cs).or (number? cs)

/-- The items of an array up to its closing bracket; space before the next item is skipped
already. -/
def items? (fuel depth : Nat) (cs : List Char) : Option (List Value × List Char) :=
  match fuel with
  | 0 => none
  | fuel + 1 =>
    match cs with
    | ']' :: rest => some ([], rest)
    | _ => do
      let (v, rest) ← value? fuel depth cs
      match skipSpace rest with
      | ',' :: rest => do
        let (vs, rest) ← items? fuel depth (skipSpace rest)
        return (v :: vs, rest)
      | ']' :: rest => return ([v], rest)
      | _ => none

/-- The pairs of an inline table up to its closing brace, put into a table. -/
def pairs? (fuel depth : Nat) (t : Value) (cs : List Char) : Option (Value × List Char) :=
  match fuel with
  | 0 => none
  | fuel + 1 => do
    let ((path, key), rest) ← key? cs
    let (v, rest) ← value? fuel depth (skipBlanks (← mark? '=' rest))
    let t ← Value.insertAt path key v t
    match skipBlanks rest with
    | ',' :: rest => pairs? fuel depth t rest
    | '\x7d' :: rest => return (t, rest)
    | _ => none

end

/-! ## lines -/

/-- A document read in part. -/
structure Draft where
  /-- All tables so far. -/
  root : Value
  /-- Where the pairs of the next lines go. -/
  path : List String

namespace Draft

/-- The document without lines. -/
def empty : Draft := ⟨.table .header [], []⟩

/-- Add a pair to the table of the last header. -/
def insert (d : Draft) (path : List String) (key : String) (v : Value) : Option Draft := do
  return { d with root := ← d.root.changeAt false (Value.insertAt path key v) d.path }

/-- Read a header after its brackets. -/
def header (d : Draft) (isElement : Bool) (cs : List Char) : Option (Draft × List Char) := do
  let ((path, key), rest) ← key? cs
  let rest ← mark? ']' rest
  let rest ← if isElement then mark? ']' rest else some rest
  let root ← if isElement then d.root.openElement path key else d.root.openTable path key
  return (⟨root, path ++ [key]⟩, ← endOfLine? rest)

/-- Read a line; blanks in front of it are skipped already. -/
def line (d : Draft) (cs : List Char) : Option (Draft × List Char) :=
  match cs with
  | '[' :: '[' :: rest => d.header true rest
  | '[' :: rest => d.header false rest
  | '#' :: _ | '\n' :: _ | '\r' :: _ => (endOfLine? cs).map fun rest => (d, rest)
  | _ => do
    let ((path, key), rest) ← key? cs
    let (v, rest) ← value? (2 * cs.length) 0 (skipBlanks (← mark? '=' rest))
    return (← d.insert path key v, ← endOfLine? rest)

/-- Read all lines, at most so many. -/
def lines (d : Draft) : Nat → List Char → Option Draft
  | 0, _ => none
  | bound + 1, cs =>
    match skipBlanks cs with
    | [] => some d
    | cs => do
      let (d, rest) ← d.line cs
      d.lines bound rest

end Draft

/-- The table that a document stands for.  A byte order mark in front is skipped. -/
def parse? (text : String) : Option Value :=
  let cs := match text.toList with
    | c :: rest => if c.toNat = 0xFEFF then rest else c :: rest
    | [] => []
  (Draft.empty.lines (cs.length + 1) cs).map (·.root)

end Termwise.Toml
