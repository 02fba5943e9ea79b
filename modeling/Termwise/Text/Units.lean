/-!
# Termwise.Text.Units

Text as 16-bit code units:

```text
character below U+10000   one unit, its code point
any other character       a high unit D800..DBFF, then a low unit DC00..DFFF
```

A unit sequence need not come from text: a high unit without its low unit, or a
low unit alone, is a *lone surrogate*.  `decode` keeps those apart from the
characters, so nothing is lost on the way to a printer.
-/

namespace Termwise.Text.Units

/-! ## encoding -/

/-- The code units of one character. -/
def ofChar (c : Char) : List UInt16 :=
  if c.toNat < 0x10000 then [c.toNat.toUInt16]
  else
    let rest := c.toNat - 0x10000
    [(0xD800 + rest / 0x400).toUInt16, (0xDC00 + rest % 0x400).toUInt16]

/-- The code units of a text. -/
def ofString (s : String) : List UInt16 :=
  s.toList.flatMap ofChar

/-! ## decoding -/

/-- A piece of decoded text: a character, or a surrogate without its partner. -/
inductive Piece where
  | char (c : Char)
  | lone (unit : UInt16)
deriving DecidableEq, Repr

/-- Whether a unit opens a surrogate pair. -/
def isHigh (u : UInt16) : Bool := 0xD800 ≤ u && u ≤ 0xDBFF

/-- Whether a unit closes a surrogate pair. -/
def isLow (u : UInt16) : Bool := 0xDC00 ≤ u && u ≤ 0xDFFF

/-- The character that a surrogate pair stands for. -/
def pair (high low : UInt16) : Char :=
  Char.ofNat (0x10000 + (high.toNat - 0xD800) * 0x400 + (low.toNat - 0xDC00))

/-- Decode units left to right; a surrogate without its partner stays a lone unit. -/
def decode : List UInt16 → List Piece
  | [] => []
  | [u] => [if isHigh u || isLow u then .lone u else .char (Char.ofNat u.toNat)]
  | u :: v :: rest =>
    if isHigh u then
      if isLow v then .char (pair u v) :: decode rest
      else .lone u :: decode (v :: rest)
    else if isLow u then .lone u :: decode (v :: rest)
    else .char (Char.ofNat u.toNat) :: decode (v :: rest)

/-- The character of a piece that is no lone surrogate. -/
def Piece.char? : Piece → Option Char
  | .char c => some c
  | .lone _ => none

/-- The character shown for a piece, U+FFFD for a lone surrogate. -/
def Piece.shown : Piece → Char
  | .char c => c
  | .lone _ => Char.ofNat 0xFFFD

/-- The text of a unit sequence that holds no lone surrogate. -/
def toString? (units : List UInt16) : Option String :=
  ((decode units).mapM Piece.char?).map String.ofList

/-- The text of a unit sequence, U+FFFD standing for each lone surrogate. -/
def toStringLossy (units : List UInt16) : String :=
  String.ofList ((decode units).map Piece.shown)

/-! ## order -/

/-- Unit sequences compare unit by unit, a proper start before its extension. -/
def compare : List UInt16 → List UInt16 → Ordering
  | [], [] => .eq
  | [], _ :: _ => .lt
  | _ :: _, [] => .gt
  | x :: xs, y :: ys => (Ord.compare x y).then (compare xs ys)

end Termwise.Text.Units
