/-!
# Termwise.Toml.Value

Values of a TOML document.  A table remembers how it came about, because that decides
how it may be extended later:

```text
inline     { a = 1 }            closed
header     [a]                  once; by headers of sub-tables, not by dotted keys
implied    [a.b] makes a        by its own header, once
dotted     a.b = 1 makes a      by further dotted keys and by headers of sub-tables
```
-/

namespace Termwise.Toml

/-- How a table came about. -/
inductive TableKind where
  | inline | header | implied | dotted
deriving DecidableEq, Repr

/-- A value. -/
inductive Value where
  | text (s : String)
  | integer (n : Int)
  | float
  | boolean (b : Bool)
  | time
  | array (items : List Value)
  | table (kind : TableKind) (entries : List (String × Value))
  | tables (elements : List Value)

namespace Value

/-! ## tables -/

/-- The value of a key. -/
def get? (t : Value) (key : String) : Option Value :=
  match t with
  | table _ entries => entries.lookup key
  | _ => none

/-- Entries with the value of a key put in its place, or added at the end. -/
def put (key : String) (v : Value) : List (String × Value) → List (String × Value)
  | [] => [(key, v)]
  | (k, w) :: rest => if k = key then (k, v) :: rest else (k, w) :: put key v rest

/-- The last of several tables changed. -/
def mapLast (f : Value → Option Value) : List Value → Option (List Value)
  | [] => none
  | [v] => (f v).map ([·])
  | v :: rest => (mapLast f rest).map (v :: ·)

/-- Change the table at the end of a path, making tables on the way.  Dotted keys do not pass
through tables with a header; nothing passes through closed tables. -/
def changeAt (isDotted : Bool) (f : Value → Option Value) : List String → Value → Option Value
  | [], t => f t
  | key :: path, table kind entries => do
    let next := changeAt isDotted f path
    let changed ←
      match entries.lookup key with
      | none => next (table (if isDotted then .dotted else .implied) [])
      | some (tables elements) => tables <$> mapLast next elements
      | some (table .inline _) => none
      | some (table .header es) => if isDotted then none else next (table .header es)
      | some (table k es) => next (table k es)
      | some _ => none
    return table kind (put key changed entries)
  | _, _ => none

/-! ## changes -/

/-- Add a new key to a table.  A key path of one part goes into a table that was not made by dotted
keys, a longer one into a table that was. -/
def insertAt (path : List String) (key : String) (v : Value) : Value → Option Value :=
  changeAt true (fun t =>
    match t with
    | table kind entries =>
      if (kind == .dotted) == path.isEmpty || (entries.lookup key).isSome then none
      else some (table kind (entries ++ [(key, v)]))
    | _ => none) path

/-- Make a table by a header. -/
def openTable (path : List String) (key : String) : Value → Option Value :=
  changeAt false (fun t =>
    match t with
    | table kind entries =>
      match entries.lookup key with
      | none => some (table kind (put key (table .header []) entries))
      | some (table .implied es) => some (table kind (put key (table .header es) entries))
      | some _ => none
    | _ => none) path

/-- Add an element to an array of tables by a header. -/
def openElement (path : List String) (key : String) : Value → Option Value :=
  changeAt false (fun t =>
    match t with
    | table kind entries =>
      match entries.lookup key with
      | none => some (table kind (put key (tables [table .header []]) entries))
      | some (tables elements) =>
        some (table kind (put key (tables (elements ++ [table .header []])) entries))
      | some _ => none
    | _ => none) path

end Value

end Termwise.Toml
