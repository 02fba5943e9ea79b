import Termwise.Config.Basic
import Termwise.Text.Escaped
import Termwise.Toml.Document

/-!
# Termwise.Config.Read

Settings come from three layers, later ones winning: the defaults, a TOML document, and
variables of the environment.

```text
max_recursion = 256            PMATH_MAX_RECURSION
max_iterations = 4096          PMATH_MAX_ITERATIONS
worker_threads = 0             PMATH_WORKER_THREADS
abort_poll_interval = 256

[logging]
filter = "warn"
ansi = true
```

Unknown keys are ignored.  All counts but `worker_threads` have to be positive.
-/

namespace Termwise

/-! ## errors -/

/-- Why there are no settings. -/
inductive ConfigError where
  /-- The document could not be read. -/
  | unreadable (reason : String)
  /-- The document is not valid, or a value in it has the wrong type. -/
  | malformed
  /-- A setting has a value that cannot be used. -/
  | invalidValue (key value : String)
deriving DecidableEq, Repr

/-- The text of the error. -/
def ConfigError.message : ConfigError → String
  | unreadable reason => "cannot read config: " ++ reason
  | malformed => "invalid config: not a valid document for these settings"
  | invalidValue key value => "invalid value " ++ Text.Escaped.ofString value ++ " for " ++ key

namespace Config

/-! ## documents -/

/-- A count, or its default. -/
def count? (default : Nat) : Option Toml.Value → Option Nat
  | none => some default
  | some (.integer n) => if 0 ≤ n then some n.toNat else none
  | some _ => none

/-- A text, or its default. -/
def text? (default : String) : Option Toml.Value → Option String
  | none => some default
  | some (.text s) => some s
  | some _ => none

/-- A truth value, or its default. -/
def boolean? (default : Bool) : Option Toml.Value → Option Bool
  | none => some default
  | some (.boolean b) => some b
  | some _ => none

/-- Settings for the log: a table, or an array of the values in order.  A date counts as a table
without known keys. -/
def logging? : Option Toml.Value → Option LoggingConfig
  | none | some .time => some {}
  | some (.array items) => fields items[0]? items[1]?
  | some (.table kind entries) =>
    let t := Toml.Value.table kind entries
    fields (t.get? "filter") (t.get? "ansi")
  | some _ => none
where
  /-- Settings from their values. -/
  fields (filter ansi : Option Toml.Value) : Option LoggingConfig := do
    let defaults : LoggingConfig := {}
    return { filter := ← text? defaults.filter filter, ansi := ← boolean? defaults.ansi ansi }

/-- Settings from the table of a document. -/
def ofTable? (t : Toml.Value) : Option Config := do
  let defaults : Config := {}
  return {
    maxRecursion := ← count? defaults.maxRecursion (t.get? "max_recursion")
    maxIterations := ← count? defaults.maxIterations (t.get? "max_iterations")
    workerThreads := ← count? defaults.workerThreads (t.get? "worker_threads")
    pollInterval := ← count? defaults.pollInterval (t.get? "abort_poll_interval")
    logging := ← logging? (t.get? "logging") }

/-! ## checks -/

/-- Refuse settings with a zero where a positive count is needed. -/
def validate (c : Config) : Except ConfigError Config :=
  let positive := [("max_recursion", c.maxRecursion), ("max_iterations", c.maxIterations),
    ("abort_poll_interval", c.pollInterval)]
  match positive.find? (·.2 == 0) with
  | some (key, _) => .error (.invalidValue key "0")
  | none => .ok c

/-- Settings from a TOML document. -/
def ofToml (text : String) : Except ConfigError Config :=
  match (Toml.parse? text).bind ofTable? with
  | some c => c.validate
  | none => .error .malformed

/-! ## environment -/

/-- Whether a character is white space. -/
def isSpace (c : Char) : Bool :=
  let n := c.toNat
  (0x9 ≤ n && n ≤ 0xD) || n == 0x20 || n == 0x85 || n == 0xA0 || n == 0x1680
    || (0x2000 ≤ n && n ≤ 0x200A) || n == 0x2028 || n == 0x2029 || n == 0x202F || n == 0x205F
    || n == 0x3000

/-- Characters without white space at the ends. -/
def trim (cs : List Char) : List Char :=
  ((cs.dropWhile isSpace).reverse.dropWhile isSpace).reverse

/-- The count that a variable stands for: decimal digits, a plus sign in front allowed, with white
space around; below 2^64. -/
def ofVariable? (value : String) : Option Nat :=
  let digits := match trim value.toList with
    | '+' :: rest => rest
    | cs => cs
  let n := digits.foldl (fun n c => 10 * n + (c.toNat - '0'.toNat)) 0
  if digits.isEmpty || !digits.all Char.isDigit || 2 ^ 64 ≤ n then none else some n

/-- The variables of the environment, and what they set. -/
def overrides : List (String × (Nat → Config → Config)) :=
  [("PMATH_MAX_RECURSION", fun n c => { c with maxRecursion := n }),
    ("PMATH_MAX_ITERATIONS", fun n c => { c with maxIterations := n }),
    ("PMATH_WORKER_THREADS", fun n c => { c with workerThreads := n })]

/-- Settings changed by the variables of an environment. -/
def override (c : Config) (env : String → Option String) : Except ConfigError Config := do
  let c ← overrides.foldlM (fun c (name, put) =>
    match env name with
    | none => .ok c
    | some value =>
      match ofVariable? value with
      | some n => .ok (put n c)
      | none => .error (.invalidValue name value)) c
  c.validate

end Config

end Termwise
