import Termwise.Kernel.State

/-!
# Termwise.Kernel.SymbolTable

The registry of a kernel.  A name stands for at most one symbol; it is *found or
made* on request.  A removed symbol loses its name and its definitions for good and
stays an atom wherever terms still hold it, and its name can be taken again by a new
symbol.

A new kernel knows the symbols of `Symbol.system`, five of them with native code.
-/

namespace Termwise

/-! ## new kernels -/

/-- The native code that a symbol of the evaluator starts with. -/
def Symbol.initialCode (s : Symbol) : NativeSlots :=
  if s = .raise then { down := some .raise }
  else if s = .capture then { down := some .capture }
  else if s = .gather then { down := some .gather }
  else if s = .emit then { down := some .emit }
  else if s = .evaluate then { down := some .release }
  else {}

namespace Kernel

/-- A kernel that knows the symbols of the evaluator only. -/
def new (config : Config) : Kernel where
  config := config
  symbols := (Symbol.system.map fun s =>
    { name := s.name, attributes := s.initialAttributes, code := s.initialCode }).toArray
  registry := Symbol.system.map fun s => (s.name, s)
  contexts := #[]
  aborting := false
  messages := []
  generation := 1
  structureEpoch := 1
  stamps := #[0]
  frames := 0
  clock := 0

/-! ## names -/

/-- The symbol that a name stands for. -/
def lookup? (k : Kernel) (name : String) : Option Symbol := k.registry.lookup name

/-- Make a symbol and let its name stand for it. -/
def addSymbol (k : Kernel) (name : String) : Kernel :=
  { k with
    symbols := k.symbols.push { name := name }
    registry := (name, ⟨k.symbols.size, name⟩) :: k.registry }

/-- The symbol that a name stands for, made if there is none. -/
def intern (k : Kernel) (name : String) : Symbol × Kernel :=
  match k.lookup? name with
  | some s => (s, k)
  | none => (⟨k.symbols.size, name⟩, k.addSymbol name)

/-- Whether a symbol is the one that its name stands for. -/
def isRegistered (k : Kernel) (s : Symbol) : Bool := k.lookup? s.name == some s

/-- The names that stand for symbols, sorted. -/
def names (k : Kernel) : List String := (k.registry.map (·.1)).mergeSort

/-- Let a name stand for nothing. -/
def unregister (k : Kernel) (name : String) : Kernel :=
  { k with registry := k.registry.filter (·.1 != name) }

/-- Mark a symbol as removed and drop its definitions. -/
def markRemoved (k : Kernel) (s : Symbol) : Kernel :=
  (k.updateRecord s fun r => { name := r.name, removed := true }).bump

/-- Remove a symbol with all its definitions; the flag tells whether its name stood for it. -/
def remove (k : Kernel) (s : Symbol) : Bool × Kernel :=
  if k.isRegistered s then (true, (k.unregister s.name).markRemoved s) else (false, k)

end Kernel

/-! ## actions -/

/-- The symbol that a name stands for, made if there is none. -/
def intern (name : String) : EvalM Symbol := modifyGet fun k => k.intern name

/-- Remove a symbol; the result tells whether its name stood for it. -/
def remove (s : Symbol) : EvalM Bool := modifyGet fun k => k.remove s

end Termwise
