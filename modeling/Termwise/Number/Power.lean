/-!
# Termwise.Number.Power

Powers with natural exponents are those of the core library wherever this module is
imported, also beside libraries that bring powers of their own; so one text means one
power in every module.
-/

namespace Termwise

/-- The power of the core library. -/
instance (priority := 20000) powNat {α : Type} [NatPow α] : Pow α Nat := instPowNat

attribute [default_instance 20000] powNat

end Termwise
