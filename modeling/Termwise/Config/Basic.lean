/-!
# Termwise.Config.Basic

Limits and knobs of a kernel.
-/

namespace Termwise

/-- How a host logs. -/
structure LoggingConfig where
  /-- Which events are logged. -/
  filter : String := "warn"
  /-- Whether the log is coloured. -/
  ansi : Bool := true
deriving DecidableEq, Repr

/-- Limits and knobs of a kernel. -/
structure Config where
  /-- Nesting depth of evaluation before `General::reclim`. -/
  maxRecursion : Nat := 256
  /-- Rewrites of one term before `General::itlim`. -/
  maxIterations : Nat := 4096
  /-- Number of workers; 0 stands for one for each processor. -/
  workerThreads : Nat := 0
  /-- Steps of a search between two looks for an abort. -/
  pollInterval : Nat := 256
  /-- How the host logs. -/
  logging : LoggingConfig := {}
deriving DecidableEq, Repr

instance : Inhabited Config := ⟨{}⟩

end Termwise
