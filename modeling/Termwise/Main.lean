import Termwise.CommandLine

/-!
# Termwise.Main

The program: it reads the arguments, the environment and the file of settings, and
writes what `Command.run` gives.
-/

namespace Termwise

/-- Why a file cannot be read. -/
def unreadableReason : IO.Error → String
  | .noFileOrDirectory _ _ _ => "No such file or directory (os error 2)"
  | e => toString e

end Termwise

open Termwise in
/-- Run the program. -/
def main (args : List String) : IO UInt32 := do
  let command := Command.parse args
  let file ← match Command.file? command with
    | some path =>
      try .ok <$> IO.FS.readFile path
      catch e => pure (.error (unreadableReason e))
    | none => pure (.ok "")
  let values ← Config.overrides.mapM fun v => return (v.1, ← IO.getEnv v.1)
  let outcome := Command.run command (fun name => (values.lookup name).join) file
  IO.print outcome.out
  IO.eprint outcome.err
  return outcome.code.toUInt32
