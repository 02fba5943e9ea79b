import Termwise.Config.Read
import Termwise.Demo
import Termwise.Host.Arithmetic

/-!
# Termwise.CommandLine

The command line: it runs demos, or tells what there is to run.  What the arguments ask
for (`Command.parse`) and what comes of it (`Command.run`) are functions; reading the
arguments, the environment and the file of settings is left to the caller.
-/

namespace Termwise

/-! ## commands -/

/-- What a command line asks for. -/
inductive Command where
  /-- Tell how the program is used. -/
  | help
  /-- Tell the version. -/
  | version
  /-- List the demos. -/
  | list
  /-- Run demos, all of them if none is named, with settings from a file if one is named. -/
  | demos (config : Option String) (names : List String)
deriving DecidableEq, Repr

namespace Command

/-- The program's version. -/
def currentVersion : String := "0.1.0"

/-- Read arguments from left to right.  The first one that asks for information, or is not
understood, ends the reading. -/
def parseFrom (config : Option String) (names : List String) : List String → Except String Command
  | [] => .ok (.demos config names)
  | arg :: rest =>
    if arg = "-h" ∨ arg = "--help" then .ok .help
    else if arg = "-v" ∨ arg = "--version" then .ok .version
    else if arg = "-l" ∨ arg = "--list" then .ok .list
    else if arg = "-c" ∨ arg = "--config" then
      match rest with
      | file :: rest => parseFrom (some file) names rest
      | [] => .error "Missing file after --config"
    else if arg.startsWith "-" then .error ("Unknown option: " ++ arg)
    else if (Demo.named? arg).isNone then .error ("Unknown demo: " ++ arg)
    else parseFrom config (names ++ [arg]) rest

/-- Read the arguments of the program. -/
def parse (args : List String) : Except String Command := parseFrom none [] args

end Command

/-! ## output -/

/-- What a run of the program gives. -/
structure Outcome where
  /-- The exit code. -/
  code : Nat := 0
  /-- Standard output. -/
  out : String := ""
  /-- Standard error. -/
  err : String := ""
deriving DecidableEq, Repr

/-- A text with a line end. -/
def textLine (s : String) : String := s ++ "\n"

/-- The line of a demo in a list: its name in a column of twelve, and what it shows. -/
def Demo.listing (d : Demo) : String :=
  d.name ++ String.ofList (List.replicate (12 - d.name.length) ' ') ++ " " ++ d.about

/-- How the program is used. -/
def usage : String :=
  String.join <| List.map textLine <|
    ["pmath-core v" ++ Command.currentVersion,
      "",
      "USAGE:",
      "    pmath-core [OPTIONS] [DEMO...]",
      "",
      "OPTIONS:",
      "    -h, --help             Print this help message",
      "    -v, --version          Print version information",
      "    -c, --config <FILE>    Load evaluator settings from a TOML file",
      "    -l, --list             List the available demos",
      "",
      "DEMOS:"]
    ++ Demo.all.map (fun d => "    " ++ d.listing)
    ++ ["",
      "Without DEMO arguments every demo runs. Set PMATH_LOG=pmath_core=debug for tracing."]

/-! ## running -/

/-- Run demos one after the other in a context. -/
def runDemos (c : ContextId) : List Demo → Kernel → Outcome
  | [], _ => {}
  | d :: ds, k =>
    let title := textLine ("== " ++ d.name ++ " (" ++ d.about ++ ")")
    let (result, k) := (d.run c).run k
    let rest := runDemos c ds k
    match result with
    | .ok lines =>
      let shown := lines.map fun l => textLine ("  " ++ l.1 ++ "  =>  " ++ l.2.toText)
      { rest with out := title ++ String.join shown ++ rest.out }
    | .error e =>
      { code := 1, out := title ++ rest.out
        err := textLine ("  Error: " ++ e.message) ++ rest.err }

/-- Run the named demos, or all of them, in a new kernel with arithmetic. -/
def runNamed (config : Config) (names : List String) : Outcome :=
  let chosen := Demo.all.filter fun d => names.isEmpty || names.contains d.name
  let (result, k) := Host.installArithmetic.run (Kernel.new config)
  match result with
  | .error e => { code := 1, err := textLine ("Error: " ++ e.message) }
  | .ok () =>
    let (c, k) := k.newRoot
    runDemos c chosen k

namespace Command

/-- The file that a command needs. -/
def file? : Except String Command → Option String
  | .ok (.demos config _) => config
  | _ => none

/-- What comes of a command, or of arguments that were not understood; `file` is the text of the
file that the command needs, or why it cannot be read. -/
def run (command : Except String Command) (env : String → Option String)
    (file : Except String String) : Outcome :=
  match command with
  | .error e => { code := 1, err := textLine ("Error: " ++ e) ++ textLine "" ++ usage }
  | .ok .help => { err := usage }
  | .ok .version => { out := textLine ("pmath-core " ++ currentVersion) }
  | .ok .list => { out := String.join (Demo.all.map fun d => textLine d.listing) }
  | .ok (.demos config names) =>
    match settings config with
    | .error e => { code := 1, err := textLine ("Error: " ++ e.message) }
    | .ok config => runNamed config names
where
  /-- The settings from the file, if there is one, and the environment. -/
  settings (config : Option String) : Except ConfigError Config := do
    match config, file with
    | none, _ => Config.override {} env
    | some _, .error reason => .error (.unreadable reason)
    | some _, .ok text => (← Config.ofToml text).override env

end Command

end Termwise
