import DeclSurface.Command.Option
import DeclSurface.Files.Path

/-!
# Invocations

What a command line asks for. General options may stand before and after the name of the
command.

* `Command`             — the commands with what they are given.
* `Invocation`          — a command with the general options.
* `Invocation.parse?`   — reads a command line, unless it is used wrongly.
-/

namespace DeclSurface

/-! ## Commands -/

/-- Where flags come from on a command line, and what is composed. -/
structure FlagRequest where
  /-- Flags, some with a value after an equals sign. -/
  flags : List String := []
  /-- Compiler flags. -/
  compilerFlags : Option String := none
  /-- The name of a configuration. -/
  configuration : Option String := none
deriving DecidableEq, Repr, Inhabited

/-- Where surfaces are written. -/
inductive Destination where
  /-- The surface is shown. -/
  | shown
  /-- The surface goes to a file. -/
  | file (p : Path)
  /-- The surfaces for all configurations go to files in a directory. -/
  | allInto (dir : Path)
deriving DecidableEq, Repr

/-- What is listed of a library. -/
inductive ListSubject where
  | fragments
  | rewrites
  | configurations
deriving DecidableEq, Repr

/-- A command. -/
inductive Command where
  /-- Composes a library. -/
  | compose (flags : FlagRequest) (format : Option String) (destination : Destination)
      (fingerprint : Bool)
  /-- Checks a library. -/
  | check (denyWarnings : Bool)
  /-- Explains a fragment. -/
  | explain (fragment : String) (flags : FlagRequest)
  /-- Shows the flags in effect, or the value of a gate under them. -/
  | flags (flags : FlagRequest) (gate : Option String)
  /-- Lists what is in a library. -/
  | list (subject : ListSubject)
deriving DecidableEq, Repr

/-- A command with the general options. -/
structure Invocation where
  /-- Whether messages are coloured. -/
  color : Bool
  /-- The library that is meant, or the directory it lies in. -/
  library : Option Path
  command : Command
deriving DecidableEq, Repr

/-- The variables that stand in for options. -/
structure Environment where
  library : Option String := none
  compilerFlags : Option String := none
deriving DecidableEq, Repr, Inhabited

/-! ## Reading -/

/-- The options that every command takes. Nothing is logged, so `verbose` changes nothing. -/
def generalOptions : List OptionName :=
  [.verbose, .noColor, .library]

/-- The options that give flags. -/
def flagOptions : List OptionName :=
  [.flag, .cflags, .configuration]

namespace FlagRequest

/-- The flags that were given; compiler flags may come from the environment. -/
def ofGiven (env : Environment) (g : Given) : FlagRequest :=
  { flags := g.values .flag
    compilerFlags := g.value? .cflags <|> env.compilerFlags
    configuration := g.value? .configuration }

end FlagRequest

/-- Where surfaces go; all of them need a directory, and leave no choice of a configuration. -/
def Destination.ofGiven? (g : Given) : Option Destination :=
  match g.has .all, g.value? .output with
  | true, some dir => if g.has .configuration then none else some (.allInto ⟨dir⟩)
  | true, none => none
  | false, some p => some (.file ⟨p⟩)
  | false, none => some .shown

/-- What is listed; only one kind at a time. -/
def ListSubject.ofGiven? (g : Given) : Option ListSubject :=
  match g.has .configurations, g.has .rewrites with
  | true, true => none
  | true, false => some .configurations
  | false, true => some .rewrites
  | false, false => some .fragments

namespace Command

/-- The options of a command by its name, apart from the general ones. -/
def optionsOf? (name : String) : Option (List OptionName) :=
  if name = "compose" then
    some (flagOptions ++ [.format, .output, .all, .noFingerprint, .jobs])
  else if name = "check" then some [.denyWarnings]
  else if name = "explain" then some flagOptions
  else if name = "flags" then some (flagOptions ++ [.evaluate])
  else if name = "list" then some [.configurations, .rewrites]
  else none

/-- The command of a name with what was given to it. Only `explain` takes an operand. -/
def ofGiven? (env : Environment) (name : String) (g : Given) : Option Command :=
  let flags := FlagRequest.ofGiven env g
  match g.operands with
  | [fragment] => if name = "explain" then some (.explain fragment flags) else none
  | [] =>
    if name = "compose" then do
      let destination ← Destination.ofGiven? g
      some (.compose flags (g.value? .format) destination (!g.has .noFingerprint))
    else if name = "check" then some (.check (g.has .denyWarnings))
    else if name = "flags" then some (.flags flags (g.value? .evaluate))
    else if name = "list" then (ListSubject.ofGiven? g).map .list
    else none
  | _ => none

end Command

namespace Invocation

/--
The library that is meant: as given after the name of the command, before it, or by the
environment. An empty text names none, and is refused wherever it could have counted.
-/
def library? (env : Environment) (before after : Given) : Option (Option Path) :=
  match before.value? .library, after.value? .library with
  | some _, some p => some (some ⟨p⟩)
  | some p, none => if env.library = some "" then none else some (some ⟨p⟩)
  | none, some p => if env.library = some "" then none else some (some ⟨p⟩)
  | none, none => if env.library = some "" then none else some (env.library.map Path.mk)

/-- What a command line asks for, unless it is used wrongly. -/
def parse? (env : Environment) (args : List String) : Option Invocation := do
  let before ← Given.read? generalOptions true args
  let name ← before.operands.head?
  let options ← Command.optionsOf? name
  let after ← Given.read? (generalOptions ++ options) false before.rest
  let library ← library? env before after
  let command ← Command.ofGiven? env name after
  some { color := !(before.has .noColor || after.has .noColor), library, command }

end Invocation

end DeclSurface
