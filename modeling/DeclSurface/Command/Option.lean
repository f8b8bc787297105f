/-!
# Command line options

The options that commands take, as they are written and with what may be given to them, and
how a list of arguments is read as options and operands.

* `OptionName`    — the options.
* `Given`         — the options and operands that were read.
* `Given.read?`   — reads arguments, unless an option is unknown, incomplete or repeated.
-/

namespace DeclSurface

/-! ## Options -/

/-- What an option is given. -/
inductive Argument where
  /-- Nothing: the option is a switch. -/
  | nothing
  /-- A text that does not look like an option, unless it is joined to this one. -/
  | text
  /-- Any text, also one that looks like an option. -/
  | anyText
  /-- A text that is not empty. -/
  | path
  /-- A whole number below 2^64. -/
  | count
deriving DecidableEq, Repr

/-- An option of some command. -/
inductive OptionName where
  | verbose
  | noColor
  | library
  | flag
  | cflags
  | configuration
  | format
  | output
  | all
  | noFingerprint
  | jobs
  | denyWarnings
  | evaluate
  | configurations
  | rewrites
deriving DecidableEq, Repr

namespace OptionName

/-- The long form of an option, after two dashes. -/
def long : OptionName → String
  | verbose => "verbose"
  | noColor => "no-color"
  | library => "library"
  | flag => "flag"
  | cflags => "cflags"
  | configuration => "configuration"
  | format => "format"
  | output => "output"
  | all => "all"
  | noFingerprint => "no-fingerprint"
  | jobs => "jobs"
  | denyWarnings => "deny-warnings"
  | evaluate => "eval"
  | configurations => "configurations"
  | rewrites => "rewrites"

/-- The short form of an option, after one dash. -/
def short? : OptionName → Option Char
  | verbose => some 'v'
  | flag => some 'D'
  | configuration => some 'c'
  | format => some 'f'
  | output => some 'o'
  | jobs => some 'j'
  | _ => none

/-- What an option is given. -/
def argument : OptionName → Argument
  | library => .path
  | flag => .text
  | cflags => .anyText
  | configuration => .text
  | format => .text
  | output => .path
  | jobs => .count
  | evaluate => .text
  | _ => .nothing

/-- Whether an option may be given more than once. -/
def repeats : OptionName → Bool
  | flag => true
  | _ => false

end OptionName

/-! ## Arguments -/

/-- The number that decimal digits denote, most significant first. -/
def countOfDigits (digits : List Char) : Nat :=
  digits.foldl (fun n c => 10 * n + (c.toNat - '0'.toNat)) 0

/-- Whether characters are a whole number below 2^64; a plus sign may stand before it. -/
def isCount (cs : List Char) : Bool :=
  let digits := if cs.head? = some '+' then cs.drop 1 else cs
  !digits.isEmpty && digits.all Char.isDigit && countOfDigits digits < Nat.pow 2 64

/-- Whether a text may be given to an option. -/
def Argument.accepts (a : Argument) (s : String) : Bool :=
  match a with
  | .path => s != ""
  | .count => isCount s.toList
  | _ => true

/-- An argument of the command line, taken by itself. -/
inductive Word where
  /-- An operand, or what is given to an option. -/
  | plain
  /-- Two dashes, after which there are only operands. -/
  | dashes
  /-- A long option, with what is joined to it by an equals sign. -/
  | long (name : String) (value : Option String)
  /-- Short options in a row, the last of which may be followed by its value. -/
  | short (letters : List Char)
deriving DecidableEq, Repr

/-- A long option as it is written after its dashes. -/
def Word.ofLong (cs : List Char) : Word :=
  let name := String.ofList (cs.takeWhile (· != '='))
  match cs.dropWhile (· != '=') with
  | [] => .long name none
  | _ :: value => .long name (some (String.ofList value))

/-- What an argument looks like. A single dash is an operand. -/
def Word.ofText (s : String) : Word :=
  match s.toList with
  | ['-', '-'] => .dashes
  | '-' :: '-' :: cs => .ofLong cs
  | '-' :: c :: cs => .short (c :: cs)
  | _ => .plain

/-! ## Reading -/

/-- The options and operands that were read. -/
structure Given where
  /-- The options with what was given to them, in order. -/
  options : List (OptionName × String) := []
  operands : List String := []
  /-- The arguments after the first operand, where that ends the options. -/
  rest : List String := []
deriving DecidableEq, Repr, Inhabited

namespace Given

/-- Whether an option was given. -/
def has (g : Given) (o : OptionName) : Bool :=
  g.options.any fun (p, _) => p = o

/-- What was given to an option, in order. -/
def values (g : Given) (o : OptionName) : List String :=
  (g.options.filter fun (p, _) => p = o).map (·.2)

/-- What was given to an option that is not repeated. -/
def value? (g : Given) (o : OptionName) : Option String :=
  (g.values o).head?

/-- One more option, if it takes what is given and has not been given already. -/
def give? (g : Given) (o : OptionName) (value : String) : Option Given :=
  if g.has o && !o.repeats then none
  else if o.argument.accepts value then some { g with options := g.options ++ [(o, value)] }
  else none

/-- One more operand. -/
def addOperand (g : Given) (s : String) : Given :=
  { g with operands := g.operands ++ [s] }

end Given

/-- What reading arguments has come to. -/
inductive Reading where
  /-- Options and operands may follow. -/
  | open_
  /-- The value of an option must follow. -/
  | awaiting (o : OptionName)
  /-- Only operands follow. -/
  | closed
deriving DecidableEq, Repr

/-- Short options in a row, among those that are known. -/
def readShort (known : List OptionName) (g : Given) : List Char → Option (Reading × Given)
  | [] => some (.open_, g)
  | c :: cs =>
    match known.find? fun o => o.short? = some c with
    | none => none
    | some o =>
      if o.argument = .nothing then do
        let g ← g.give? o ""
        readShort known g cs
      else match cs with
        | [] => some (.awaiting o, g)
        | '=' :: value => (g.give? o (String.ofList value)).map fun g => (.open_, g)
        | value => (g.give? o (String.ofList value)).map fun g => (.open_, g)

/-- A long option among those that are known. -/
def readLong (known : List OptionName) (g : Given) (name : String) (value : Option String) :
    Option (Reading × Given) :=
  match known.find? fun o => o.long = name with
  | none => none
  | some o =>
    match value, o.argument with
    | none, .nothing => (g.give? o "").map fun g => (.open_, g)
    | some _, .nothing => none
    | none, _ => some (.awaiting o, g)
    | some value, _ => (g.give? o value).map fun g => (.open_, g)

namespace Given

/--
Reads arguments. With `stops`, the first operand ends the options: what follows it is left as
it is, and two dashes are refused.
-/
def readFrom (known : List OptionName) (stops : Bool) :
    Reading → Given → List String → Option Given
  | .awaiting _, _, [] => none
  | .open_, g, [] => some g
  | .closed, g, [] => some g
  | .closed, g, s :: ss => readFrom known stops .closed (g.addOperand s) ss
  | .awaiting o, g, s :: ss =>
    if o.argument = .anyText || Word.ofText s = .plain then do
      let g ← g.give? o s
      readFrom known stops .open_ g ss
    else none
  | .open_, g, s :: ss =>
    match Word.ofText s with
    | .plain =>
      if stops then some { g.addOperand s with rest := ss }
      else readFrom known stops .open_ (g.addOperand s) ss
    | .dashes => if stops then none else readFrom known stops .closed g ss
    | .long name value => do
      let (r, g) ← readLong known g name value
      readFrom known stops r g ss
    | .short letters => do
      let (r, g) ← readShort known g letters
      readFrom known stops r g ss

/-- Reads arguments, in which options are among those that are known. -/
def read? (known : List OptionName) (stops : Bool) (args : List String) : Option Given :=
  readFrom known stops .open_ {} args

end Given

end DeclSurface
