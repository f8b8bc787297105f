import DeclSurface.FlagSet
import DeclSurface.Text.Blank

/-!
# Compiler flags

A build system hands flags over as one text, `-DMODULE_GCOAP -DLEVEL=2 -UDEBUG`. It is split
into arguments as a shell would split it, and the arguments that define or undefine a name
are picked out.

* `splitArgs`          — arguments, with quotes and backslashes resolved.
* `FlagMention`        — one definition or undefinition.
* `mentionsOfArgs`     — those among a list of arguments.
* `FlagSet.ofCompilerFlags`, `FlagSet.extend` — the flags they leave enabled.
-/

namespace DeclSurface

/-! ## Arguments -/

/-- The quotes that the text stands in. -/
inductive Quoting where
  | bare
  | single
  | double
deriving DecidableEq, Repr

/-- The argument that ends here, if one has begun. -/
def closeArg (current : Option (List Char)) : List String :=
  match current with
  | none => []
  | some cs => [String.ofList cs]

/-- The argument after one more character. -/
def pushArg (current : Option (List Char)) (c : Char) : Option (List Char) :=
  some (current.getD [] ++ [c])

/--
The arguments of the remaining characters. `current` is what has been read of an argument
that has begun, and `escaped` says that a backslash stands before the next character. Inside
single quotes a backslash is an ordinary character; an argument whose quotes are never closed
ends with the text.
-/
def splitFrom (quoting : Quoting) (escaped : Bool) (current : Option (List Char)) :
    List Char → List String
  | [] => closeArg current
  | c :: cs =>
    if escaped then splitFrom quoting false (pushArg current c) cs
    else match quoting with
      | .single =>
        if c = '\'' then splitFrom .bare false current cs
        else splitFrom .single false (pushArg current c) cs
      | .double =>
        if c = '"' then splitFrom .bare false current cs
        else if c = '\\' then splitFrom .double true (some (current.getD [])) cs
        else splitFrom .double false (pushArg current c) cs
      | .bare =>
        if c = '\\' then splitFrom .bare true (some (current.getD [])) cs
        else if c = '\'' then splitFrom .single false (some (current.getD [])) cs
        else if c = '"' then splitFrom .double false (some (current.getD [])) cs
        else if Text.isBlank c then closeArg current ++ splitFrom .bare false none cs
        else splitFrom .bare false (pushArg current c) cs

/-- The arguments of a text. -/
def splitArgs (s : String) : List String :=
  splitFrom .bare false none s.toList

example : splitArgs "-DA '-DB=x y' -DC=\"\\\"\"" = ["-DA", "-DB=x y", "-DC=\""] := by
  decide +kernel

/-! ## Definitions -/

/-- One mention of a flag on a command line. -/
inductive FlagMention where
  /-- `-DNAME` or `-DNAME=value`. -/
  | define (name : String) (value : Option String)
  /-- `-UNAME`. -/
  | undefine (name : String)
deriving DecidableEq, Repr

namespace FlagMention

/-- Which mention an argument makes. -/
inductive Kind where
  | define
  | undefine
deriving DecidableEq, Repr

/-- The kind of mention that an argument makes, with what follows its marker. -/
def Kind.ofArg : List Char → Option (Kind × List Char)
  | '-' :: 'D' :: rest => some (.define, rest)
  | '/' :: 'D' :: rest => some (.define, rest)
  | '-' :: 'U' :: rest => some (.undefine, rest)
  | _ => none

/-- A definition as it is written after its marker; one without a name counts for nothing. -/
def ofDefinition (cs : List Char) : List FlagMention :=
  let name := cs.takeWhile (· != '=')
  if name.isEmpty then []
  else match cs.dropWhile (· != '=') with
    | [] => [define (String.ofList name) none]
    | _ :: value => [define (String.ofList name) (some (String.ofList value))]

/-- The mention that the text after a marker makes. -/
def ofText (kind : Kind) (cs : List Char) : List FlagMention :=
  match kind with
  | .define => ofDefinition cs
  | .undefine => if cs.isEmpty then [] else [undefine (String.ofList cs)]

end FlagMention

/--
The mentions among a list of arguments, in order. A marker on its own takes the next
argument, whatever that looks like; one at the very end is ignored, as is every argument
without a marker.
-/
def mentionsOfArgs : List String → List FlagMention
  | [] => []
  | arg :: args =>
    match FlagMention.Kind.ofArg arg.toList with
    | none => mentionsOfArgs args
    | some (kind, []) =>
      match args with
      | [] => []
      | next :: rest => FlagMention.ofText kind next.toList ++ mentionsOfArgs rest
    | some (kind, c :: cs) => FlagMention.ofText kind (c :: cs) ++ mentionsOfArgs args

namespace FlagSet

/-- The set after one mention. -/
def apply (s : FlagSet) : FlagMention → FlagSet
  | .define name none => s.enable name
  | .define name (some value) => s.enableWithValue name value
  | .undefine name => s.disable name

/-- The set after all mentions of a compiler flags text, in order. -/
def extend (s : FlagSet) (text : String) : FlagSet :=
  (mentionsOfArgs (splitArgs text)).foldl apply s

/-- The flags that a compiler flags text leaves enabled. -/
def ofCompilerFlags (text : String) : FlagSet :=
  empty.extend text

end FlagSet

end DeclSurface
