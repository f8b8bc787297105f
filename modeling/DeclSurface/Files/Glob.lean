import DeclSurface.Files.Tree

/-!
# File name patterns

A pattern is a path whose components may hold wildcards: `?` for a character, `*` for any
number of them, `[…]` for a character of a class, and `**` on its own for any number of
directories.

* `Glob.Pattern`       — a component of a pattern, `Glob.parse` reads one.
* `Glob.matchesAll`    — whether a name fits.
* `Disk.glob`          — the paths that fit a pattern.
* `Disk.filesMatching` — the files that fit any of several patterns, in order and each once.
-/

namespace DeclSurface

/-- Why a text is no pattern. -/
inductive GlobDefect where
  /-- More than two `*` in a row. -/
  | wildcards
  /-- A `**` beside other characters. -/
  | recursive
  /-- A `[` that is not closed. -/
  | range
deriving DecidableEq, Repr

/-- A defect of a pattern and the character at which it was found. -/
structure GlobError where
  position : Nat
  defect : GlobDefect
deriving DecidableEq, Repr

/-- The wording of a pattern error. -/
def GlobError.message (e : GlobError) : String :=
  "Pattern syntax error near position " ++ toString e.position ++ ": "
    ++ (match e.defect with
        | .wildcards => "wildcards are either regular `*` or recursive `**`"
        | .recursive => "recursive wildcards must form a single path component"
        | .range => "invalid range pattern")

namespace Glob

/-- A part of a pattern. -/
inductive Token where
  | char (c : Char)
  | anyChar
  | anyChars
  /-- Any number of directories. -/
  | anyDirs
  /-- A character that lies in one of some ranges, or in none of them. -/
  | oneOf (negated : Bool) (ranges : List (Char × Char))
deriving DecidableEq, Repr

/-- A pattern for a component of a path. -/
abbrev Pattern : Type := List Token

/-- The ranges that the characters of a class denote. -/
def classRanges : List Char → List (Char × Char)
  | a :: '-' :: b :: cs => (a, b) :: classRanges cs
  | a :: cs => (a, a) :: classRanges cs
  | [] => []

/-- The characters of a class after its `[`, and what follows its `]`. -/
def splitClass? : List Char → Option (List Char × List Char)
  | [] => none
  | c :: cs =>
    match cs.dropWhile (· != ']') with
    | [] => none
    | _ :: rest => some (c :: cs.takeWhile (· != ']'), rest)

/-- The parts of the remaining characters, where `previous` stands at `position` minus one. -/
def parseFrom : (fuel : Nat) → (position : Nat) → (previous : Option Char) → List Char →
    Except GlobError Pattern
  | 0, _, _, _ => .ok []
  | _ + 1, _, _, [] => .ok []
  | fuel + 1, position, previous, c :: cs =>
    if c = '?' then do
      let ts ← parseFrom fuel (position + 1) (some c) cs
      .ok (.anyChar :: ts)
    else if c = '*' then
      let stars := 1 + (cs.takeWhile (· = '*')).length
      let rest := cs.dropWhile (· = '*')
      if stars > 2 then .error ⟨position + 2, .wildcards⟩
      else if stars = 2 then
        if previous = none ∨ previous = some '/' then
          match rest with
          | [] => .ok [.anyDirs]
          | d :: rest =>
            if d = '/' then do
              let ts ← parseFrom fuel (position + 3) (some d) rest
              .ok (.anyDirs :: ts)
            else .error ⟨position + 2, .recursive⟩
        else .error ⟨position - 1, .recursive⟩
      else do
        let ts ← parseFrom fuel (position + 1) (some c) rest
        .ok (.anyChars :: ts)
    else if c = '[' then
      let negated := cs.head? = some '!'
      let body := if negated then cs.drop 1 else cs
      match splitClass? body with
      | none => .error ⟨position, .range⟩
      | some (chars, rest) => do
        let taken := (if negated then 1 else 0) + chars.length + 2
        let ts ← parseFrom fuel (position + taken) (some ']') rest
        .ok (.oneOf negated (classRanges chars) :: ts)
    else do
      let ts ← parseFrom fuel (position + 1) (some c) cs
      .ok (.char c :: ts)

/-- The parts of a text. -/
def parse (cs : List Char) : Except GlobError Pattern :=
  parseFrom (cs.length + 1) 0 none cs

/-- Whether a test holds of the characters, or of what is left after some of them. -/
def anySuffix (p : List Char → Bool) : List Char → Bool
  | [] => p []
  | c :: cs => p (c :: cs) || anySuffix p cs

/-- Whether all characters fit a pattern. -/
def matchesAll : Pattern → List Char → Bool
  | [], cs => cs.isEmpty
  | .anyChars :: ts, cs => anySuffix (matchesAll ts) cs
  | .anyDirs :: ts, cs => anySuffix (matchesAll ts) cs
  | .char c :: ts, d :: cs => c = d && matchesAll ts cs
  | .anyChar :: ts, _ :: cs => matchesAll ts cs
  | .oneOf negated ranges :: ts, c :: cs =>
    (ranges.any fun (lo, hi) => lo ≤ c && c ≤ hi) != negated && matchesAll ts cs
  | _ :: _, [] => false

/-- The text that a pattern without wildcards stands for. -/
def literal? (p : Pattern) : Option String :=
  (p.mapM fun (t : Token) => match t with
    | .char c => some c
    | _ => none).map String.ofList

/-- Whether a pattern stands for any number of directories. -/
def isRecursive (p : Pattern) : Bool :=
  p.contains .anyDirs

/-- Patterns without those that repeat a recursive one in front. -/
def collapse : List Pattern → List Pattern
  | p :: q :: rest =>
    if isRecursive p && isRecursive q then collapse (q :: rest) else p :: q :: rest
  | ps => ps

/-- The components of a pattern: where to start, and a pattern for each step. -/
structure Route where
  start : Path
  steps : List Pattern
  /-- Only directories count. -/
  dirsOnly : Bool

/-- The route of a pattern. -/
def route (text : String) : Except GlobError Route := do
  let cs := text.toList
  let _ ← parse cs
  let absolute := cs.head? = some '/'
  let body := if absolute then cs.drop 1 else cs
  let pieces := Path.splitPieces '/' body
  let pieces := if pieces.getLast? = some [] then pieces.dropLast else pieces
  let pieces := if body.isEmpty then [[]] else pieces
  let steps ← pieces.mapM parse
  .ok { start := if absolute then ⟨"/"⟩ else ⟨"."⟩, steps, dirsOnly := cs.getLast? = some '/' }

/-- What may come of a path: it is a result if it is of the wanted kind. -/
def accept (d : Disk) (dirsOnly : Bool) (p : Path) : List Path :=
  if dirsOnly && !d.isDir p then [] else [p]

/-- The path to an entry of a directory; the working directory itself is not spelled out. -/
def entry (p : Path) (name : String) : Path :=
  if p.same ⟨"."⟩ then ⟨name⟩ else p.child name

/-- The results of a path whose name has to fit the first step. -/
def matchName (d : Disk) (dirsOnly : Bool) (onward : List Pattern → Path → List Path)
    (steps : List Pattern) (p : Path) : List Path :=
  match steps, p.fileName? with
  | step :: rest, some name =>
    if !matchesAll step name.toList then []
    else if rest.isEmpty then accept d dirsOnly p
    else onward rest p
  | _, _ => []

/-- The results of an entry of a directory. -/
def visit (d : Disk) (dirsOnly : Bool) (onward : List Pattern → Path → List Path)
    (steps : List Pattern) (p : Path) : List Path :=
  match collapse steps with
  | [] => []
  | step :: rest =>
    if isRecursive step then
      if d.isDir p then
        (if rest.isEmpty then [p] else matchName d dirsOnly onward rest p)
          ++ onward (step :: rest) p
      else matchName d dirsOnly onward rest p
    else matchName d dirsOnly onward (step :: rest) p

/-- The paths below `p` that steps lead to; `fuel` bounds the length of the way. -/
def search (d : Disk) (dirsOnly : Bool) : (fuel : Nat) → List Pattern → Path → List Path
  | 0, _, _ => []
  | _ + 1, [], _ => []
  | fuel + 1, step :: rest, p =>
    let reach (next : Path) : List Path :=
      if rest.isEmpty then accept d dirsOnly next else search d dirsOnly fuel rest next
    match literal? step with
    | some s =>
      let next := if p.same ⟨"."⟩ then ⟨s⟩ else p.child s
      let special := s = "." || s = ".."
      if (if special then d.isDir p else d.exists? next) then reach next else []
    | none =>
      if !d.isDir p then []
      else
        let special (name : String) : List Path :=
          if step.head? = some (.char '.') && matchesAll step name.toList
          then reach (p.child name) else []
        special ".." ++ special "."
          ++ (d.entries p).flatMap fun name =>
            visit d dirsOnly (search d dirsOnly fuel) (step :: rest) (entry p name)

end Glob

namespace Disk

/-- The length of the longest way to a file or directory. -/
def depth (d : Disk) : Nat :=
  ((d.tree.files.map (·.1) ++ d.tree.dirs).map List.length).foldl max 0

/-- The paths that fit a pattern. -/
def glob (d : Disk) (pattern : String) : Except GlobError (List Path) := do
  let r ← Glob.route pattern
  .ok (Glob.search d r.dirsOnly ((r.steps.length + 1) * (d.depth + 2)) r.steps r.start)

/-- What gives the paths that fit a pattern. -/
abbrev Matcher : Type := String → Except GlobError (List Path)

/--
The files that fit any of some patterns seen from `base`, in order and each once, where `glob` gives
the paths that fit a pattern.
-/
def filesMatching (d : Disk) (glob : Matcher) (base : Path) :
    List String → Except (String × GlobError) (List Path)
  | patterns => do
    let found ← patterns.mapM fun pattern =>
      match glob (base.child pattern).text with
      | .ok ps => .ok (ps.filter d.isFile)
      | .error e => .error (pattern, e)
    .ok (Path.sorted found.flatten)

end Disk

end DeclSurface
