import DeclSurface.Gate.Reader
import DeclSurface.Library.Basic
import DeclSurface.Library.Shape
import DeclSurface.Toml.Document

/-!
# Libraries from files

A library is read from a main file and from the files that it includes. The fragments and
rules of an included file follow those of the files before it.

* `Library.parseWith` — the library of a text, with its included files, for a matcher of patterns.
* `Library.parse`     — the library of a text, with its included files.
* `Library.load`      — the library of a file.
-/

namespace DeclSurface

/-- The contents of a library file, given its name and its text. -/
def LibraryEntry.parse (name text : String) : Result LibraryEntry :=
  match Toml.parse? text with
  | none => Result.fail (.libraryText name)
  | some d =>
    match LibraryEntry.ofDatum d with
    | .ok entry => .ok entry
    | .error e => Result.fail (.libraryShape name e)

/-- The gate that a text denotes; without a text it is always open. -/
def readGate (text : Option String) (context : String → Context) : Result Gate :=
  match text with
  | none => .ok .always
  | some s =>
    match Gate.parse s with
    | .ok g => .ok g
    | .error e => .error { contexts := [context s], cause := .gate e }

mutual
/-- The fragment that an entry describes; one that is nested declares no ordering. -/
def FragmentEntry.toFragment (nested : Bool) : FragmentEntry → Result Fragment
  | ⟨name, gate, items, precede, follow, children⟩ =>
    if nested && !(precede.isEmpty && follow.isEmpty) then Result.fail (.nestedOrdering name)
    else do
      let gate ← readGate gate fun s => .fragmentGate s name
      let children ← FragmentEntry.toFragments children
      .ok { name, gate, items
            constraints := precede.map .mustPrecede ++ follow.map .mustFollow
            children }

/-- The nested fragments that entries describe. -/
def FragmentEntry.toFragments : List FragmentEntry → Result (List Fragment)
  | [] => .ok []
  | e :: es => do
    let f ← FragmentEntry.toFragment true e
    let fs ← FragmentEntry.toFragments es
    .ok (f :: fs)
end

/-- The rule that an entry describes. -/
def RewriteEntry.toRule (e : RewriteEntry) : Result RewriteRule := do
  let gate ← readGate e.gate fun s => .rewriteGate s e.symbol
  .ok { symbol := e.symbol, value := e.value, fragments := e.fragments, restore := e.restore
        gate }

namespace Library

/-- The library with the fragments and rules of one more file. -/
def absorb (l : Library) (entry : LibraryEntry) : Result Library := do
  let fragments ← entry.fragments.mapM (FragmentEntry.toFragment false)
  let rewrites ← entry.rewrites.mapM RewriteEntry.toRule
  .ok { l with fragments := l.fragments ++ fragments, rewrites := l.rewrites ++ rewrites }

/-- The text of a file. -/
def readText (d : Disk) (file : Path) : Result String :=
  match d.read? file with
  | some s => .ok s
  | none => .error { contexts := [.readingFile file], cause := .access }

/-- The library with one included file, which may hold only fragments and rules. -/
def includeFile (d : Disk) (l : Library) (file : Path) : Result Library := do
  let text ← readText d file
  let entry ← LibraryEntry.parse file.text text
  if entry.metadata.isSome || !entry.configurations.isEmpty then
    Result.fail (.includedContents file)
  else
    let l ← Result.within (l.absorb entry) (.includedFile file)
    .ok { l with sources := l.sources ++ [file] }

/--
The files that patterns seen from a directory stand for, where `glob` gives the paths that fit a
pattern.
-/
def includedFilesWith (glob : Disk.Matcher) (d : Disk) (root : Path) (patterns : List String) :
    Result (List Path) :=
  match d.filesMatching glob root patterns with
  | .ok files => .ok files
  | .error (pattern, e) => .error { contexts := [.globPattern pattern], cause := .glob e }

/-- The files that patterns seen from a directory stand for. -/
def includedFiles (d : Disk) : Path → List String → Result (List Path) :=
  includedFilesWith d.glob d

/--
The library of a text, whose patterns for included files are seen from a directory, where `glob`
gives the paths that fit a pattern.
-/
def parseWith (glob : Disk.Matcher) (d : Disk) (text : String) (root : Path) : Result Library := do
  let entry ← LibraryEntry.parse libraryFileName text
  match entry.metadata with
  | none => Result.fail .noLibrarySection
  | some metadata =>
    let l : Library := { name := metadata.name, description := metadata.description, root }
    let l ← l.absorb entry
    let l := { l with configurations := NameMap.ofList entry.configurations }
    let files ← includedFilesWith glob d root metadata.include_
    files.foldlM (includeFile d) l

/-- The library of a text, whose patterns for included files are seen from a directory. -/
def parse (d : Disk) : String → Path → Result Library :=
  parseWith d.glob d

/-- The library of a file. -/
def load (d : Disk) (file : Path) : Result Library := do
  let text ← readText d file
  let root := file.parent?.getD ⟨"."⟩
  let l ← Result.within (parse d text root) (.parsingLibrary file)
  .ok { l with sources := file :: l.sources }

end Library

end DeclSurface
