/-!
# Paths

A path is a text in which `/` separates components. Empty components and `.` inside a path
count for nothing, but the text is kept as it was written, since that is how it is shown.

* `Path.join`, `Path.parent?`  — paths from paths.
* `Path.components`            — what a path is made of; paths are ordered by it.
-/

namespace DeclSurface

/-- A path as it is written. -/
structure Path where
  text : String
deriving DecidableEq, Repr, Inhabited

namespace Path

/-- The pieces of a text between separators; there is one more than there are separators. -/
def splitPieces (separator : Char) : List Char → List (List Char)
  | [] => [[]]
  | c :: cs =>
    if c = separator then [] :: splitPieces separator cs
    else match splitPieces separator cs with
      | p :: ps => (c :: p) :: ps
      | [] => [[c]]

/-- The pieces of a path between slashes. -/
def pieces (p : Path) : List String :=
  (splitPieces '/' p.text.toList).map String.ofList

/-- Whether a path starts at the root. -/
def isAbsolute (p : Path) : Bool :=
  p.text.toList.head? = some '/'

/-- Whether a path ends with a separator, or is empty. -/
def endsOpen (p : Path) : Bool :=
  p.text = "" || p.text.toList.getLast? = some '/'

/-- The path `q`, seen from `p` unless it is absolute. -/
def join (p q : Path) : Path :=
  if q.isAbsolute then q
  else if p.endsOpen then ⟨p.text ++ q.text⟩
  else ⟨p.text ++ "/" ++ q.text⟩

/-- The path `name`, seen from `p`. -/
def child (p : Path) (name : String) : Path :=
  p.join ⟨name⟩

/-! ## Components -/

/-- A component of a path. -/
inductive Component where
  | root
  | current
  | parent
  | name (s : String)
deriving DecidableEq, Repr

/-- The component that a piece stands for, if it counts. -/
def Component.ofPiece (piece : String) : Option Component :=
  if piece = "" ∨ piece = "." then none
  else if piece = ".." then some .parent
  else some (.name piece)

/-- The components of a path; a `.` counts only at the front. -/
def components (p : Path) : List Component :=
  let rest := p.pieces.filterMap Component.ofPiece
  if p.isAbsolute then .root :: rest
  else if p.pieces.head? = some "." then .current :: rest
  else rest

/-- Whether a piece counts for nothing inside a path. -/
def isIdle (piece : String) : Bool :=
  piece = "" || piece = "."

/-- The pieces without the idle ones at the end. -/
def dropIdle (pieces : List String) : List String :=
  (pieces.reverse.dropWhile isIdle).reverse

/-- The path without its last component, unless it is empty or the root. -/
def parent? (p : Path) : Option Path :=
  match p.pieces with
  | [] => none
  | first :: rest =>
    let rest := dropIdle rest
    if rest.isEmpty then
      if first = "" then none else some ⟨""⟩
    else
      let rest := dropIdle rest.dropLast
      if rest.isEmpty && first = "" then some ⟨"/"⟩
      else some ⟨"/".intercalate (first :: rest)⟩

/-- The last component, if it is a name. -/
def fileName? (p : Path) : Option String :=
  match p.components.getLast? with
  | some (.name s) => some s
  | _ => none

/-! ## Order -/

/-- The place of a kind of component among the kinds. -/
def Component.rank : Component → Nat
  | root => 0
  | current => 1
  | parent => 2
  | name _ => 3

/-- Whether a component comes before another; names come last, in their own order. -/
def Component.before : Component → Component → Bool
  | name s, name t => decide (s < t)
  | a, b => a.rank < b.rank

/-- Whether a list of components comes before another, or is the same. -/
def notAfter : List Component → List Component → Bool
  | [], _ => true
  | _ :: _, [] => false
  | a :: as, b :: bs => a.before b || (a = b && notAfter as bs)

/-- Whether two paths have the same components. -/
def same (p q : Path) : Bool :=
  p.components = q.components

/-- The paths after `p`, without those that are the same as the one before them. -/
def dropRepeats (p : Path) : List Path → List Path
  | [] => []
  | q :: rest => if p.same q then dropRepeats p rest else q :: dropRepeats q rest

/-- The paths in the order of their components, each once. -/
def sorted (ps : List Path) : List Path :=
  match ps.mergeSort fun p q => notAfter p.components q.components with
  | [] => []
  | p :: rest => p :: dropRepeats p rest

example : (Path.parent? ⟨"d/../up/Quay.toml"⟩).map Path.text = some "d/../up" := by
  decide +kernel

end Path

end DeclSurface
