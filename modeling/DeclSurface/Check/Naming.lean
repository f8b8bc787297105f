import DeclSurface.Text.Blank
import DeclSurface.Text.Identifier

/-!
# Well-formed names

Which texts may name a fragment, a flag and a rewritten macro.

* `isFragmentName`  — letters, digits, `_`, and after the first character `-` and `.`.
* `isFlagName`      — an identifier.
* `isMacroHead`     — an identifier, with a parameter list in parentheses if it takes any.
-/

namespace DeclSurface

open Text

/-! ## Fragments and flags -/

/-- A character that a fragment name may go on with. -/
def isFragmentPart (c : Char) : Bool :=
  isIdentPart c || c == '.' || c == '-'

/-- Whether a text may name a fragment. -/
def isFragmentName (s : String) : Bool :=
  match s.toList with
  | [] => false
  | c :: cs => isIdentPart c && cs.all isFragmentPart

/-- Whether a text may name a flag. -/
def isFlagName (s : String) : Bool :=
  isIdentifier s.toList

/-! ## Macros -/

/-- Characters without the blanks at either end. -/
def trimmed (cs : List Char) : List Char :=
  (dropBlank (dropBlank cs).reverse).reverse

/-- Whether characters are the name of a parameter, between blanks. -/
def isParameter (cs : List Char) : Bool :=
  isIdentifier (trimmed cs)

/-- Whether characters may stand last in a parameter list: a name, dots, or nothing at all. -/
def isLastParameter (cs : List Char) : Bool :=
  isParameter cs || trimmed cs = ['.', '.', '.'] || trimmed cs = []

/--
Whether characters go on as a parameter list does and end with the parenthesis that closes it.
`piece` is what has been read of the parameter at hand.
-/
def closesList (piece : List Char) : List Char → Bool
  | [] => false
  | [c] => c == ')' && isLastParameter piece
  | c :: cs =>
    if c = ',' then isParameter piece && closesList [] cs
    else closesList (piece ++ [c]) cs

/--
Whether a text is what a definition of a macro starts with. A comma may stand before the
parenthesis that closes the list.
-/
def isMacroHead (s : String) : Bool :=
  let name := s.toList.takeWhile isIdentPart
  isIdentifier name
    && match s.toList.dropWhile isIdentPart with
      | [] => true
      | c :: cs => c == '(' && closesList [] cs

example : isMacroHead "UINT16_MAX" = true ∧ isMacroHead "LOG( fmt , ...)" = true
    ∧ isMacroHead "F(a,)" = true ∧ isMacroHead "F (a)" = false
    ∧ isMacroHead "F(...,a)" = false := by
  decide +kernel

end DeclSurface
