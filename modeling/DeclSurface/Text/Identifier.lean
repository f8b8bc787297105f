/-!
# Identifiers

The names a C preprocessor accepts: an ASCII letter or `_`, then ASCII letters, digits and
`_`. Gate expressions, flags and macro names are all made of them.

* `isIdentStart`, `isIdentPart` — the two character classes.
* `isIdentifier`                — a whole text that is an identifier.
-/

namespace DeclSurface.Text

/-- A character an identifier may start with. -/
def isIdentStart (c : Char) : Bool :=
  c.isAlpha || c == '_'

/-- A character an identifier may go on with. -/
def isIdentPart (c : Char) : Bool :=
  c.isAlphanum || c == '_'

/-- A non-empty text that starts and goes on as an identifier does. -/
def isIdentifier : List Char → Bool
  | [] => false
  | c :: cs => isIdentStart c && cs.all isIdentPart

/-- Whatever starts an identifier may also stand inside one. -/
theorem isIdentPart_of_isIdentStart {c : Char} (h : isIdentStart c = true) :
    isIdentPart c = true := by
  simp only [isIdentStart, Bool.or_eq_true] at h
  simp only [isIdentPart, Char.isAlphanum, Bool.or_eq_true]
  exact h.imp_left Or.inl

example : isIdentifier "_x1".toList = true ∧ isIdentifier "1x".toList = false := by decide

end DeclSurface.Text
