/-!
# Blank characters

The characters that separate words in gate expressions and compiler flags, and that are
trimmed from displayed text: those with the Unicode property `White_Space`.

* `isBlank`    — the property, as a table of ranges.
* `trimBlank`  — a text without blanks at either end.
-/

namespace DeclSurface.Text

/-- Ranges of code points with the Unicode property `White_Space`. -/
def blankRanges : List (Nat × Nat) :=
  [(0x09, 0x0D), (0x20, 0x20), (0x85, 0x85), (0xA0, 0xA0), (0x1680, 0x1680), (0x2000, 0x200A),
   (0x2028, 0x2029), (0x202F, 0x202F), (0x205F, 0x205F), (0x3000, 0x3000)]

/-- A character is blank when its code point lies in one of the `blankRanges`. -/
def isBlank (c : Char) : Bool :=
  blankRanges.any fun (lo, hi) => lo ≤ c.toNat && c.toNat ≤ hi

/-- The characters without the blanks they start with. -/
def dropBlank (cs : List Char) : List Char :=
  cs.dropWhile isBlank

/-- The text without blanks at either end. -/
def trimBlank (s : String) : String :=
  String.ofList (dropBlank (dropBlank s.toList).reverse).reverse

example : isBlank '\u00a0' = true ∧ isBlank '\u200b' = false := by decide

end DeclSurface.Text
