import DeclSurface.Text.Blank

/-!
# Lines of a text

* `firstLine`        — what stands before the first line feed.
* `headline`         — the first line without blanks at its ends, as a short display text.
* `endWithLineFeed`  — a text that is closed by a line feed.
-/

namespace DeclSurface.Text

/-- The text before the first line feed, or the whole text when it has none. -/
def firstLine (s : String) : String :=
  String.ofList (s.toList.takeWhile (· != '\n'))

/-- The first line, trimmed; a carriage return before the line feed is blank and goes too. -/
def headline (s : String) : String :=
  trimBlank (firstLine s)

/-- The text, with a line feed added unless it already ends with one. -/
def endWithLineFeed (s : String) : String :=
  if s.toList.getLast? = some '\n' then s else s ++ "\n"

end DeclSurface.Text
