import DeclSurface.Manifest.Listing
import DeclSurface.Proofs.Manifest.Encoding
import DeclSurface.Proofs.Rewrite.Replay

/-!
# The lines of a listing

A listing is read line by line: the lines that are no comments are the items, one each. The texts in
it are written as they are, so that holds as long as none of them has a line feed. Only a text without
an identity is cut down to its first line.

* `Text.lines`                    — the lines of a text.
* `Text.length_lines_joinLines_iff` — rows that are each a line of their own.
* `Listing.rows`                  — what a listing writes, a row for each item and event.
* `Manifest.LineOriented`         — what a reader of the lines relies on.
* `Manifest.lineOriented_iff`     — for which manifests that holds.
* `Manifest.listing_breaks_identity` — an identity that takes two lines.
-/

namespace DeclSurface

/-! ## Lines -/

namespace Text

/-- The lines of a text: what each line feed ends, and what is left behind the last, if anything. -/
def linesOf : List Char → List (List Char)
  | [] => []
  | c :: cs =>
    if c = '\n' then [] :: linesOf cs
    else
      match linesOf cs with
      | [] => [[c]]
      | line :: rest => (c :: line) :: rest

/-- The lines of a text, without the line feeds that end them. -/
def lines (s : String) : List String :=
  (linesOf s.toList).map String.ofList

/-- Rows of text, each ended by a line feed. -/
def joinLines (rows : List String) : String :=
  String.join (rows.map (· ++ "\n"))

variable {row rest : List Char} {rows : List String}

theorem linesOf_row (h : '\n' ∉ row) : linesOf (row ++ '\n' :: rest) = row :: linesOf rest := by
  induction row with
  | nil => rfl
  | cons c row ih =>
    rw [List.mem_cons, not_or] at h
    obtain ⟨hc, hRow⟩ := h
    rw [List.cons_append, linesOf, if_neg (Ne.symm hc), ih hRow]

/-- A row takes a line, and one more for each line feed in it. -/
theorem length_linesOf_row (row rest : List Char) :
    (linesOf (row ++ '\n' :: rest)).length = row.count '\n' + 1 + (linesOf rest).length := by
  induction row with
  | nil =>
    show (linesOf rest).length + 1 = _
    rw [List.count_nil]
    omega
  | cons c row ih =>
    rw [List.cons_append, linesOf]
    by_cases hc : c = '\n'
    · subst hc
      rw [if_pos rfl, List.length_cons, ih, List.count_cons_self]
      omega
    · -- the character goes into the first line of what follows, and there is one
      rw [if_neg hc, List.count_cons_of_ne hc]
      cases hLines : linesOf (row ++ '\n' :: rest) with
      | nil =>
        rw [hLines, List.length_nil] at ih
        omega
      | cons line lines =>
        rw [hLines] at ih
        exact ih

theorem toList_joinLines_cons (row : String) (rows : List String) :
    (joinLines (row :: rows)).toList = row.toList ++ '\n' :: (joinLines rows).toList := by
  rw [joinLines, List.map_cons, String.join_cons, String.toList_append, String.toList_append,
    List.append_assoc]
  rfl

theorem lines_joinLines (h : ∀ row ∈ rows, '\n' ∉ row.toList) : lines (joinLines rows) = rows := by
  induction rows with
  | nil => rfl
  | cons row rows ih =>
    obtain ⟨hRow, hRows⟩ := List.forall_mem_cons.mp h
    rw [lines, toList_joinLines_cons, linesOf_row hRow, List.map_cons, String.ofList_toList,
      ← lines, ih hRows]

theorem length_lines_joinLines_cons (row : String) (rows : List String) :
    (lines (joinLines (row :: rows))).length
      = row.toList.count '\n' + 1 + (lines (joinLines rows)).length := by
  rw [lines, List.length_map, toList_joinLines_cons, length_linesOf_row, lines, List.length_map]

theorem length_le_length_lines_joinLines (rows : List String) :
    rows.length ≤ (lines (joinLines rows)).length := by
  induction rows with
  | nil => exact Nat.zero_le _
  | cons row rows ih =>
    rw [length_lines_joinLines_cons, List.length_cons]
    omega

/-- There are as many lines as rows just when no row has a line feed. -/
theorem length_lines_joinLines_iff :
    (lines (joinLines rows)).length = rows.length ↔ ∀ row ∈ rows, '\n' ∉ row.toList := by
  induction rows with
  | nil => exact iff_of_true rfl (List.forall_mem_nil _)
  | cons row rows ih =>
    rw [length_lines_joinLines_cons, List.length_cons, List.forall_mem_cons, ← ih,
      ← List.count_eq_zero]
    -- what one row is over, no other can make up for
    have hRest := length_le_length_lines_joinLines rows
    omega

/-- A line that starts with `#`. -/
def isComment (line : String) : Bool :=
  line.toList.head? == some '#'

theorem lineFeed_notMem_headline (s : String) : '\n' ∉ (headline s).toList := by
  intro hMem
  rw [headline, toList_trimBlank, firstLine, String.toList_ofList] at hMem
  -- trimming adds no characters, and the first line ends in front of the first line feed
  have hFirst := (List.dropWhile_sublist _).subset ((List.rdropWhile_prefix _ _).subset hMem)
  have hNot : ('\n' != '\n') = true := List.mem_takeWhile_imp (p := (· != '\n')) hFirst
  exact absurd hNot (by decide)

end Text

/-! ## Rows of a listing -/

/-- The texts that a listing shows of an item. -/
def ItemKind.listedTexts : ItemKind → List String
  | header path _ => [path]
  | text _ id => id.toList
  | initializer macroName typeName => [macroName, typeName]

/-- An item takes one line just when the texts that are written whole in it do. -/
theorem Item.lineFeed_notMem_display_iff (i : Item) :
    '\n' ∉ i.display.toList ↔ ∀ s ∈ i.kind.listedTexts, '\n' ∉ s.toList := by
  obtain ⟨kind, idempotent⟩ := i
  cases kind with
  | header path system => cases system <;> simp [display, ItemKind.listedTexts]
  | text t id =>
    cases id with
    | none => simp [display, ItemKind.listedTexts, Text.lineFeed_notMem_headline]
    | some id => simp [display, ItemKind.listedTexts]
  | initializer macroName typeName => simp [display, ItemKind.listedTexts]

/-- No item looks like a comment. -/
theorem Item.not_isComment_display (i : Item) : Text.isComment i.display = false := by
  obtain ⟨kind, idempotent⟩ := i
  cases kind with
  | header path system => cases system <;> simp [display, Text.isComment]
  | text t id => cases id <;> simp [display, Text.isComment]
  | initializer macroName typeName => simp [display, Text.isComment]

namespace Listing

/-- The comment about an event, without the line feed that ends it. -/
def comment (e : RewriteEvent) : String :=
  "#   @" ++ toString e.position ++ " "
    ++ (match e.value, e.action with
        | some value, .apply => "apply " ++ e.symbol ++ " = " ++ value
        | some value, .restore => "restore " ++ e.symbol ++ " = " ++ value
        | none, _ => "undefine " ++ e.symbol)
    ++ " (" ++ e.fragment ++ ")"

theorem event_eq (e : RewriteEvent) : event e = comment e ++ "\n" := by
  simp only [event, comment, String.append_assoc]
  rfl

theorem lineFeed_notMem_comment_iff (e : RewriteEvent) :
    '\n' ∉ (comment e).toList ↔ ∀ s ∈ e.texts, '\n' ∉ s.toList := by
  obtain ⟨action, symbol, value, fragment, position⟩ := e
  -- a number is written in digits only
  have hPosition : '\n' ∉ Nat.toDigits 10 position := by
    intro hMem
    exact absurd (Nat.isDigit_of_mem_toDigits (by decide) (by decide) hMem) (by decide)
  cases value with
  | none => simp [comment, RewriteEvent.texts, hPosition]
  | some value =>
    cases action <;> simp [comment, RewriteEvent.texts, hPosition] <;> tauto

theorem isComment_comment (e : RewriteEvent) : Text.isComment (comment e) = true := by
  simp [comment, Text.isComment]

/-- The comments of a listing: none without a rewrite, or a heading and one for each event. -/
def comments (log : List RewriteEvent) : List String :=
  if log.isEmpty then [] else "# rewrites:" :: log.map comment

theorem isComment_of_mem_comments {log : List RewriteEvent} {line : String}
    (h : line ∈ comments log) : Text.isComment line = true := by
  rw [comments] at h
  split at h
  · exact absurd h List.not_mem_nil
  · rcases List.mem_cons.mp h with rfl | h
    · decide
    · obtain ⟨e, -, rfl⟩ := List.mem_map.mp h
      exact isComment_comment e

/-- The rows that a listing writes. -/
def rows (m : Manifest) : List String :=
  m.declarations.map Item.display ++ comments m.rewrites

theorem toListing_eq_joinLines (m : Manifest) : m.toListing = Text.joinLines (rows m) := by
  have hEvents : m.rewrites.map event = (m.rewrites.map comment).map (· ++ "\n") := by
    rw [List.map_map]
    exact List.map_congr_left fun e _ => event_eq e
  rw [Manifest.toListing, hEvents, rows, Text.joinLines, List.map_append, String.join_append,
    comments]
  congr 1
  · rw [Manifest.declarations, List.map_map, List.map_map]
    rfl
  · split
    · rfl
    · rw [List.map_cons, String.join_cons]
      rfl

/-- How many comments a listing has: one for each event and the heading, if there are events. -/
theorem length_comments (log : List RewriteEvent) :
    (comments log).length = if log.isEmpty then 0 else log.length + 1 := by
  rw [comments]
  split
  · rfl
  · rw [List.length_cons, List.length_map]

end Listing

/-! ## Reading a listing line by line -/

/-- The texts that a listing shows of a manifest. -/
def Manifest.listedTexts (m : Manifest) : List String :=
  m.items.flatMap (·.item.kind.listedTexts) ++ m.rewrites.flatMap RewriteEvent.texts

theorem Listing.lineFeed_notMem_rows_iff (m : Manifest) :
    (∀ row ∈ rows m, '\n' ∉ row.toList) ↔ ∀ s ∈ m.listedTexts, '\n' ∉ s.toList := by
  have hItems : (∀ row ∈ m.declarations.map Item.display, '\n' ∉ row.toList)
      ↔ ∀ s ∈ m.items.flatMap (·.item.kind.listedTexts), '\n' ∉ s.toList := by
    rw [Manifest.declarations, List.map_map, List.forall_mem_map, List.forall_mem_flatMap]
    exact forall₂_congr fun i _ => i.item.lineFeed_notMem_display_iff
  have hEvents : (∀ row ∈ comments m.rewrites, '\n' ∉ row.toList)
      ↔ ∀ s ∈ m.rewrites.flatMap RewriteEvent.texts, '\n' ∉ s.toList := by
    have hComments : (∀ row ∈ m.rewrites.map comment, '\n' ∉ row.toList)
        ↔ ∀ s ∈ m.rewrites.flatMap RewriteEvent.texts, '\n' ∉ s.toList := by
      rw [List.forall_mem_map, List.forall_mem_flatMap]
      exact forall₂_congr fun e _ => lineFeed_notMem_comment_iff e
    rw [comments]
    split
    · rename_i hEmpty
      rw [List.isEmpty_iff.mp hEmpty]
      simp
    · rw [List.forall_mem_cons, hComments]
      exact and_iff_right (by decide)
  rw [rows, List.forall_mem_append, hItems, hEvents, Manifest.listedTexts, List.forall_mem_append]

/-- What a reader relies on who takes a listing line by line. -/
structure Manifest.LineOriented (m : Manifest) : Prop where
  /-- The lines that are no comments are the items, one each. -/
  declared : (Text.lines m.toListing).filter (! Text.isComment ·) = m.declarations.map Item.display
  /-- The items come first; a heading and a comment for each event follow if there are events. -/
  trailed : ∃ comments, Text.lines m.toListing = m.declarations.map Item.display ++ comments ∧
    (∀ line ∈ comments, Text.isComment line = true) ∧
    comments.length = (if m.rewrites.isEmpty then 0 else m.rewrites.length + 1) ∧
    (m.rewrites ≠ [] → comments.head? = some "# rewrites:")

/-- A listing is read line by line just when none of the texts in it has a line feed. -/
theorem Manifest.lineOriented_iff (m : Manifest) :
    m.LineOriented ↔ ∀ s ∈ m.listedTexts, '\n' ∉ s.toList := by
  rw [← Listing.lineFeed_notMem_rows_iff]
  constructor
  · intro hOriented
    obtain ⟨comments, hLines, -, hLength, -⟩ := hOriented.trailed
    -- there are as many lines as rows, so no row has taken two
    have hCount : (Text.lines m.toListing).length = (Listing.rows m).length := by
      rw [hLines, Listing.rows, List.length_append, List.length_append, hLength,
        Listing.length_comments]
    rw [Listing.toListing_eq_joinLines] at hCount
    exact Text.length_lines_joinLines_iff.mp hCount
  · intro hRows
    have hLines : Text.lines m.toListing = Listing.rows m := by
      rw [Listing.toListing_eq_joinLines, Text.lines_joinLines hRows]
    refine ⟨?_, Listing.comments m.rewrites, hLines, ?_, Listing.length_comments _, ?_⟩
    · have hDisplays : (m.declarations.map Item.display).filter (! Text.isComment ·)
          = m.declarations.map Item.display := by
        rw [List.filter_eq_self, List.forall_mem_map]
        intro i _
        rw [Item.not_isComment_display, Bool.not_false]
      have hComments : (Listing.comments m.rewrites).filter (! Text.isComment ·) = [] := by
        rw [List.filter_eq_nil_iff]
        intro line hMem
        rw [Listing.isComment_of_mem_comments hMem]
        decide
      rw [hLines, Listing.rows, List.filter_append, hDisplays, hComments, List.append_nil]
    · intro line hMem
      exact Listing.isComment_of_mem_comments hMem
    · intro hSome
      rw [Listing.comments, if_neg (mt List.isEmpty_iff.mp hSome), List.head?_cons]

/-- A manifest with one declaration, whose identity has a line feed. -/
def Sample.brokenIdentity : Manifest where
  version := Manifest.currentVersion
  configuration := none
  flags := []
  fragments := ["a"]
  items := [{ fragment := "a", item := ⟨.text "int a;" (some "a\nb"), false⟩ }]
  rewrites := []

/-- The one declaration is taken for two references. -/
theorem Manifest.listing_breaks_identity :
    Text.lines Sample.brokenIdentity.toListing = ["text `a", "b`"] ∧
      ¬ ∀ m : Manifest, m.LineOriented := by
  have hLines : Text.lines Sample.brokenIdentity.toListing = ["text `a", "b`"] := by decide
  refine ⟨hLines, ?_⟩
  intro hAll
  have hDeclared := (hAll Sample.brokenIdentity).declared
  rw [hLines] at hDeclared
  exact absurd hDeclared (by decide)

end DeclSurface
