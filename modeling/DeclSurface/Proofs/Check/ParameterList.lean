import DeclSurface.Check.Naming
import DeclSurface.Files.Path
import DeclSurface.Proofs.CompilerFlags.Quoting
import DeclSurface.Proofs.Gate.Places
import Mathlib.Data.List.DropRight

/-!
# Parameter lists

What stands between the parentheses of a macro is a list of items with commas between them and
blanks around each. It is read character by character. What the reader accepts is said here by the
items: all but the last are names, and the last one is a name, dots, or nothing at all. So a list
that is well formed is accepted, and so is a list of names with one more comma behind it.

* `Padded`, `Listed`         — an item among blanks, and items between commas.
* `Listed.eq_map_trimmed`    — a text lists its items in one way only.
* `Parameters`               — the lists that are well formed.
* `Dangling`                 — names, and a comma behind the last one.
* `closesList_iff`           — the reader accepts just the lists of either sort.
* `Parameters.not_dangling`  — no list is of both sorts.
-/

namespace DeclSurface

open Text

/-! ## Items among blanks -/

/-- Characters are an item with blanks around it. -/
def Padded (item cs : List Char) : Prop :=
  ∃ before after, cs = before ++ (item ++ after) ∧ AllBlank before ∧ AllBlank after

/-- An item holds neither blanks nor commas. -/
def Solid (item : List Char) : Prop :=
  ∀ c ∈ item, isBlank c = false ∧ c ≠ ','

section Padded

variable {item cs name : List Char}

theorem padded_trimmed (cs : List Char) : Padded (trimmed cs) cs := by
  refine ⟨cs.takeWhile isBlank, (cs.dropWhile isBlank).rtakeWhile isBlank, ?_, ?_, ?_⟩
  · have hBack : trimmed cs ++ (cs.dropWhile isBlank).rtakeWhile isBlank = cs.dropWhile isBlank :=
      List.rdropWhile_append_rtakeWhile
    rw [hBack, List.takeWhile_append_dropWhile]
  · exact fun c hc => List.mem_takeWhile_imp hc
  · exact fun c hc => List.mem_rtakeWhile_imp hc

theorem dropBlank_of_solid (h : Solid item) : dropBlank item = item := by
  cases item with
  | nil => rfl
  | cons c item => exact List.dropWhile_cons_of_neg (by simp [h c List.mem_cons_self])

theorem dropBlank_append (h : AllBlank cs) (rest : List Char) :
    dropBlank (cs ++ rest) = dropBlank rest :=
  List.dropWhile_append_of_pos h

/-- Trimming leaves the item that the blanks stand around. -/
theorem Padded.trimmed_eq (h : Padded item cs) (hSolid : Solid item) : trimmed cs = item := by
  obtain ⟨before, after, rfl, hBefore, hAfter⟩ := h
  have hAfter' : AllBlank after.reverse := fun c hc => hAfter c (List.mem_reverse.mp hc)
  have hSolid' : Solid item.reverse := fun c hc => hSolid c (List.mem_reverse.mp hc)
  rw [trimmed, dropBlank_append hBefore]
  cases item with
  | nil =>
    have hNone : dropBlank after = [] := List.dropWhile_eq_nil_iff.mpr hAfter
    rw [List.nil_append, hNone]
    rfl
  | cons c item =>
    have hFirst : dropBlank (c :: item ++ after) = c :: item ++ after :=
      List.dropWhile_cons_of_neg (by simp [hSolid c List.mem_cons_self])
    rw [hFirst, List.reverse_append, dropBlank_append hAfter', dropBlank_of_solid hSolid',
      List.reverse_reverse]

theorem Padded.comma_notMem (h : Padded item cs) (hSolid : Solid item) : ',' ∉ cs := by
  obtain ⟨before, after, rfl, hBefore, hAfter⟩ := h
  have hBlank : isBlank ',' ≠ true := by decide
  rw [List.mem_append, List.mem_append]
  rintro (hc | hc | hc)
  · exact hBlank (hBefore _ hc)
  · exact (hSolid _ hc).2 rfl
  · exact hBlank (hAfter _ hc)

theorem solid_of_isIdentifier (h : isIdentifier name = true) : Solid name := by
  intro c hc
  have hPart := Gate.isIdentPart_of_mem h hc
  refine ⟨Gate.isBlank_of_isIdentPart hPart, ?_⟩
  rintro rfl
  exact absurd hPart (by decide)

end Padded

/-! ## Items between commas -/

/-- Characters are some items in order, with commas between them and blanks around each. -/
inductive Listed : List (List Char) → List Char → Prop where
  | last {item cs : List Char} : Padded item cs → Listed [item] cs
  | cons {item cs rest : List Char} {items : List (List Char)} :
      Padded item cs → Listed items rest → Listed (item :: items) (cs ++ ',' :: rest)

section Listed

variable {item cs rest : List Char} {items : List (List Char)} {sep : Char}

theorem splitPieces_of_notMem (h : sep ∉ cs) : Path.splitPieces sep cs = [cs] := by
  induction cs with
  | nil => rfl
  | cons c cs ih =>
    rw [List.mem_cons, not_or] at h
    rw [Path.splitPieces, if_neg (Ne.symm h.1), ih h.2]

theorem splitPieces_append (h : sep ∉ cs) (rest : List Char) :
    Path.splitPieces sep (cs ++ sep :: rest) = cs :: Path.splitPieces sep rest := by
  induction cs with
  | nil => rw [List.nil_append, Path.splitPieces, if_pos rfl]
  | cons c cs ih =>
    rw [List.mem_cons, not_or] at h
    rw [List.cons_append, Path.splitPieces, if_neg (Ne.symm h.1), ih h.2]

/-- The items are what stands between commas, without the blanks. -/
theorem Listed.eq_map_trimmed (h : Listed items cs) (hSolid : ∀ item ∈ items, Solid item) :
    items = (Path.splitPieces ',' cs).map trimmed := by
  induction h with
  | last hPadded =>
    have hItem := hSolid _ List.mem_cons_self
    rw [splitPieces_of_notMem (hPadded.comma_notMem hItem), List.map_singleton,
      hPadded.trimmed_eq hItem]
  | cons hPadded _ ih =>
    obtain ⟨hItem, hItems⟩ := List.forall_mem_cons.mp hSolid
    rw [splitPieces_append (hPadded.comma_notMem hItem), List.map_cons, hPadded.trimmed_eq hItem,
      ← ih hItems]

theorem Listed.ne_nil (h : Listed items cs) : items ≠ [] := by
  cases h <;> exact List.cons_ne_nil _ _

theorem listed_singleton_iff : Listed [item] cs ↔ Padded item cs := by
  refine ⟨fun h => ?_, .last⟩
  cases h with
  | last h => exact h
  | cons _ hRest => exact absurd rfl hRest.ne_nil

/-- Of several items the first stands in front of a comma. -/
theorem exists_of_listed_cons (h : Listed (item :: items) cs) (hSome : items ≠ []) :
    ∃ front rest, cs = front ++ ',' :: rest ∧ Padded item front ∧ Listed items rest := by
  cases h with
  | last => exact absurd rfl hSome
  | cons hPadded hRest => exact ⟨_, _, rfl, hPadded, hRest⟩

end Listed

/-! ## What may be listed -/

/-- The dots that stand for any number of further parameters. -/
def dots : List Char := ['.', '.', '.']

/-- All are identifiers. -/
def AllNames (names : List (List Char)) : Prop :=
  ∀ name ∈ names, isIdentifier name = true

/-- Nothing, names, or dots behind any number of names: a well-formed list of parameters. -/
inductive Parameters : List Char → Prop where
  | none {cs : List Char} : AllBlank cs → Parameters cs
  | names {names : List (List Char)} {cs : List Char} :
      AllNames names → Listed names cs → Parameters cs
  | variadic {names : List (List Char)} {cs : List Char} :
      AllNames names → Listed (names ++ [dots]) cs → Parameters cs

/-- Names, and a comma behind the last one with nothing more to come. -/
def Dangling (cs : List Char) : Prop :=
  ∃ names, names ≠ [] ∧ AllNames names ∧ Listed (names ++ [[]]) cs

/-- An item that the reader takes as the last one. -/
def MayEnd (item : List Char) : Prop :=
  isIdentifier item = true ∨ item = dots ∨ item = []

section Items

variable {cs last name : List Char} {names : List (List Char)}

theorem MayEnd.solid (h : MayEnd last) : Solid last := by
  rcases h with hName | rfl | rfl
  · exact solid_of_isIdentifier hName
  · intro c hc
    rw [List.eq_of_mem_replicate (n := 3) hc]
    decide
  · exact List.forall_mem_nil _

theorem AllNames.solid (h : AllNames names) (hLast : MayEnd last) :
    ∀ item ∈ names ++ [last], Solid item := by
  intro item hItem
  rcases List.mem_append.mp hItem with hItem | hItem
  · exact solid_of_isIdentifier (h item hItem)
  · rw [List.mem_singleton.mp hItem]
    exact hLast.solid

theorem padded_nil_iff : Padded [] cs ↔ AllBlank cs := by
  constructor
  · rintro ⟨before, after, rfl, hBefore, hAfter⟩
    exact List.forall_mem_append.mpr ⟨hBefore, hAfter⟩
  · intro h
    exact ⟨[], cs, rfl, List.forall_mem_nil _, h⟩

/-- Well-formed lists and those with a comma too many are names with something last. -/
theorem exists_listed_iff :
    (∃ names last, AllNames names ∧ MayEnd last ∧ Listed (names ++ [last]) cs) ↔
      Parameters cs ∨ Dangling cs := by
  constructor
  · rintro ⟨names, last, hNames, hName | rfl | rfl, hListed⟩
    · refine Or.inl (.names ?_ hListed)
      exact List.forall_mem_append.mpr ⟨hNames, List.forall_mem_singleton.mpr hName⟩
    · exact Or.inl (.variadic hNames hListed)
    · by_cases hNone : names = []
      · subst hNone
        exact Or.inl (.none (padded_nil_iff.mp (listed_singleton_iff.mp hListed)))
      · exact Or.inr ⟨names, hNone, hNames, hListed⟩
  · rintro (h | ⟨names, -, hNames, hListed⟩)
    · cases h with
      | none hBlank =>
        exact ⟨[], [], List.forall_mem_nil _, Or.inr (Or.inr rfl),
          .last (padded_nil_iff.mpr hBlank)⟩
      | @names names _ hNames hListed =>
        -- the last of the names is what the list ends with
        obtain ⟨init, last, rfl⟩ :=
          (List.eq_nil_or_concat' names).resolve_left hListed.ne_nil
        obtain ⟨hInit, hLast⟩ := List.forall_mem_append.mp hNames
        exact ⟨init, last, hInit, Or.inl (hLast last List.mem_cons_self), hListed⟩
      | variadic hNames hListed => exact ⟨_, dots, hNames, Or.inr (Or.inl rfl), hListed⟩
    · exact ⟨names, [], hNames, Or.inr (Or.inr rfl), hListed⟩

/-- A well-formed list has no comma behind its last item. -/
theorem Parameters.not_dangling (h : Parameters cs) : ¬ Dangling cs := by
  rintro ⟨names, hSome, hNames, hListed⟩
  have hItems := hListed.eq_map_trimmed (hNames.solid (Or.inr (Or.inr rfl)))
  cases h with
  | none hBlank =>
    have hOther := (Listed.last (padded_nil_iff.mpr hBlank)).eq_map_trimmed
      (List.forall_mem_singleton.mpr (List.forall_mem_nil _))
    rw [← hOther] at hItems
    exact hSome (by simpa using hItems)
  | names hNames' hListed' =>
    have hOther := hListed'.eq_map_trimmed fun name h => solid_of_isIdentifier (hNames' name h)
    rw [← hOther] at hItems
    exact absurd (hNames' [] (hItems ▸ by simp)) (by decide)
  | variadic hNames' hListed' =>
    have hOther := hListed'.eq_map_trimmed (hNames'.solid (Or.inr (Or.inl rfl)))
    rw [← hOther] at hItems
    exact absurd (List.append_inj_right' hItems rfl) (by decide)

end Items

/-! ## The reader -/

section Reader

variable {cs piece rest last : List Char} {names : List (List Char)}

theorem isParameter_iff :
    isParameter cs = true ↔ ∃ name, isIdentifier name = true ∧ Padded name cs := by
  constructor
  · intro h
    exact ⟨trimmed cs, h, padded_trimmed cs⟩
  · rintro ⟨name, hName, hPadded⟩
    rw [isParameter, hPadded.trimmed_eq (solid_of_isIdentifier hName), hName]

theorem isLastParameter_iff : isLastParameter cs = true ↔ ∃ last, MayEnd last ∧ Padded last cs := by
  have hTrimmed : isLastParameter cs = true ↔ MayEnd (trimmed cs) := by
    rw [isLastParameter, Bool.or_eq_true, Bool.or_eq_true, decide_eq_true_eq, decide_eq_true_eq,
      or_assoc]
    rfl
  rw [hTrimmed]
  constructor
  · intro h
    exact ⟨trimmed cs, h, padded_trimmed cs⟩
  · rintro ⟨last, hLast, hPadded⟩
    rwa [hPadded.trimmed_eq hLast.solid]

theorem closesList_cons (c : Char) (h : rest ≠ []) :
    closesList piece (c :: rest)
      = if c = ',' then isParameter piece && closesList [] rest
        else closesList (piece ++ [c]) rest := by
  cases rest with
  | nil => exact absurd rfl h
  | cons d rest => rw [closesList]; exact List.cons_ne_nil d rest

/-- Up to the next comma, the reader gathers the characters of one item. -/
theorem closesList_append (h : ',' ∉ cs) (hRest : rest ≠ []) :
    closesList piece (cs ++ rest) = closesList (piece ++ cs) rest := by
  induction cs generalizing piece with
  | nil => rw [List.nil_append, List.append_nil]
  | cons c cs ih =>
    rw [List.mem_cons, not_or] at h
    rw [List.cons_append, closesList_cons c (by simp [hRest]), if_neg (Ne.symm h.1), ih h.2,
      List.append_assoc, List.singleton_append]

theorem closesList_of_listed (hNames : AllNames names) (hLast : MayEnd last)
    (h : Listed (names ++ [last]) cs) : closesList [] (cs ++ [')']) = true := by
  induction names generalizing cs with
  | nil =>
    have hPadded := listed_singleton_iff.mp h
    rw [closesList_append (hPadded.comma_notMem hLast.solid) (List.cons_ne_nil _ _),
      List.nil_append, closesList, isLastParameter_iff.mpr ⟨last, hLast, hPadded⟩]
    rfl
  | cons name names ih =>
    obtain ⟨hName, hNames⟩ := List.forall_mem_cons.mp hNames
    obtain ⟨front, rest, rfl, hPadded, hRest⟩ := exists_of_listed_cons h (by simp)
    have hFront : ',' ∉ front := hPadded.comma_notMem (solid_of_isIdentifier hName)
    rw [List.append_assoc, List.cons_append, closesList_append hFront (List.cons_ne_nil _ _),
      closesList_cons _ (by simp), if_pos rfl, List.nil_append,
      isParameter_iff.mpr ⟨name, hName, hPadded⟩, ih hNames hRest]
    rfl

/-- What the reader accepts behind the characters of an item, it accepts as the rest of a list. -/
theorem exists_listed_of_closesList (h : closesList piece cs = true) :
    ∃ list names last, cs = list ++ [')'] ∧ AllNames names ∧ MayEnd last ∧
      Listed (names ++ [last]) (piece ++ list) := by
  fun_induction closesList piece cs with
  | case1 => exact absurd h (by simp)
  | case2 piece c =>
    rw [Bool.and_eq_true, beq_iff_eq] at h
    obtain ⟨rfl, hPiece⟩ := h
    obtain ⟨last, hLast, hPadded⟩ := isLastParameter_iff.mp hPiece
    exact ⟨[], [], last, rfl, List.forall_mem_nil _, hLast, .last (by rwa [List.append_nil])⟩
  | case3 piece cs _ ih =>
    rw [Bool.and_eq_true] at h
    obtain ⟨name, hName, hPadded⟩ := isParameter_iff.mp h.1
    obtain ⟨list, names, last, rfl, hNames, hLast, hListed⟩ := ih h.2
    exact ⟨',' :: list, name :: names, last, rfl, List.forall_mem_cons.mpr ⟨hName, hNames⟩, hLast,
      .cons hPadded hListed⟩
  | case4 piece c cs _ _ ih =>
    obtain ⟨list, names, last, rfl, hNames, hLast, hListed⟩ := ih h
    refine ⟨c :: list, names, last, rfl, hNames, hLast, ?_⟩
    rwa [List.append_assoc] at hListed

/-- The reader accepts lists that are well formed or have a comma too many, with a parenthesis. -/
theorem closesList_iff :
    closesList [] cs = true ↔ ∃ list, cs = list ++ [')'] ∧ (Parameters list ∨ Dangling list) := by
  constructor
  · intro h
    obtain ⟨list, names, last, rfl, hNames, hLast, hListed⟩ := exists_listed_of_closesList h
    exact ⟨list, rfl, exists_listed_iff.mp ⟨names, last, hNames, hLast, hListed⟩⟩
  · rintro ⟨list, rfl, h⟩
    obtain ⟨names, last, hNames, hLast, hListed⟩ := exists_listed_iff.mpr h
    exact closesList_of_listed hNames hLast hListed

end Reader

end DeclSurface
