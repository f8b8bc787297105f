import DeclSurface.CompilerFlags

/-!
# Quoted arguments

Quotes and backslashes let an argument hold any characters: blanks, quotes and backslashes too, or
none at all. An argument is written in pieces, each of them in one of three ways, and the pieces
follow one another directly. Arguments are set apart by blanks.

Splitting undoes all of that. While it reads a piece, the argument that has begun grows by just the
characters that the piece stands for, whatever was read of the argument before.

* `WrittenAs`            — the ways of writing an argument.
* `LineOf`               — written arguments, with blanks between them.
* `splitFrom_writtenAs`  — what reading a written argument does.
* `splitArgs_of_lineOf`  — splitting a line gives back its arguments.
-/

namespace DeclSurface

/-! ## Writing arguments -/

/-- A character between double quotes. -/
def guarded (c : Char) : List Char :=
  if c = '"' ∨ c = '\\' then ['\\', c] else [c]

/-- A character behind a backslash. -/
def escaped (c : Char) : List Char :=
  ['\\', c]

/-- A text is a way of writing the characters of an argument. -/
inductive WrittenAs : List Char → List Char → Prop where
  | double (cs : List Char) : WrittenAs cs ('"' :: (cs.flatMap guarded ++ ['"']))
  | single (cs : List Char) (h : '\'' ∉ cs) : WrittenAs cs ('\'' :: (cs ++ ['\'']))
  | escaped (cs : List Char) (h : cs ≠ []) : WrittenAs cs (cs.flatMap escaped)
  /-- Pieces of one argument follow one another directly. -/
  | glued {cs ds text rest : List Char} :
      WrittenAs cs text → WrittenAs ds rest → WrittenAs (cs ++ ds) (text ++ rest)

/-- A text consists of blanks. -/
def AllBlank (text : List Char) : Prop :=
  ∀ c ∈ text, Text.isBlank c = true

instance {text : List Char} : Decidable (AllBlank text) :=
  List.decidableBAll _ text

/-- A text holds written arguments with blanks between them; blanks may also stand at its end. -/
inductive LineOf : List String → List Char → Prop where
  | nil : LineOf [] []
  | last {arg : String} {text : List Char} : WrittenAs arg.toList text → LineOf [arg] text
  | cons {arg : String} {args : List String} {text rest : List Char} (gap : List Char) :
      WrittenAs arg.toList text → AllBlank gap → gap ≠ [] → LineOf args rest →
      LineOf (arg :: args) (text ++ (gap ++ rest))

/-! ## Reading one argument -/

variable {quoting : Quoting} {current : Option (List Char)} {arg cs text gap rest : List Char}
  {c : Char}

/-- A character behind a backslash is taken as it is. -/
theorem splitFrom_behind_backslash :
    splitFrom quoting true current (c :: rest)
      = splitFrom quoting false (some (current.getD [] ++ [c])) rest :=
  rfl

theorem splitFrom_backslash :
    splitFrom .bare false current ('\\' :: c :: rest)
      = splitFrom .bare false (some (current.getD [] ++ [c])) rest :=
  rfl

/-- Between double quotes the characters are taken as they are meant. -/
theorem splitFrom_guarded (cs arg rest : List Char) :
    splitFrom .double false (some arg) (cs.flatMap guarded ++ '"' :: rest)
      = splitFrom .bare false (some (arg ++ cs)) rest := by
  induction cs generalizing arg with
  | nil =>
    rw [List.append_nil]
    rfl
  | cons c cs ih =>
    have hNext : splitFrom .double false (some (arg ++ [c])) (cs.flatMap guarded ++ '"' :: rest)
        = splitFrom .bare false (some (arg ++ c :: cs)) rest := by
      rw [ih, List.append_assoc, List.singleton_append]
    rw [List.flatMap_cons, List.append_assoc, ← hNext]
    by_cases hSpecial : c = '"' ∨ c = '\\'
    · rw [guarded, if_pos hSpecial]
      exact splitFrom_behind_backslash
    · rw [not_or] at hSpecial
      have hPlain : guarded c = [c] := if_neg (not_or.mpr hSpecial)
      rw [hPlain, List.singleton_append, splitFrom, if_neg Bool.false_ne_true]
      show (if c = '"' then _ else if c = '\\' then _ else _) = _
      rw [if_neg hSpecial.1, if_neg hSpecial.2]
      rfl

/-- Between single quotes every character is taken as it is, but for the quote itself. -/
theorem splitFrom_single (h : '\'' ∉ cs) (arg rest : List Char) :
    splitFrom .single false (some arg) (cs ++ '\'' :: rest)
      = splitFrom .bare false (some (arg ++ cs)) rest := by
  induction cs generalizing arg with
  | nil =>
    rw [List.append_nil]
    rfl
  | cons c cs ih =>
    obtain ⟨hc, hcs⟩ := List.ne_and_not_mem_of_not_mem_cons h
    rw [List.cons_append, splitFrom, if_neg Bool.false_ne_true]
    show (if c = '\'' then _ else _) = _
    rw [if_neg (Ne.symm hc), pushArg, Option.getD_some, ih hcs, List.append_assoc,
      List.singleton_append]

/-- Characters behind backslashes are added to the argument that has begun. -/
theorem splitFrom_escaped (cs arg rest : List Char) :
    splitFrom .bare false (some arg) (cs.flatMap escaped ++ rest)
      = splitFrom .bare false (some (arg ++ cs)) rest := by
  induction cs generalizing arg with
  | nil => rw [List.append_nil, List.flatMap_nil, List.nil_append]
  | cons c cs ih =>
    rw [List.flatMap_cons, List.append_assoc]
    show splitFrom .bare false (some arg) ('\\' :: c :: (cs.flatMap escaped ++ rest)) = _
    rw [splitFrom_backslash, Option.getD_some, ih, List.append_assoc, List.singleton_append]

/--
Reading a written argument adds its characters to what has been read of the argument. The argument
has begun then even if there are no characters to add.
-/
theorem splitFrom_writtenAs (h : WrittenAs cs text) (current : Option (List Char))
    (rest : List Char) :
    splitFrom .bare false current (text ++ rest)
      = splitFrom .bare false (some (current.getD [] ++ cs)) rest := by
  induction h generalizing current rest with
  | double cs =>
    rw [List.cons_append, List.append_assoc, List.singleton_append, ← splitFrom_guarded]
    rfl
  | single cs hFree =>
    rw [List.cons_append, List.append_assoc, List.singleton_append, ← splitFrom_single hFree]
    rfl
  | escaped cs hSome =>
    obtain ⟨c, cs, rfl⟩ := List.exists_cons_of_ne_nil hSome
    rw [List.flatMap_cons, List.append_assoc]
    -- the first backslash begins the argument, and from there on it has begun
    show splitFrom .bare false current ('\\' :: c :: (cs.flatMap escaped ++ rest)) = _
    rw [splitFrom_backslash, splitFrom_escaped, List.append_assoc, List.singleton_append]
  | @glued cs ds text text' _ _ ihFirst ihSecond =>
    rw [List.append_assoc, ihFirst, ihSecond, Option.getD_some, List.append_assoc]

/-! ## Reading a line -/

/-- A blank outside quotes ends the argument that has begun, if one has. -/
theorem splitFrom_blank (h : Text.isBlank c = true) :
    splitFrom .bare false current (c :: rest)
      = closeArg current ++ splitFrom .bare false none rest := by
  have hBackslash : c ≠ '\\' := by
    rintro rfl
    exact absurd h (by decide)
  have hSingle : c ≠ '\'' := by
    rintro rfl
    exact absurd h (by decide)
  have hDouble : c ≠ '"' := by
    rintro rfl
    exact absurd h (by decide)
  simp only [splitFrom, Bool.false_eq_true, if_false, if_neg hBackslash, if_neg hSingle,
    if_neg hDouble, if_pos h]

theorem splitFrom_allBlank (h : AllBlank gap) (rest : List Char) :
    splitFrom .bare false none (gap ++ rest) = splitFrom .bare false none rest := by
  induction gap with
  | nil => rfl
  | cons c gap ih =>
    obtain ⟨hc, hGap⟩ := List.forall_mem_cons.mp h
    rw [List.cons_append, splitFrom_blank hc, ih hGap]
    rfl

/-- A run of blanks ends the argument that has begun, and no other. -/
theorem splitFrom_gap (h : AllBlank gap) (hSome : gap ≠ []) (arg rest : List Char) :
    splitFrom .bare false (some arg) (gap ++ rest)
      = String.ofList arg :: splitFrom .bare false none rest := by
  obtain ⟨c, gap, rfl⟩ := List.exists_cons_of_ne_nil hSome
  obtain ⟨hc, hGap⟩ := List.forall_mem_cons.mp h
  rw [List.cons_append, splitFrom_blank hc, splitFrom_allBlank hGap]
  rfl

theorem splitFrom_lineOf {args : List String} (h : LineOf args text) :
    splitFrom .bare false none text = args := by
  -- before every argument of the line the reader is bare, with no argument begun
  induction h with
  | nil => rfl
  | @last arg text hArg =>
    have hRead := splitFrom_writtenAs hArg none []
    rw [List.append_nil] at hRead
    rw [hRead]
    show [String.ofList arg.toList] = [arg]
    rw [String.ofList_toList]
  | @cons arg args text rest gap hArg hGap hSome _ ih =>
    rw [splitFrom_writtenAs hArg, splitFrom_gap hGap hSome, ih]
    show String.ofList arg.toList :: args = arg :: args
    rw [String.ofList_toList]

/--
Splitting a line gives back the arguments that are written in it: each of them once, in order, and
with the characters that it was written for. Blanks may stand around the arguments.
-/
theorem splitArgs_of_lineOf {args : List String} {lead : List Char} (hLead : AllBlank lead)
    (h : LineOf args text) : splitArgs (String.ofList (lead ++ text)) = args := by
  rw [splitArgs, String.toList_ofList, splitFrom_allBlank hLead]
  exact splitFrom_lineOf h

/-- An argument of three pieces, each written in another way, and an empty one behind it. -/
theorem splitArgs_of_lineOf_sample :
    AllBlank ['\t'] ∧
      LineOf ["-D\" \\", ""] "\"-D\"\\\"\\ '\\'  '' ".toList ∧
      splitArgs (String.ofList (['\t'] ++ "\"-D\"\\\"\\ '\\'  '' ".toList)) = ["-D\" \\", ""] := by
  have hLead : AllBlank ['\t'] := by
    decide
  have hArg : WrittenAs "-D\" \\".toList "\"-D\"\\\"\\ '\\'".toList :=
    ((WrittenAs.double "-D".toList).glued (.escaped "\" ".toList (by decide))).glued
      (.single ['\\'] (by decide))
  have hNothing : WrittenAs "".toList "''".toList :=
    .single [] (by decide)
  have hEmpty : LineOf [""] "'' ".toList :=
    .cons [' '] hNothing (by decide) (by decide) .nil
  have hLine : LineOf ["-D\" \\", ""] "\"-D\"\\\"\\ '\\'  '' ".toList :=
    .cons [' ', ' '] hArg (by decide) (by decide) hEmpty
  exact ⟨hLead, hLine, splitArgs_of_lineOf hLead hLine⟩

end DeclSurface
