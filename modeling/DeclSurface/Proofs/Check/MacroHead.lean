import DeclSurface.Proofs.Check.Merging
import DeclSurface.Proofs.Check.ParameterList
import DeclSurface.Rewrite.Rule
import Mathlib.Computability.Language

/-!
# Symbols of rewrites

A check looks at the symbols of rewrites and reports those that cannot start a definition of a
macro. Which ones these are is a pattern: an identifier, and a parameter list behind it or none. The
pattern lets a comma stand behind the last name of a list, so it accepts every head of a macro that
is well formed, and beyond these just the heads with one comma too many.

* `symbolPattern`         — the pattern, as a language.
* `HeadWith`              — a name, with a list of some sort in parentheses behind it or none.
* `isMacroHead_iff`, `mem_symbolPattern_iff` — reader and pattern accept the same heads.
* `macroName_of_headWith` — the macro that a head defines is the name it starts with.
* `exists_reported_iff`   — the symbols that a report names.
* `SymbolChecked`         — what is promised about a symbol and the report on a library.
* `Library.symbolChecked` — the promise is kept for every library and text.
* `Library.check_overlooks_comma` — a head with a comma too many, of which nothing is reported.
-/

namespace DeclSurface

open Text
open scoped Computability

/-! ## The pattern -/

/-- The texts of one character of a class. -/
def oneOf (p : Char → Bool) : Language Char :=
  {cs | ∃ c, p c = true ∧ cs = [c]}

/-- A character that starts an identifier, and any number of those that go on with one. -/
def identifiers : Language Char :=
  oneOf isIdentStart * (oneOf isIdentPart)∗

/-- Any number of blanks. -/
def blankRuns : Language Char :=
  (oneOf isBlank)∗

/-- What the pattern lets stand between parentheses. -/
def parameterPattern : Language Char :=
  blankRuns * (identifiers * blankRuns * {[',']} * blankRuns)∗ * (1 + (identifiers + {dots}))
    * blankRuns

/-- The pattern of symbols. -/
def symbolPattern : Language Char :=
  identifiers * (1 + {['(']} * parameterPattern * {[')']})

section Pattern

variable {cs : List Char} {p : Char → Bool}

theorem mem_kstar_oneOf_iff : cs ∈ (oneOf p)∗ ↔ ∀ c ∈ cs, p c = true := by
  rw [Language.mem_kstar]
  constructor
  · rintro ⟨pieces, rfl, hPieces⟩ c hc
    obtain ⟨piece, hPiece, hc⟩ := List.mem_flatten.mp hc
    obtain ⟨d, hd, rfl⟩ := hPieces piece hPiece
    rwa [List.mem_singleton.mp hc]
  · intro h
    refine ⟨cs.map fun c => [c], ?_, ?_⟩
    · rw [← List.flatMap_def, List.flatMap_singleton']
    · intro piece hPiece
      obtain ⟨c, hc, rfl⟩ := List.mem_map.mp hPiece
      exact ⟨c, h c hc, rfl⟩

theorem mem_identifiers_iff : cs ∈ identifiers ↔ isIdentifier cs = true := by
  rw [identifiers, Language.mem_mul]
  constructor
  · rintro ⟨_, ⟨c, hc, rfl⟩, rest, hRest, rfl⟩
    rw [List.singleton_append, isIdentifier, hc,
      List.all_eq_true.mpr (mem_kstar_oneOf_iff.mp hRest)]
    rfl
  · intro h
    cases cs with
    | nil => exact absurd h (by simp [isIdentifier])
    | cons c cs =>
      rw [isIdentifier, Bool.and_eq_true, List.all_eq_true] at h
      exact ⟨[c], ⟨c, h.1, rfl⟩, cs, mem_kstar_oneOf_iff.mpr h.2, rfl⟩

theorem mem_blankRuns_iff : cs ∈ blankRuns ↔ AllBlank cs :=
  mem_kstar_oneOf_iff

theorem mem_last_iff : cs ∈ (1 + (identifiers + {dots}) : Language Char) ↔ MayEnd cs := by
  rw [Language.mem_add, Language.mem_add, Language.mem_one, mem_identifiers_iff]
  exact or_comm.trans or_assoc

/-- A name with the comma behind it, and the blanks after both. -/
theorem mem_step_iff :
    cs ∈ identifiers * blankRuns * {[',']} * blankRuns ↔
      ∃ name after before, isIdentifier name = true ∧ AllBlank after ∧ AllBlank before ∧
        cs = name ++ after ++ ',' :: before := by
  simp only [Language.mem_mul, mem_identifiers_iff, mem_blankRuns_iff]
  constructor
  · rintro ⟨_, ⟨_, ⟨name, hName, after, hAfter, rfl⟩, _, rfl, rfl⟩, before, hBefore, rfl⟩
    exact ⟨name, after, before, hName, hAfter, hBefore, by simp⟩
  · rintro ⟨name, after, before, hName, hAfter, hBefore, rfl⟩
    exact ⟨_, ⟨_, ⟨name, hName, after, hAfter, rfl⟩, _, rfl, rfl⟩, before, hBefore, by simp⟩

/-- Names with commas behind them, and then something last, are a list. -/
theorem exists_listed_of_steps {before last after : List Char} (hBefore : AllBlank before)
    (hAfter : AllBlank after) {steps : List (List Char)}
    (hSteps : ∀ step ∈ steps, step ∈ identifiers * blankRuns * {[',']} * blankRuns) :
    ∃ names, AllNames names ∧
      Listed (names ++ [last]) (before ++ (steps.flatten ++ (last ++ after))) := by
  induction steps generalizing before with
  | nil => exact ⟨[], List.forall_mem_nil _, .last ⟨before, after, rfl, hBefore, hAfter⟩⟩
  | cons step steps ih =>
    obtain ⟨hStep, hLater⟩ := List.forall_mem_cons.mp hSteps
    obtain ⟨name, gap, next, hName, hGap, hNext, rfl⟩ := mem_step_iff.mp hStep
    obtain ⟨names, hNames, hListed⟩ := ih hNext hLater
    refine ⟨name :: names, List.forall_mem_cons.mpr ⟨hName, hNames⟩, ?_⟩
    have hPadded : Padded name (before ++ (name ++ gap)) := ⟨before, gap, rfl, hBefore, hGap⟩
    simpa using Listed.cons hPadded hListed

theorem exists_steps_of_listed {last : List Char} {names : List (List Char)}
    (hNames : AllNames names) (h : Listed (names ++ [last]) cs) :
    ∃ (before : List Char) (steps : List (List Char)) (after : List Char),
      AllBlank before ∧ AllBlank after ∧
      (∀ step ∈ steps, step ∈ identifiers * blankRuns * {[',']} * blankRuns) ∧
      cs = before ++ (steps.flatten ++ (last ++ after)) := by
  induction names generalizing cs with
  | nil =>
    obtain ⟨before, after, rfl, hBefore, hAfter⟩ := listed_singleton_iff.mp h
    exact ⟨before, [], after, hBefore, hAfter, List.forall_mem_nil _, rfl⟩
  | cons name names ih =>
    obtain ⟨hName, hNames⟩ := List.forall_mem_cons.mp hNames
    obtain ⟨_, rest, rfl, ⟨before, gap, rfl, hBefore, hGap⟩, hRest⟩ :=
      exists_of_listed_cons h (by simp)
    obtain ⟨next, steps, after, hNext, hAfter, hSteps, rfl⟩ := ih hNames hRest
    refine ⟨before, (name ++ gap ++ ',' :: next) :: steps, after, hBefore, hAfter, ?_, by simp⟩
    exact List.forall_mem_cons.mpr
      ⟨mem_step_iff.mpr ⟨name, gap, next, hName, hGap, hNext, rfl⟩, hSteps⟩

theorem mem_parameterPattern_iff : cs ∈ parameterPattern ↔ Parameters cs ∨ Dangling cs := by
  rw [← exists_listed_iff, parameterPattern]
  constructor
  · intro h
    obtain ⟨_, ⟨_, ⟨before, hBefore, _, hStar, rfl⟩, last, hLast, rfl⟩, after, hAfter, rfl⟩ := h
    obtain ⟨steps, rfl, hSteps⟩ := Language.mem_kstar.mp hStar
    have hEnd : MayEnd last := mem_last_iff.mp hLast
    obtain ⟨names, hNames, hListed⟩ := exists_listed_of_steps (mem_blankRuns_iff.mp hBefore)
      (mem_blankRuns_iff.mp hAfter) hSteps
    exact ⟨names, last, hNames, hEnd, by simpa using hListed⟩
  · rintro ⟨names, last, hNames, hLast, hListed⟩
    obtain ⟨before, steps, after, hBefore, hAfter, hSteps, rfl⟩ :=
      exists_steps_of_listed hNames hListed
    refine ⟨_, ⟨_, ⟨before, mem_blankRuns_iff.mpr hBefore, steps.flatten,
      Language.join_mem_kstar hSteps, rfl⟩, last, mem_last_iff.mpr hLast, rfl⟩, after,
      mem_blankRuns_iff.mpr hAfter, ?_⟩
    simp

end Pattern

/-! ## Heads of macros -/

/-- A name, or a name with a list of some sort in parentheses directly behind it. -/
inductive HeadWith (sort : List Char → Prop) (name : List Char) : List Char → Prop where
  | plain : HeadWith sort name name
  | applied {list : List Char} : sort list → HeadWith sort name (name ++ '(' :: (list ++ [')']))

section Head

variable {sort : List Char → Prop} {name cs : List Char} {s : String}

theorem takeWhile_isIdentPart (h : isIdentifier name = true) (rest : List Char)
    (hRest : rest.head? = none ∨ rest.head? = some '(') :
    (name ++ rest).takeWhile isIdentPart = name ∧ (name ++ rest).dropWhile isIdentPart = rest := by
  have hName : ∀ c ∈ name, isIdentPart c = true := fun c hc => Gate.isIdentPart_of_mem h hc
  have hStop : rest.takeWhile isIdentPart = [] ∧ rest.dropWhile isIdentPart = rest := by
    cases rest with
    | nil => exact ⟨rfl, rfl⟩
    | cons c rest =>
      have hc : c = '(' := by simpa using hRest
      have hNot : ¬ isIdentPart c = true := by rw [hc]; decide
      exact ⟨List.takeWhile_cons_of_neg hNot, List.dropWhile_cons_of_neg hNot⟩
  rw [List.takeWhile_append_of_pos hName, List.dropWhile_append_of_pos hName, hStop.1, hStop.2,
    List.append_nil]
  exact ⟨rfl, rfl⟩

/-- The reader takes a name and what closes a list behind it for a head. -/
theorem isMacroHead_iff :
    isMacroHead s = true ↔
      ∃ name, isIdentifier name = true ∧
        HeadWith (fun list => Parameters list ∨ Dangling list) name s.toList := by
  rw [isMacroHead, Bool.and_eq_true]
  constructor
  · rintro ⟨hName, hRest⟩
    refine ⟨_, hName, ?_⟩
    have hSplit := List.takeWhile_append_dropWhile (p := isIdentPart) (l := s.toList)
    generalize s.toList.takeWhile isIdentPart = name at hSplit
    rw [← hSplit]
    cases hDrop : s.toList.dropWhile isIdentPart with
    | nil =>
      rw [List.append_nil]
      exact .plain
    | cons c cs =>
      rw [hDrop] at hRest
      dsimp only at hRest
      rw [Bool.and_eq_true, beq_iff_eq] at hRest
      obtain ⟨rfl, hCloses⟩ := hRest
      obtain ⟨list, rfl, hList⟩ := closesList_iff.mp hCloses
      exact .applied hList
  · rintro ⟨name, hName, hHead⟩
    generalize s.toList = cs at hHead
    cases hHead with
    | plain =>
      obtain ⟨hTake, hDrop⟩ := takeWhile_isIdentPart hName [] (Or.inl rfl)
      rw [List.append_nil] at hTake hDrop
      rw [hTake, hDrop]
      exact ⟨hName, rfl⟩
    | @applied list hList =>
      obtain ⟨hTake, hDrop⟩ :=
        takeWhile_isIdentPart hName ('(' :: (list ++ [')'])) (Or.inr rfl)
      rw [hTake, hDrop]
      refine ⟨hName, ?_⟩
      dsimp only
      rw [closesList_iff.mpr ⟨list, rfl, hList⟩]
      rfl

theorem mem_symbolPattern_iff :
    cs ∈ symbolPattern ↔
      ∃ name, isIdentifier name = true ∧
        HeadWith (fun list => Parameters list ∨ Dangling list) name cs := by
  rw [symbolPattern, Language.mem_mul]
  constructor
  · rintro ⟨name, hName, rest, hRest, rfl⟩
    refine ⟨name, mem_identifiers_iff.mp hName, ?_⟩
    rcases (Language.mem_add _ _ _).mp hRest with hNone | hList
    · rw [(Language.mem_one _).mp hNone, List.append_nil]
      exact .plain
    · obtain ⟨_, ⟨_, rfl, list, hList, rfl⟩, _, rfl, rfl⟩ := hList
      exact .applied (mem_parameterPattern_iff.mp hList)
  · rintro ⟨name, hName, hHead⟩
    refine ⟨name, mem_identifiers_iff.mpr hName, ?_⟩
    cases hHead with
    | plain => exact ⟨[], (Language.mem_add _ _ _).mpr (Or.inl rfl), List.append_nil _⟩
    | @applied list hList =>
      refine ⟨'(' :: (list ++ [')']), (Language.mem_add _ _ _).mpr (Or.inr ?_), rfl⟩
      exact ⟨_, ⟨_, rfl, list, mem_parameterPattern_iff.mpr hList, rfl⟩, _, rfl, rfl⟩

/-- The macro that a head defines is the name that it starts with. -/
theorem macroName_of_headWith (hName : isIdentifier name = true) (h : HeadWith sort name s.toList) :
    macroName s = String.ofList name := by
  have hNoParen : ∀ c ∈ name, (c != '(') = true := by
    intro c hc
    rw [bne_iff_ne]
    rintro rfl
    exact absurd (Gate.isIdentPart_of_mem hName hc) (by decide)
  have hFront : s.toList.takeWhile (· != '(') = name := by
    generalize s.toList = cs at h
    cases h with
    | plain => exact List.takeWhile_eq_self_iff.mpr hNoParen
    | applied hList =>
      rw [List.takeWhile_append_of_pos hNoParen, List.takeWhile_cons_of_neg (by decide),
        List.append_nil]
  have hPadded : Padded name name :=
    ⟨[], [], (List.append_nil name).symm, List.forall_mem_nil _, List.forall_mem_nil _⟩
  have hTrim : trimBlank (String.ofList name) = String.ofList (trimmed name) := by
    rw [trimBlank, String.toList_ofList]
    rfl
  rw [macroName, hFront, hTrim, hPadded.trimmed_eq (solid_of_isIdentifier hName)]

/-- A text whose list has a comma too many cannot be read as one with a well-formed list. -/
theorem HeadWith.not_of_dangling {list : List Char} (hList : Dangling list)
    (hName : isIdentifier name = true) {other : List Char} (hOther : isIdentifier other = true) :
    ¬ HeadWith Parameters other (name ++ '(' :: (list ++ [')'])) := by
  intro hHead
  obtain ⟨hTake, hDrop⟩ :=
    takeWhile_isIdentPart hName ('(' :: (list ++ [')'])) (Or.inr rfl)
  generalize hText : name ++ '(' :: (list ++ [')']) = cs at hHead hTake hDrop
  cases hHead with
  | plain =>
    obtain ⟨-, hNone⟩ := takeWhile_isIdentPart hOther [] (Or.inl rfl)
    rw [List.append_nil, hDrop] at hNone
    exact absurd hNone (List.cons_ne_nil _ _)
  | @applied list' hParameters =>
    obtain ⟨-, hRest⟩ :=
      takeWhile_isIdentPart hOther ('(' :: (list' ++ [')'])) (Or.inr rfl)
    rw [hDrop] at hRest
    obtain rfl : list = list' := List.append_cancel_right (List.cons.inj hRest).2
    exact hParameters.not_dangling hList

/-- What is accepted and not well formed has a comma too many. -/
theorem accepted_and_not_headWith_iff :
    ((∃ name, isIdentifier name = true ∧
          HeadWith (fun list => Parameters list ∨ Dangling list) name cs) ∧
        ¬ ∃ name, isIdentifier name = true ∧ HeadWith Parameters name cs) ↔
      ∃ name list, isIdentifier name = true ∧ Dangling list ∧
        cs = name ++ '(' :: (list ++ [')']) := by
  constructor
  · rintro ⟨⟨name, hName, hHead⟩, hNot⟩
    cases hHead with
    | plain => exact absurd ⟨cs, hName, .plain⟩ hNot
    | @applied list hList =>
      rcases hList with hList | hList
      · exact absurd ⟨name, hName, .applied hList⟩ hNot
      · exact ⟨name, list, hName, hList, rfl⟩
  · rintro ⟨name, list, hName, hList, rfl⟩
    refine ⟨⟨name, hName, .applied (Or.inr hList)⟩, ?_⟩
    rintro ⟨other, hOther, hHead⟩
    exact HeadWith.not_of_dangling hList hName hOther hHead

end Head

/-! ## Reports -/

namespace Finding

variable {f : Finding} {s : String}

/-- What is said of a symbol. -/
def symbolMessage (s : String) : String :=
  "invalid rewrite symbol `" ++ s ++ "`"

theorem prefix_toList_append (a b : String) : a.toList <+: (a ++ b).toList := by
  rw [String.toList_append]
  exact List.prefix_append _ _

/-- Nothing else is worded like the finding about a symbol. -/
theorem eq_rewriteSymbol_of_message (h : f.diagnostic.message = symbolMessage s) :
    f = .rewriteSymbol s := by
  have hSymbol : "invalid rewrite".toList <+: f.diagnostic.message.toList := by
    rw [h]
    exact ((prefix_toList_append "invalid rewrite" " symbol `").trans
      (prefix_toList_append _ s)).trans (prefix_toList_append _ "`")
  have hSort : f.sort = .name := by
    obtain ⟨rest, hRest⟩ := hSymbol
    rw [← sort_diagnostic, Diagnostic.sort, ← hRest]
    exact if_pos rfl
  -- the second word tells the three kinds of names apart
  have hOther {start : String} (hStart : start.toList <+: f.diagnostic.message.toList) :
      start.toList <+: "invalid rewrite".toList ∨ "invalid rewrite".toList <+: start.toList :=
    List.prefix_or_prefix_of_prefix hStart hSymbol
  cases f with
  | fragmentName name =>
    have hStart := (prefix_toList_append "invalid fragment name `" name).trans
      (prefix_toList_append _ "`")
    exact absurd (hOther hStart) (by decide)
  | flagName flag place =>
    have hStart := ((prefix_toList_append "invalid flag `" flag).trans
      (prefix_toList_append _ "` in ")).trans (prefix_toList_append _ place.text)
    exact absurd (hOther hStart) (by decide)
  | rewriteSymbol symbol =>
    rw [(String.append_right_inj _).mp ((String.append_left_inj _).mp h)]
  | _ => exact absurd hSort (by simp [sort])

theorem rewriteSymbol_notMem_flagFindings (flags : List String) (place : FlagPlace) :
    .rewriteSymbol s ∉ flagFindings flags place := by
  intro h
  obtain ⟨flag, -, hFlag⟩ := List.mem_map.mp h
  cases hFlag

theorem rewriteSymbol_notMem_fragment (g : Fragment) (nested : Bool) :
    .rewriteSymbol s ∉ g.findings nested := by
  rw [Fragment.findings, List.mem_append, List.mem_append]
  rintro ((hName | hFlag) | hEmpty)
  · split at hName <;> simp_all
  · exact rewriteSymbol_notMem_flagFindings _ _ hFlag
  · split at hEmpty <;> simp_all

theorem rewriteSymbol_mem_rule_iff (r : RewriteRule) :
    .rewriteSymbol s ∈ r.findings ↔ r.symbol = s ∧ ¬ isMacroHead s = true := by
  rw [RewriteRule.findings, List.mem_append, List.mem_append]
  constructor
  · rintro ((hSymbol | hUnscoped) | hFlag)
    · split at hSymbol
      · exact absurd hSymbol List.not_mem_nil
      · next hNot =>
        obtain rfl : s = r.symbol := by simpa using hSymbol
        exact ⟨rfl, hNot⟩
    · split at hUnscoped <;> simp_all
    · exact absurd hFlag (rewriteSymbol_notMem_flagFindings _ _)
  · rintro ⟨rfl, hNot⟩
    exact Or.inl (Or.inl (by rw [if_neg hNot]; exact List.mem_cons_self))

end Finding

namespace Library

variable {l : Library} {s : String}

/-- A symbol is found fault with if and only if some rule has it and it is no head of a macro. -/
theorem rewriteSymbol_mem_findings_iff :
    .rewriteSymbol s ∈ l.findings ↔
      (∃ r ∈ l.rewrites, r.symbol = s) ∧ ¬ isMacroHead s = true := by
  have hNames : .rewriteSymbol s ∈ l.nameFindings ↔
      ∃ r ∈ l.rewrites, .rewriteSymbol s ∈ r.findings := by
    simp only [nameFindings, List.mem_append, List.mem_flatMap, Configuration.findings,
      Finding.rewriteSymbol_notMem_fragment, Finding.rewriteSymbol_notMem_flagFindings, and_false,
      exists_false, or_false, false_or]
  have hRules : (∃ r ∈ l.rewrites, .rewriteSymbol s ∈ r.findings) ↔
      (∃ r ∈ l.rewrites, r.symbol = s) ∧ ¬ isMacroHead s = true := by
    simp only [Finding.rewriteSymbol_mem_rule_iff, ← and_assoc, exists_and_right]
  rw [findings, List.mem_append, hNames, hRules]
  refine or_iff_left ?_
  -- registering fragments and composing them finds nothing about symbols
  split
  · intro h
    obtain ⟨t, -, ht⟩ := List.mem_flatMap.mp h
    rw [trialFindings] at ht
    split at ht <;> simp at ht
  · simp

/-- An error names a symbol if and only if some rule has it and it is no head of a macro. -/
theorem exists_reported_iff :
    (∃ d ∈ l.check.diagnostics, d.isError = true ∧ d.message = Finding.symbolMessage s) ↔
      (∃ r ∈ l.rewrites, r.symbol = s) ∧ ¬ isMacroHead s = true := by
  rw [← rewriteSymbol_mem_findings_iff]
  constructor
  · rintro ⟨d, hd, -, hMessage⟩
    obtain ⟨f, hf, rfl⟩ := List.mem_map.mp (mem_of_mem_mergeDiagnostics hd)
    rwa [← Finding.eq_rewriteSymbol_of_message hMessage]
  · intro hf
    obtain ⟨g, -, hg, hSame⟩ := exists_reported hf
    obtain rfl : g = .rewriteSymbol s :=
      Finding.eq_rewriteSymbol_of_message (Diagnostic.sameDefect_iff.mp hSame).1
    exact ⟨_, hg, rfl, rfl⟩

end Library

/-- What is promised about a symbol and the report on a library. -/
structure SymbolChecked (l : Library) (s : String) : Prop where
  /-- Of the symbols of its rules, errors name those that do not fit the pattern. -/
  reported : (∃ d ∈ l.check.diagnostics, d.isError = true ∧ d.message = Finding.symbolMessage s) ↔
    (∃ r ∈ l.rewrites, r.symbol = s) ∧ s.toList ∉ symbolPattern
  /-- A well-formed head of a macro fits the pattern. -/
  heads : ∀ name, isIdentifier name = true → HeadWith Parameters name s.toList →
    s.toList ∈ symbolPattern
  /-- What fits it otherwise is a head with a comma behind the last of its parameters. -/
  others : (s.toList ∈ symbolPattern ∧
      ¬ ∃ name, isIdentifier name = true ∧ HeadWith Parameters name s.toList) ↔
    ∃ name list, isIdentifier name = true ∧ Dangling list ∧
      s.toList = name ++ '(' :: (list ++ [')'])
  /-- The macro of a symbol that fits is the identifier it starts with. -/
  named : s.toList ∈ symbolPattern → ∃ name rest, isIdentifier name = true ∧
    s.toList = name ++ rest ∧ (rest = [] ∨ rest.head? = some '(') ∧
    macroName s = String.ofList name

namespace Library

/--
A report names the symbols that do not fit the pattern. Those that do are the well-formed heads of
macros and, beyond these, the heads with a comma too many. The macro is what they start with.
-/
theorem symbolChecked (l : Library) (s : String) : SymbolChecked l s := by
  have hFits : isMacroHead s = true ↔ s.toList ∈ symbolPattern :=
    isMacroHead_iff.trans mem_symbolPattern_iff.symm
  refine { reported := ?reported, heads := ?heads, others := ?others, named := ?named }
  case reported => rw [exists_reported_iff, hFits]
  case heads =>
    intro name hName hHead
    refine mem_symbolPattern_iff.mpr ⟨name, hName, ?_⟩
    generalize s.toList = cs at hHead
    cases hHead with
    | plain => exact .plain
    | applied hList => exact .applied (Or.inl hList)
  case others => rw [mem_symbolPattern_iff, accepted_and_not_headWith_iff]
  case named =>
    intro hSymbol
    obtain ⟨name, hName, hHead⟩ := mem_symbolPattern_iff.mp hSymbol
    have hMacro := macroName_of_headWith hName hHead
    generalize s.toList = cs at hHead
    cases hHead with
    | plain => exact ⟨name, [], hName, (List.append_nil name).symm, Or.inl rfl, hMacro⟩
    | applied => exact ⟨name, _, hName, rfl, Or.inr rfl, hMacro⟩

namespace Sample

/-- A library whose only rule has a symbol with a comma too many. -/
def careless : Library :=
  { name := "careless"
    fragments := [{ name := "a", gate := .always, items := [{ kind := .header "a.h" false }]
                    constraints := [], children := [] }]
    rewrites := [{ symbol := "F(a,)", value := "a", fragments := ["a"], restore := .reinstate
                   gate := .always }] }

end Sample

/-- A symbol that is let pass need not be a well-formed head: its list may end with a comma. -/
theorem check_overlooks_comma :
    ¬ ∀ (l : Library) (r : RewriteRule), r ∈ l.rewrites →
      ((∀ d ∈ l.check.diagnostics, d.isError = true →
          d.message ≠ Finding.symbolMessage r.symbol) ↔
        ∃ name, isIdentifier name = true ∧ HeadWith Parameters name r.symbol.toList) := by
  intro hExact
  have hDangling : Dangling ['a', ','] := by
    refine ⟨[['a']], List.cons_ne_nil _ _, List.forall_mem_singleton.mpr (by decide), ?_⟩
    have hName : Padded ['a'] ['a'] := ⟨[], [], rfl, List.forall_mem_nil _, List.forall_mem_nil _⟩
    exact .cons hName (.last (padded_nil_iff.mpr (List.forall_mem_nil _)))
  have hPasses : ∀ d ∈ Sample.careless.check.diagnostics, d.isError = true →
      d.message ≠ Finding.symbolMessage "F(a,)" := by
    intro d hd hError hMessage
    obtain ⟨-, hNot⟩ := exists_reported_iff.mp ⟨d, hd, hError, hMessage⟩
    exact hNot (by decide +kernel)
  obtain ⟨name, hName, hHead⟩ := (hExact Sample.careless _ List.mem_cons_self).mp hPasses
  have hMacro : isIdentifier ['F'] = true := by decide
  exact HeadWith.not_of_dangling hDangling hMacro hName hHead

end Library

end DeclSurface
