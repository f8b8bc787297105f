import DeclSurface.Check.Report
import Mathlib.Data.List.Induction

/-!
# Merged findings

Findings are merged by the first two lines of their wording, so it matters which findings can have
these lines in common. Names stand inside the lines and may be anything, but each line starts with a
word that is not a name. These words tell defects of names, oddities and failed compositions apart,
and so no error is ever taken for a warning.

* `mem_mergeDiagnostics_iff`         — merging keeps each defect where it first stands.
* `Diagnostic.sort`                  — the sort of finding, as the wording tells it.
* `Finding.isError_eq_of_sameDefect` — findings that are taken for the same are equally serious.
* `Library.exists_reported`          — every finding is in the report by one taken for the same.
-/

namespace DeclSurface

/-! ## Merging -/

namespace Diagnostic

variable {a b c : Diagnostic}

theorem sameDefect_iff :
    a.sameDefect b = true ↔ a.message = b.message ∧ a.context.head? = b.context.head? := by
  simp [sameDefect]

theorem sameDefect_self (a : Diagnostic) : a.sameDefect a = true :=
  sameDefect_iff.mpr ⟨rfl, rfl⟩

theorem sameDefect_symm (h : a.sameDefect b = true) : b.sameDefect a = true := by
  obtain ⟨hMessage, hLine⟩ := sameDefect_iff.mp h
  exact sameDefect_iff.mpr ⟨hMessage.symm, hLine.symm⟩

theorem sameDefect_trans (h : a.sameDefect b = true) (h' : b.sameDefect c = true) :
    a.sameDefect c = true := by
  obtain ⟨hMessage, hLine⟩ := sameDefect_iff.mp h
  obtain ⟨hMessage', hLine'⟩ := sameDefect_iff.mp h'
  exact sameDefect_iff.mpr ⟨hMessage.trans hMessage', hLine.trans hLine'⟩

end Diagnostic

variable {ds : List Diagnostic} {d x : Diagnostic}

theorem mergeDiagnostics_concat (ds : List Diagnostic) (x : Diagnostic) :
    mergeDiagnostics (ds ++ [x]) = addDiagnostic (mergeDiagnostics ds) x := by
  rw [mergeDiagnostics, List.foldl_append]
  rfl

theorem mem_addDiagnostic_iff :
    d ∈ addDiagnostic ds x ↔
      d ∈ ds ∨ d = x ∧ ∀ e ∈ ds, ¬ e.sameDefect x = true := by
  unfold addDiagnostic
  split
  · next hSame =>
    rw [List.any_eq_true] at hSame
    obtain ⟨e, he, hSame⟩ := hSame
    constructor
    · exact Or.inl
    · rintro (hd | ⟨-, hNone⟩)
      · exact hd
      · exact absurd hSame (hNone e he)
  · next hSame =>
    rw [List.any_eq_true, not_exists] at hSame
    have hNone : ∀ e ∈ ds, ¬ e.sameDefect x = true := fun e he h => hSame e ⟨he, h⟩
    rw [List.mem_append, List.mem_singleton]
    exact or_congr_right ⟨fun h => ⟨h, hNone⟩, fun h => h.1⟩

/-- A diagnostic of the list before which none is about the same defect. -/
def FirstOfDefect (ds : List Diagnostic) (d : Diagnostic) : Prop :=
  ∃ pre post, ds = pre ++ d :: post ∧ ∀ e ∈ pre, ¬ e.sameDefect d = true

theorem firstOfDefect_concat_iff :
    FirstOfDefect (ds ++ [x]) d ↔
      FirstOfDefect ds d ∨ d = x ∧ ∀ e ∈ ds, ¬ e.sameDefect x = true := by
  constructor
  · rintro ⟨pre, post, hSplit, hPre⟩
    rcases List.eq_nil_or_concat post with rfl | ⟨post', y, rfl⟩
    · -- it is the new one
      obtain ⟨rfl, hx⟩ := List.append_inj' hSplit rfl
      obtain rfl := List.cons.inj hx |>.1
      exact Or.inr ⟨rfl, hPre⟩
    · have hInit : ds = pre ++ d :: post' := by
        rw [List.concat_eq_append, ← List.cons_append, ← List.append_assoc] at hSplit
        exact (List.append_inj' hSplit rfl).1
      exact Or.inl ⟨pre, post', hInit, hPre⟩
  · rintro (⟨pre, post, rfl, hPre⟩ | ⟨rfl, hNone⟩)
    · exact ⟨pre, post ++ [x], by simp, hPre⟩
    · exact ⟨ds, [], rfl, hNone⟩

/-- Two diagnostics about the same defect do not both stand first. -/
theorem FirstOfDefect.unique {d' : Diagnostic} (h : FirstOfDefect ds d) (h' : FirstOfDefect ds d')
    (hSame : d.sameDefect d' = true) : d = d' := by
  obtain ⟨pre, post, hSplit, hPre⟩ := h
  obtain ⟨pre', post', rfl, hPre'⟩ := h'
  rcases List.append_eq_append_iff.mp hSplit with ⟨mid, rfl, hRest⟩ | ⟨mid, rfl, hRest⟩
  · -- the second one stands between the parts of the first split, or both stand at one place
    cases mid with
    | nil => exact (List.cons.inj hRest).1.symm
    | cons y mid =>
      obtain ⟨rfl, -⟩ := List.cons.inj hRest
      exact absurd (Diagnostic.sameDefect_symm hSame) (hPre d' (by simp))
  · cases mid with
    | nil => exact (List.cons.inj hRest).1
    | cons y mid =>
      obtain ⟨rfl, -⟩ := List.cons.inj hRest
      exact absurd hSame (hPre' d (by simp))

/-- What some member of a list has, a first member has. -/
theorem exists_first {α : Type} {P : α → Prop} {xs : List α} (h : ∃ x ∈ xs, P x) :
    ∃ pre x post, xs = pre ++ x :: post ∧ P x ∧ ∀ y ∈ pre, ¬ P y := by
  classical
  obtain ⟨x, hFind⟩ : ∃ x, xs.find? (fun x => decide (P x)) = some x := by
    rw [← Option.isSome_iff_exists, List.find?_isSome]
    simpa using h
  obtain ⟨hx, pre, post, hSplit, hPre⟩ := List.find?_eq_some_iff_append.mp hFind
  exact ⟨pre, x, post, hSplit, by simpa using hx, by simpa using hPre⟩

/-- Every defect of a list has a diagnostic where it first stands. -/
theorem exists_firstOfDefect (hx : x ∈ ds) :
    ∃ d, FirstOfDefect ds d ∧ d.sameDefect x = true := by
  obtain ⟨pre, d, post, hSplit, hSame, hPre⟩ :=
    exists_first (P := fun e => e.sameDefect x = true) ⟨x, hx, x.sameDefect_self⟩
  refine ⟨d, ⟨pre, post, hSplit, ?_⟩, hSame⟩
  intro e he hed
  exact hPre e he (Diagnostic.sameDefect_trans hed hSame)

/-- Merging keeps each defect where it first stands. -/
theorem mem_mergeDiagnostics_iff : d ∈ mergeDiagnostics ds ↔ FirstOfDefect ds d := by
  induction ds using List.reverseRecOn generalizing d with
  | nil => simp [mergeDiagnostics, FirstOfDefect]
  | append_singleton ds x ih =>
    have hNone : (∀ e ∈ mergeDiagnostics ds, ¬ e.sameDefect x = true) ↔
        ∀ e ∈ ds, ¬ e.sameDefect x = true := by
      constructor
      · intro h e he hSame
        obtain ⟨e', hFirst, hSame'⟩ := exists_firstOfDefect he
        exact h e' (ih.mpr hFirst) (Diagnostic.sameDefect_trans hSame' hSame)
      · intro h e he
        obtain ⟨pre, post, rfl, -⟩ := ih.mp he
        exact h e (by simp)
    rw [mergeDiagnostics_concat, mem_addDiagnostic_iff, firstOfDefect_concat_iff, ih, hNone]

theorem mem_of_mem_mergeDiagnostics (h : d ∈ mergeDiagnostics ds) : d ∈ ds := by
  obtain ⟨pre, post, rfl, -⟩ := mem_mergeDiagnostics_iff.mp h
  simp

/-! ## What the wording tells -/

/-- The sorts of findings. -/
inductive FindingSort where
  /-- A name that is not well formed. -/
  | name
  /-- A fragment or a rule that does nothing. -/
  | idle
  /-- Fragments that do not go together. -/
  | composition
deriving DecidableEq

/-- The sort of a finding. -/
def Finding.sort : Finding → FindingSort
  | fragmentName _ => .name
  | flagName _ _ => .name
  | rewriteSymbol _ => .name
  | emptyFragment _ _ => .idle
  | unscoped _ => .idle
  | store _ => .composition
  | trial _ _ _ => .composition

/-- The sort of a finding, as the first characters of message and context tell it. -/
def Diagnostic.sort (d : Diagnostic) : FindingSort :=
  let initial := d.message.toList.head?
  let next := d.context.head?.bind (·.toList.head?)
  if initial = some 'i' then .name
  else if initial = some 'r' ∨ initial = some 'f' ∧ next = some 'i' then .idle
  else .composition

theorem Diagnostic.sort_eq_of_sameDefect {a b : Diagnostic} (h : a.sameDefect b = true) :
    a.sort = b.sort := by
  obtain ⟨hMessage, hLine⟩ := sameDefect_iff.mp h
  rw [sort, sort, hMessage, hLine]

/-- Every error has lines of context of its own, which stand before those added to it. -/
theorem ComposeError.context_ne_nil (e : ComposeError) : e.diagnostic.context ≠ [] := by
  cases e <;> simp [diagnostic]

theorem ComposeError.sort_diagnostic (e : ComposeError) : e.diagnostic.sort = .composition := by
  cases e <;> simp [diagnostic, Diagnostic.sort]

namespace Finding

variable {f g : Finding} {t : Trial} {e : ComposeError} {file : Option Path}

/-- What is said of a failed trial starts with what is said of its error. -/
theorem message_trial : (trial t e file).diagnostic.message = e.diagnostic.message :=
  rfl

theorem context_trial :
    (trial t e file).diagnostic.context = e.diagnostic.context ++ [t.text] :=
  rfl

theorem sameDefect_trial : (trial t e file).diagnostic.sameDefect e.diagnostic = true := by
  obtain ⟨line, lines, hContext⟩ := List.exists_cons_of_ne_nil e.context_ne_nil
  refine Diagnostic.sameDefect_iff.mpr ⟨message_trial, ?_⟩
  rw [context_trial, hContext]
  rfl

/-- A finding is worded so that its sort can be told. -/
theorem sort_diagnostic (f : Finding) : f.diagnostic.sort = f.sort := by
  cases f with
  | emptyFragment name nested => cases nested <;> simp [diagnostic, Diagnostic.sort, sort]
  | store e => exact e.sort_diagnostic
  | trial t e file =>
    -- the context of a trial is that of its error with one more line after it
    exact (Diagnostic.sort_eq_of_sameDefect sameDefect_trial).trans e.sort_diagnostic
  | _ => simp [diagnostic, Diagnostic.sort, sort]

theorem sort_eq_of_sameDefect (h : f.diagnostic.sameDefect g.diagnostic = true) :
    f.sort = g.sort := by
  rw [← sort_diagnostic, ← sort_diagnostic, Diagnostic.sort_eq_of_sameDefect h]

/-- Everything is an error but what does nothing. -/
theorem isError_eq_sort (f : Finding) : f.isError = (f.sort != .idle) := by
  cases f with
  | store e => cases e <;> rfl
  | trial t e file => cases e <;> rfl
  | _ => rfl

theorem isError_eq_of_sameDefect (h : f.diagnostic.sameDefect g.diagnostic = true) :
    f.isError = g.isError := by
  rw [isError_eq_sort, isError_eq_sort, sort_eq_of_sameDefect h]

end Finding

/-! ## Reports -/

namespace Library

variable {l : Library} {f : Finding}

/-- Every finding is in the report by some finding that is taken for the same. -/
theorem exists_reported (hf : f ∈ l.findings) :
    ∃ g ∈ l.findings, g.diagnostic ∈ l.check.diagnostics ∧
      g.diagnostic.sameDefect f.diagnostic = true := by
  obtain ⟨d, hFirst, hSame⟩ :=
    exists_firstOfDefect (List.mem_map_of_mem (f := Finding.diagnostic) hf)
  have hd : d ∈ l.check.diagnostics := mem_mergeDiagnostics_iff.mpr hFirst
  obtain ⟨g, hg, rfl⟩ := List.mem_map.mp (mem_of_mem_mergeDiagnostics hd)
  exact ⟨g, hg, hd, hSame⟩

end Library

end DeclSurface
