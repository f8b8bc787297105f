import DeclSurface.Proofs.Check.Merging

/-!
# Which failures a check reports

Every trial that fails leaves its mark on the report, but trials that fail in ways which are taken
for the same share one diagnostic: that of the first of them. It says everything that is to be said
of the others, unless the error is about two parties. A declaration that is repeated and a rewrite
that is contradicted are worded in two lines, and the second party, named in the second line, does
not count when findings are compared.

* `ComposeError.context_eq_of_sameDefect` — which errors are taken for the same and differ.
* `Library.FirstToFail`                   — the first trial that fails in a certain way.
* `Library.check_reports_first`           — that trial is reported, for all that fail like it.
* `Library.check_overlooks_second_party`  — a repetition that is nowhere reported.
-/

namespace DeclSurface

/-! ## Errors that are taken for the same -/

namespace ComposeError

variable {e e' : ComposeError} {identity symbol : String}

/-- An error about two parties, which names the second one in a second line. -/
def HasSecondParty : ComposeError → Prop
  | duplicateDeclaration _ _ _ => True
  | rewriteConflict _ _ _ _ _ => True
  | _ => False

instance (e : ComposeError) : Decidable e.HasSecondParty := by
  cases e <;> unfold HasSecondParty <;> infer_instance

theorem length_context_of_not_hasSecondParty (h : ¬ e.HasSecondParty) :
    e.diagnostic.context.length = 1 := by
  cases e <;> simp_all [HasSecondParty, diagnostic]

/-- Only a repeated declaration is worded as one. -/
theorem eq_duplicateDeclaration_of_message
    (h : e.diagnostic.message = "duplicate declaration `" ++ identity ++ "`") :
    ∃ first second, e = duplicateDeclaration identity first second := by
  cases e <;> simp_all [diagnostic, ← String.toList_inj]

theorem eq_rewriteConflict_of_message
    (h : e.diagnostic.message = "conflicting rewrites of `" ++ symbol ++ "`") :
    ∃ v f w g, e = rewriteConflict symbol v f w g := by
  cases e <;> simp_all [diagnostic, ← String.toList_inj]

/-- Errors about two parties each, of one kind and about the same thing. -/
inductive SameKind : ComposeError → ComposeError → Prop where
  /-- The first declaration is the same, and so is what declares it. -/
  | duplicateDeclaration (identity first second second' : String) :
    SameKind (.duplicateDeclaration identity first second)
      (.duplicateDeclaration identity first second')
  /-- The macro is the same. -/
  | rewriteConflict (symbol v f w g v' f' w' g' : String) :
    SameKind (.rewriteConflict symbol v f w g) (.rewriteConflict symbol v' f' w' g')

theorem sameKind_of_sameDefect (h : e.diagnostic.sameDefect e'.diagnostic = true)
    (hSecond : e'.HasSecondParty) : SameKind e e' := by
  obtain ⟨hMessage, hLine⟩ := Diagnostic.sameDefect_iff.mp h
  cases e' with
  | duplicateDeclaration identity first second =>
    obtain ⟨first', second', rfl⟩ := eq_duplicateDeclaration_of_message hMessage
    have hFirst : first' = first := by
      simpa [diagnostic, ← String.toList_inj] using hLine
    subst hFirst
    exact .duplicateDeclaration identity first' second' second
  | rewriteConflict symbol v f w g =>
    obtain ⟨v', f', w', g', rfl⟩ := eq_rewriteConflict_of_message hMessage
    exact .rewriteConflict symbol v' f' w' g' v f w g
  | _ => exact absurd hSecond (by simp [HasSecondParty])

/-- Of errors that are taken for the same, one says all that the other does but who is second. -/
theorem context_eq_of_sameDefect (h : e.diagnostic.sameDefect e'.diagnostic = true) :
    e.diagnostic.context = e'.diagnostic.context ∨ SameKind e e' := by
  by_cases hSecond : e'.HasSecondParty
  · exact Or.inr (sameKind_of_sameDefect h hSecond)
  · have hSecond' : ¬ e.HasSecondParty := by
      intro hFirst
      cases sameKind_of_sameDefect (Diagnostic.sameDefect_symm h) hFirst with
      | duplicateDeclaration => exact hSecond trivial
      | rewriteConflict => exact hSecond trivial
    -- with one line each, the first lines are all there is
    obtain ⟨line, hContext⟩ :=
      List.length_eq_one_iff.mp (length_context_of_not_hasSecondParty hSecond)
    obtain ⟨line', hContext'⟩ :=
      List.length_eq_one_iff.mp (length_context_of_not_hasSecondParty hSecond')
    have hLine := (Diagnostic.sameDefect_iff.mp h).2
    rw [hContext, hContext'] at hLine
    obtain rfl := Option.some.inj hLine
    exact Or.inl (hContext'.trans hContext.symm)

end ComposeError

/-! ## Reported trials -/

namespace Library

variable {l : Library} {store : FragmentStore} {t t₀ : Trial} {e e₀ : ComposeError}

/-- The trial fails with the error, and no earlier one fails in a way that is taken for the same. -/
def FirstToFail (l : Library) (store : FragmentStore) (t₀ : Trial) (e₀ : ComposeError) : Prop :=
  ∃ pre post, l.trials = pre ++ t₀ :: post ∧ l.outcome store t₀ = .error e₀ ∧
    ∀ t ∈ pre, ∀ e, l.outcome store t = .error e → ¬ e.diagnostic.sameDefect e₀.diagnostic = true

theorem exists_firstToFail (ht : t ∈ l.trials) (hFails : l.outcome store t = .error e) :
    ∃ t₀ e₀, l.FirstToFail store t₀ e₀ ∧ e₀.diagnostic.sameDefect e.diagnostic = true := by
  obtain ⟨pre, t₀, post, hSplit, ⟨e₀, hFails₀, hSame⟩, hPre⟩ :=
    exists_first (P := fun t => ∃ e₀, l.outcome store t = .error e₀ ∧
      e₀.diagnostic.sameDefect e.diagnostic = true)
      ⟨t, ht, e, hFails, e.diagnostic.sameDefect_self⟩
  refine ⟨t₀, e₀, ⟨pre, post, hSplit, hFails₀, ?_⟩, hSame⟩
  intro t' ht' e' hFails' hSame'
  exact hPre t' ht' ⟨e', hFails', Diagnostic.sameDefect_trans hSame' hSame⟩

/-- Looking at names alone finds nothing that is worded as a failed composition. -/
theorem sort_of_mem_nameFindings {f : Finding} (hf : f ∈ l.nameFindings) :
    f.sort ≠ .composition := by
  have hFlags {flags : List String} {place : FlagPlace} (h : f ∈ flagFindings flags place) :
      f.sort ≠ .composition := by
    obtain ⟨flag, -, rfl⟩ := List.mem_map.mp h
    simp [Finding.sort]
  have hFragment {g : Fragment} {nested : Bool} (h : f ∈ g.findings nested) :
      f.sort ≠ .composition := by
    rw [Fragment.findings, List.mem_append, List.mem_append] at h
    rcases h with (hName | hFlag) | hEmpty
    · split at hName <;> simp_all [Finding.sort]
    · exact hFlags hFlag
    · split at hEmpty <;> simp_all [Finding.sort]
  have hRule {r : RewriteRule} (h : f ∈ r.findings) : f.sort ≠ .composition := by
    rw [RewriteRule.findings, List.mem_append, List.mem_append] at h
    rcases h with (hSymbol | hUnscoped) | hFlag
    · split at hSymbol <;> simp_all [Finding.sort]
    · split at hUnscoped <;> simp_all [Finding.sort]
    · exact hFlags hFlag
  simp only [nameFindings, List.mem_append, List.mem_flatMap] at hf
  rcases hf with (⟨g, -, hTop | ⟨g', -, hNested⟩⟩ | ⟨r, -, hRewrite⟩) | ⟨c, -, hFlag⟩
  · exact hFragment hTop
  · exact hFragment hNested
  · exact hRule hRewrite
  · exact hFlags hFlag

theorem mem_trialFindings_iff {f : Finding} :
    f ∈ l.trialFindings store t ↔
      ∃ e, l.outcome store t = .error e ∧ f = .trial t e l.sources.head? := by
  unfold trialFindings
  cases l.outcome store t with
  | ok m => simp
  | error e => simp

/-- The first trial to fail is the first finding about its defect. -/
theorem firstOfDefect_of_firstToFail (hStore : l.store = .ok store)
    (h : l.FirstToFail store t₀ e₀) :
    FirstOfDefect (l.findings.map Finding.diagnostic)
      (Finding.trial t₀ e₀ l.sources.head?).diagnostic := by
  obtain ⟨pre, post, hSplit, hFails, hPre⟩ := h
  have hFindings : l.findings = (l.nameFindings ++ pre.flatMap (l.trialFindings store))
      ++ .trial t₀ e₀ l.sources.head? :: post.flatMap (l.trialFindings store) := by
    have hTrial : l.trialFindings store t₀ = [.trial t₀ e₀ l.sources.head?] := by
      rw [trialFindings, hFails]
    rw [findings, hStore]
    dsimp only
    rw [hSplit, List.flatMap_append, List.flatMap_cons, hTrial, List.append_assoc]
    rfl
  refine ⟨_, _, by rw [hFindings, List.map_append, List.map_cons], ?_⟩
  intro d hd hSame
  obtain ⟨f, hf, rfl⟩ := List.mem_map.mp hd
  rcases List.mem_append.mp hf with hName | hTrial
  · exact sort_of_mem_nameFindings hName (Finding.sort_eq_of_sameDefect hSame)
  · obtain ⟨t, ht, hFound⟩ := List.mem_flatMap.mp hTrial
    obtain ⟨e, hFails', rfl⟩ := mem_trialFindings_iff.mp hFound
    refine hPre t ht e hFails' ?_
    have hWording := Diagnostic.sameDefect_trans hSame Finding.sameDefect_trial
    exact Diagnostic.sameDefect_trans (Diagnostic.sameDefect_symm Finding.sameDefect_trial) hWording

/--
A trial that fails is in the report by one diagnostic and no other: that of the first trial to fail
in a way that is taken for the same. It has the message of the error and the first line of its
context. All lines of context are there too, unless the error is about two parties: then that first
trial may have failed with an error of the same kind that names another second party.
-/
theorem check_reports_first (hStore : l.store = .ok store) (ht : t ∈ l.trials)
    (hFails : l.outcome store t = .error e) :
    ∃ t₀ e₀ d, l.FirstToFail store t₀ e₀ ∧ d = (Finding.trial t₀ e₀ l.sources.head?).diagnostic ∧
      d ∈ l.check.diagnostics ∧ d.message = e.diagnostic.message ∧
      d.context.head? = e.diagnostic.context.head? ∧
      (d.context = e.diagnostic.context ++ [t₀.text] ∨ ComposeError.SameKind e₀ e) ∧
      ∀ d' ∈ l.check.diagnostics, d'.sameDefect e.diagnostic = true → d' = d := by
  obtain ⟨t₀, e₀, hFirst, hSame⟩ := exists_firstToFail ht hFails
  have hReported := firstOfDefect_of_firstToFail hStore hFirst
  have hWording : (Finding.trial t₀ e₀ l.sources.head?).diagnostic.sameDefect e.diagnostic = true :=
    Diagnostic.sameDefect_trans Finding.sameDefect_trial hSame
  obtain ⟨hMessage, hLine⟩ := Diagnostic.sameDefect_iff.mp hWording
  refine ⟨t₀, e₀, _, hFirst, rfl, mem_mergeDiagnostics_iff.mpr hReported, hMessage, hLine, ?_, ?_⟩
  · rw [Finding.context_trial]
    refine (ComposeError.context_eq_of_sameDefect hSame).imp_left fun hContext => ?_
    rw [hContext]
  · intro d' hd' hSame'
    have hBoth := Diagnostic.sameDefect_trans hSame' (Diagnostic.sameDefect_symm hWording)
    exact (mem_mergeDiagnostics_iff.mp hd').unique hReported hBoth

/-! ## A repetition that is not reported -/

namespace Sample

/-- A fragment with the one declaration that all fragments of the library have. -/
def repeating (name : String) : Fragment :=
  { name, gate := .always, items := [⟨.header "x.h" false, false⟩], constraints := [],
    children := [] }

/-- The configuration that leaves out `b`. -/
def withoutSecond : Configuration := { name := "ac", fragments := ["a", "c"] }

/-- A library in which `b` and `c` repeat what `a` declares. -/
def repetitive : Library :=
  { name := "repetitive"
    fragments := [repeating "a", repeating "b", repeating "c"]
    configurations :=
      ⟨[("ab", { name := "ab", fragments := ["a", "b"] }), ("ac", withoutSecond)], by decide⟩ }

def registered : FragmentStore :=
  ⟨[repeating "a", repeating "b", repeating "c"], by decide⟩

def repetition : ComposeError :=
  .duplicateDeclaration "include:x.h" "a" "c"

theorem store_repetitive : repetitive.store = .ok registered := rfl

theorem outcome_repetitive :
    repetitive.outcome registered ⟨some withoutSecond, .none⟩ = .error repetition := rfl

end Sample

theorem check_reports_first_sample :
    ∃ t₀ e₀ d, Sample.repetitive.FirstToFail Sample.registered t₀ e₀ ∧
      d = (Finding.trial t₀ e₀ none).diagnostic ∧ d ∈ Sample.repetitive.check.diagnostics ∧
      d.message = "duplicate declaration `include:x.h`" ∧
      d.context.head? = some "first declared by `a`" ∧
      (d.context = Sample.repetition.diagnostic.context ++ [t₀.text] ∨
        ComposeError.SameKind e₀ Sample.repetition) ∧
      ∀ d' ∈ Sample.repetitive.check.diagnostics,
        d'.sameDefect Sample.repetition.diagnostic = true → d' = d :=
  check_reports_first Sample.store_repetitive (t := ⟨some Sample.withoutSecond, .none⟩) (by decide)
    Sample.outcome_repetitive

/-- Not all that is to be said of a failure is in the report: `c` is named in none of its lines. -/
theorem check_overlooks_second_party :
    ¬ ∀ (l : Library) (store : FragmentStore) (t : Trial) (e : ComposeError),
      l.store = .ok store → t ∈ l.trials → l.outcome store t = .error e →
      ∃ d ∈ l.check.diagnostics, d.message = e.diagnostic.message ∧
        ∀ line ∈ e.diagnostic.context, line ∈ d.context := by
  intro hReported
  obtain ⟨d, hd, -, hLines⟩ := hReported _ _ ⟨some Sample.withoutSecond, .none⟩ _
    Sample.store_repetitive (by decide) Sample.outcome_repetitive
  have hUnnamed : ∀ d ∈ Sample.repetitive.check.diagnostics,
      "declared again by `c`" ∉ d.context := by
    decide +kernel
  exact hUnnamed d hd (hLines _ (by decide))

end Library

end DeclSurface
