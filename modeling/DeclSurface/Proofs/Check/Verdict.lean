import DeclSurface.Proofs.Check.Merging
import DeclSurface.Proofs.Composition.Reach

/-!
# The verdict of a check

A library passes its check if nothing is wrong with it. That findings are merged does not change the
verdict: of findings that are taken for the same, one is reported, and it is an error if any of them
is.

* `Library.WellNamed`         — every name is well formed.
* `Library.isOk_iff_harmless` — a report has no errors if no finding is one.
* `Library.check_exact`       — a library passes if it is well named, goes together and composes.
-/

namespace DeclSurface

/-! ## Names -/

/-- The names of fragments, flags and macros in a library are well formed. -/
structure Library.WellNamed (l : Library) : Prop where
  fragments : ∀ f ∈ Fragment.allOf l.fragments, isFragmentName f.name = true
  fragmentGates : ∀ f ∈ Fragment.allOf l.fragments, ∀ n ∈ f.gate.mentions, isFlagName n = true
  symbols : ∀ r ∈ l.rewrites, isMacroHead r.symbol = true
  rewriteGates : ∀ r ∈ l.rewrites, ∀ n ∈ r.gate.mentions, isFlagName n = true
  configurations : ∀ c ∈ l.configurations.values, ∀ n ∈ c.flags, isFlagName n = true

/-- None of the findings is an error. -/
def Harmless (fs : List Finding) : Prop :=
  ∀ f ∈ fs, f.isError = false

section Harmless

variable {fs gs : List Finding} {f : Finding} {flags : List String} {place : FlagPlace}

theorem harmless_append_iff : Harmless (fs ++ gs) ↔ Harmless fs ∧ Harmless gs :=
  List.forall_mem_append

theorem harmless_flatMap_iff {α : Type} {xs : List α} {k : α → List Finding} :
    Harmless (xs.flatMap k) ↔ ∀ x ∈ xs, Harmless (k x) := by
  simp only [Harmless, List.mem_flatMap]
  exact ⟨fun h x hx f hf => h f ⟨x, hx, hf⟩, fun h f ⟨x, hx, hf⟩ => h x hx f hf⟩

theorem harmless_error_iff {test : Bool} (hError : f.isError = true) :
    Harmless (if test then [] else [f]) ↔ test = true := by
  cases test <;> simp [Harmless, hError]

theorem harmless_warning {test : Bool} (hWarning : f.isError = false) :
    Harmless (if test then [f] else []) := by
  cases test <;> simp [Harmless, hWarning]

theorem harmless_flagFindings_iff :
    Harmless (flagFindings flags place) ↔ ∀ n ∈ flags, isFlagName n = true := by
  have hError (n : String) : (Finding.flagName n place).isError = true := rfl
  simp only [Harmless, flagFindings, List.mem_map, List.mem_filter]
  constructor
  · intro h n hn
    by_contra hBad
    have hFound := h _ ⟨n, ⟨hn, by simpa using hBad⟩, rfl⟩
    rw [hError] at hFound
    exact absurd hFound (by decide)
  · rintro h f ⟨n, ⟨hn, hBad⟩, rfl⟩
    rw [h n hn] at hBad
    exact absurd hBad (by decide)

theorem mem_flagNames_keys {g : Gate} {n : String} : n ∈ g.flagNames.keys ↔ n ∈ g.mentions := by
  rw [← NameMap.contains_iff_mem_keys, Gate.flagNames, NameSet.contains_ofNames,
    List.contains_iff_mem]

theorem Fragment.harmless_findings_iff {g : Fragment} {nested : Bool} :
    Harmless (g.findings nested) ↔
      isFragmentName g.name = true ∧ ∀ n ∈ g.gate.mentions, isFlagName n = true := by
  have hEmpty : Harmless
      (if g.items.isEmpty && g.children.isEmpty then [.emptyFragment g.name nested] else []) :=
    harmless_warning rfl
  rw [findings, harmless_append_iff, harmless_append_iff, harmless_error_iff rfl,
    harmless_flagFindings_iff, and_iff_left hEmpty]
  simp only [mem_flagNames_keys]

theorem RewriteRule.harmless_findings_iff {r : RewriteRule} :
    Harmless r.findings ↔
      isMacroHead r.symbol = true ∧ ∀ n ∈ r.gate.mentions, isFlagName n = true := by
  have hUnscoped : Harmless (if r.fragments.isEmpty then [.unscoped r.symbol] else []) :=
    harmless_warning rfl
  rw [findings, harmless_append_iff, harmless_append_iff, harmless_error_iff rfl,
    harmless_flagFindings_iff, and_iff_left hUnscoped]
  simp only [mem_flagNames_keys]

end Harmless

namespace Library

variable {l : Library} {store : FragmentStore}

/-- Names are well formed if looking at them finds no error. -/
theorem harmless_nameFindings_iff : Harmless l.nameFindings ↔ l.WellNamed := by
  -- a fragment and those nested in it are looked at in the same way
  have hTree (f : Fragment) : Harmless (f.findings false
        ++ (Fragment.allOf f.children).flatMap fun g => g.findings true) ↔
      ∀ g ∈ Fragment.all f,
        isFragmentName g.name = true ∧ ∀ n ∈ g.gate.mentions, isFlagName n = true := by
    rw [harmless_append_iff, harmless_flatMap_iff, f.all_eq_cons, List.forall_mem_cons,
      Fragment.harmless_findings_iff]
    simp only [Fragment.harmless_findings_iff]
  have hFragments : (∀ f ∈ l.fragments, Harmless (f.findings false
        ++ (Fragment.allOf f.children).flatMap fun g => g.findings true)) ↔
      ∀ g ∈ Fragment.allOf l.fragments,
        isFragmentName g.name = true ∧ ∀ n ∈ g.gate.mentions, isFlagName n = true := by
    simp only [hTree]
    simp only [Fragment.allOf_eq_flatMap l.fragments, List.mem_flatMap]
    exact ⟨fun h g ⟨f, hf, hg⟩ => h f hf g hg, fun h f hf g hg => h g ⟨f, hf, hg⟩⟩
  rw [nameFindings, harmless_append_iff, harmless_append_iff, harmless_flatMap_iff,
    harmless_flatMap_iff, harmless_flatMap_iff, hFragments]
  simp only [RewriteRule.harmless_findings_iff, Configuration.findings, harmless_flagFindings_iff]
  constructor
  · rintro ⟨⟨hFragment, hRule⟩, hConfiguration⟩
    exact {
      fragments := fun f hf => (hFragment f hf).1
      fragmentGates := fun f hf => (hFragment f hf).2
      symbols := fun r hr => (hRule r hr).1
      rewriteGates := fun r hr => (hRule r hr).2
      configurations := hConfiguration }
  · intro h
    exact ⟨⟨fun f hf => ⟨h.fragments f hf, h.fragmentGates f hf⟩,
      fun r hr => ⟨h.symbols r hr, h.rewriteGates r hr⟩⟩, h.configurations⟩

/-! ## Compositions -/

/-- Fragments that do not go together and trials that fail are errors. -/
theorem isError_trial (t : Trial) (e : ComposeError) (file : Option Path) :
    (Finding.trial t e file).isError = true := by
  rw [Finding.isError_eq_sort]
  rfl

theorem harmless_trialFindings_iff {t : Trial} :
    Harmless (l.trialFindings store t) ↔ ∃ m, l.outcome store t = .ok m := by
  unfold trialFindings
  cases l.outcome store t with
  | ok m => simp [Harmless]
  | error e => simp [Harmless, isError_trial]

/-- The trials are those of no configuration and of each one, under two flag sets. -/
theorem forall_trials_iff {P : Option Configuration → FlagSet → Prop} :
    (∀ t ∈ l.trials, P t.configuration (l.trialFlags t.flags)) ↔
      ∀ c ∈ none :: l.configurations.values.map some,
        P c .empty ∧ P c (.ofNames l.referencedFlags.keys) := by
  simp only [trials, List.mem_flatMap]
  constructor
  · intro h c hc
    exact ⟨h ⟨c, .none⟩ ⟨c, hc, by simp⟩, h ⟨c, .every⟩ ⟨c, hc, by simp⟩⟩
  · rintro h t ⟨c, hc, ht⟩
    rw [List.mem_cons, List.mem_singleton] at ht
    rcases ht with rfl | rfl
    · exact (h c hc).1
    · exact (h c hc).2

/-! ## The verdict -/

theorem isOk_iff_harmless : l.check.isOk = true ↔ Harmless l.findings := by
  have hCount : l.check.isOk = true ↔ ∀ d ∈ l.check.diagnostics, ¬ d.isError = true := by
    rw [CheckReport.isOk, CheckReport.errorCount, decide_eq_true_eq, List.length_eq_zero_iff,
      List.filter_eq_nil_iff]
  rw [hCount]
  constructor
  · intro h f hf
    obtain ⟨g, -, hg, hSame⟩ := exists_reported hf
    have hError : ¬ g.isError = true := h _ hg
    rw [← Finding.isError_eq_of_sameDefect hSame]
    exact eq_false_of_ne_true hError
  · intro h d hd
    obtain ⟨f, hf, rfl⟩ := List.mem_map.mp (mem_of_mem_mergeDiagnostics hd)
    have hHarmless : f.isError = false := h f hf
    exact ne_true_of_eq_false hHarmless

/-- Nothing found is an error if names are well formed, fragments go together and trials succeed. -/
theorem harmless_findings_iff :
    Harmless l.findings ↔ l.WellNamed ∧ ∃ store, l.store = .ok store ∧
      ∀ t ∈ l.trials, ∃ m, l.outcome store t = .ok m := by
  rw [findings, harmless_append_iff, harmless_nameFindings_iff]
  cases hStore : l.store with
  | error e =>
    have hError : (Finding.store e).isError = true := by
      rw [Finding.isError_eq_sort]
      rfl
    simp [Harmless, hError]
  | ok store => simp only [harmless_flatMap_iff, harmless_trialFindings_iff, Except.ok.injEq,
      exists_eq_left']

/--
A library passes its check if and only if its names are well formed, its fragments go together, and
it composes, without a configuration and for each of its own, both with no flags and with every flag
that a gate mentions. No error is lost where findings are merged: one with the same message and the
same first line of context is reported, and that one is an error too.
-/
theorem check_exact (l : Library) :
    (l.check.isOk = true ↔ l.WellNamed ∧ ∃ store, l.store = .ok store ∧
      ∀ c ∈ none :: l.configurations.values.map some,
        (∃ m, (l.plan c).compose store .empty = .ok m) ∧
        ∃ m, (l.plan c).compose store (.ofNames l.referencedFlags.keys) = .ok m) ∧
    ∀ f ∈ l.findings, f.isError = true →
      ∃ d ∈ l.check.diagnostics, d.isError = true ∧ d.message = f.diagnostic.message ∧
        d.context.head? = f.diagnostic.context.head? := by
  refine ⟨?_, ?_⟩
  · rw [isOk_iff_harmless, harmless_findings_iff]
    refine and_congr_right fun _ => exists_congr fun store => and_congr_right fun _ => ?_
    exact forall_trials_iff (P := fun c flags => ∃ m, (l.plan c).compose store flags = .ok m)
  · intro f hf hError
    obtain ⟨g, -, hg, hSame⟩ := exists_reported hf
    obtain ⟨hMessage, hLine⟩ := Diagnostic.sameDefect_iff.mp hSame
    exact ⟨_, hg, (Finding.isError_eq_of_sameDefect hSame).trans hError, hMessage, hLine⟩

end Library

end DeclSurface
