import DeclSurface.CompilerFlags
import DeclSurface.Proofs.Composition.Bracketing
import DeclSurface.Proofs.Composition.Isolation
import DeclSurface.Proofs.Manifest.Directives
import DeclSurface.Proofs.Rewrite.Reinstating

/-!
# Flags that come back

A flag of the command line is a macro, and a rewrite of that macro gives it back when it ends. What
is given back is looked up under the plain name of the macro. A flag may also be spelled with a
parameter list, as `-D'INIT(x)=x'` has it. Such a flag is not found: after a rewrite of `INIT` the
macro is left undefined.

* `Progress.givesBack_perform` — a run of a composition gives back what can be given back.
* `Manifest.Reinstates`        — what an event at the end of a rewrite promises.
* `compose_reinstates`         — every end of a rewrite with no other around it keeps the promise,
  and the end of one inside another changes nothing.
* `reinstating_overlooks_parameters` — a flag with a parameter list is not given back.
-/

namespace DeclSurface

namespace Progress

variable {base : NameMap String} {given : String → Prop}
  {scopes : List (String × List Substitution)} {p q : Progress} {a : Action} {as : List Action}

theorem givesBack_act (h : p.engine.GivesBack base given)
    (hGiven : ∀ s ∈ scopes, ∀ x ∈ s.2, given x.name → x.restore ≠ .undefine)
    (hScopes : moments p.engine.stack [a] ⊆ scopes) (hAct : p.act a = .ok q) :
    q.engine.GivesBack base given := by
  cases a with
  | enter fragment rules =>
    obtain ⟨hEngine, -⟩ := act_enter_eq_ok_iff.mp hAct
    exact Engine.givesBack_applyAll (h.setPosition _) (restore_of_moments hGiven hScopes) hEngine
  | collect fragment item =>
    rw [(act_collect_eq_ok_iff.mp hAct).2]
    exact h
  | leave count =>
    obtain rfl := act_leave_eq_ok_iff.mp hAct
    exact Engine.givesBack_endMany (h.setPosition _)

theorem givesBack_perform (h : p.engine.GivesBack base given)
    (hGiven : ∀ s ∈ scopes, ∀ x ∈ s.2, given x.name → x.restore ≠ .undefine)
    (hScopes : moments p.engine.stack as ⊆ scopes) (hPerform : p.perform as = .ok q) :
    q.engine.GivesBack base given :=
  perform_invariant_of_moments (P := fun p => p.engine.GivesBack base given)
    (fun _ _ _ h => givesBack_act h hGiven) h hScopes hPerform

end Progress

/-- The directives that give a macro a value, or leave it undefined. -/
def Header.setting (n : String) : Option String → String
  | some value => "#undef " ++ n ++ "\n" ++ define n value
  | none => "#undef " ++ n ++ "\n"

/-- The event `r` gives the macro `n` back as the flags define it. -/
structure Manifest.Reinstates (store : FragmentStore) (flags : FlagSet) (m : Manifest) (n : String)
    (r : RewriteEvent) : Prop where
  /-- The macro gets the value of the flag that has its plain name, if that is enabled. -/
  value : r.value = flags.baseline.get? n
  /-- If one flag only is about the macro, its value is given back unless it is spelled otherwise. -/
  only : ∀ flag, flags.isEnabled flag = true → macroName flag = n →
    (∀ other, flags.isEnabled other = true → macroName other = n → other = flag) →
    r.value = if flag = n then flags.baseline.get? flag else none
  /--
  The header defines the macro again or leaves it undefined, and that behind the items of the
  fragment and of those nested in it.
  -/
  shown : ∃ before after count, Header.layout m = before ++ .event r :: after ∧
    (∀ fingerprint, m.toHeader fingerprint = Header.banner m fingerprint ++ Header.textOf before
      ++ Header.setting n (flags.baseline.get? n) ++ Header.textOf after) ∧
    before.filterMap Header.Piece.item? = m.items.take count ∧
    ∀ i it, m.items[i]? = some it → ∀ g ∈ Fragment.around store.fragments it.fragment,
      r.fragment = g.name → i < count

/-- A flag that is not spelled as the macro it defines gives the macro no value to go back to. -/
theorem FlagSet.get?_baseline_of_only {flags : FlagSet} {flag n : String}
    (hName : macroName flag = n)
    (hOnly : ∀ other, flags.isEnabled other = true → macroName other = n → other = flag) :
    flags.baseline.get? n = if flag = n then flags.baseline.get? flag else none := by
  by_cases hPlain : flag = n
  · rw [if_pos hPlain, hPlain]
  · -- a flag with the plain name would be about the same macro
    have hSelf : macroName n = n := by
      rw [← hName, macroName_macroName]
    have hDisabled : flags.isEnabled n = false := by
      rw [← Bool.not_eq_true]
      intro hEnabled
      exact hPlain (hOnly n hEnabled hSelf).symm
    rw [if_neg hPlain, get?_baseline, hDisabled, if_neg Bool.false_ne_true]

theorem RewriteEvent.Returns.event {r : RewriteEvent} {n : String} {value : Option String}
    (h : r.Returns n value) : Header.event r = Header.setting n value := by
  cases value with
  | none =>
    rw [Header.event, h.name, h.value]
    exact String.append_empty
  | some v =>
    have hSymbol : r.symbol = n := h.plain (by rw [h.value]; simp)
    rw [Header.event, h.name, h.value, hSymbol]
    rfl

namespace Plan

variable {plan : Plan} {store : FragmentStore} {flags : FlagSet} {m : Manifest} {n : String}

/--
The rewrites of a manifest are paired in one way. If no rule of the run leaves a macro undefined,
every rewrite of it gives the macro back when it ends: inside another rewrite the macro stays as
both have it, and else it gets the value of the flag that has its plain name, and is undefined
without such a flag.
-/
theorem compose_reinstates (h : plan.compose store flags = .ok m)
    (hBack : plan.GivenBack (plan.effectiveFlags flags) n) :
    (∃! pair, WellBracketed m.rewrites pair) ∧
    ∀ pair, WellBracketed m.rewrites pair → ∀ i j, pair i j → ConcernsAt m.rewrites n i →
      ∃ a r, m.rewrites[i]? = some a ∧ m.rewrites[j]? = some r ∧
        a.action = .apply ∧ r.action = .restore ∧
        (Covered m.rewrites pair n i → r.symbol = a.symbol ∧ r.value = a.value) ∧
        (¬ Covered m.rewrites pair n i → m.Reinstates store (plan.effectiveFlags flags) n r) := by
  refine ⟨?_, ?_⟩
  · obtain ⟨pair, hPair⟩ := exists_wellBracketed h
    exact ⟨pair, hPair, fun _ hPair' => hPair'.unique hPair⟩
  · intro pair hLog i j hPair hConcerns
    obtain ⟨-, order, hOrder, p, hPerform, rfl⟩ := compose_eq_ok_iff.mp h
    have hGives := Progress.givesBack_perform (Engine.givesBack_ofBaseline _ _)
      (restore_of_givenBack (subset_fragments_of_ordered hOrder)) (List.Subset.refl _) hPerform
    obtain ⟨a, r, ha, hr, hCloses⟩ :=
      hGives.closed (active_eq_nil_of_perform hPerform) hLog hPair hConcerns
    obtain ⟨-, a', r', ha', hr', hApply, hRestore, -⟩ := hLog.partners i j hPair
    obtain rfl : a' = a := Option.some.inj (ha'.symm.trans ha)
    obtain rfl : r' = r := Option.some.inj (hr'.symm.trans hr)
    refine ⟨a', r', ha, hr, hApply, hRestore, hCloses.inside, ?_⟩
    intro hNotCovered
    -- with no other rewrite around, the macro is as the engine started: as the flags define it
    have hReturns := hCloses.outermost hBack hNotCovered
    have hIn : r' ∈ p.engine.log := List.mem_of_getElem? hr
    refine { value := hReturns.value, only := ?only, shown := ?shown }
    case only =>
      intro flag _ hName hOnly
      rw [hReturns.value, FlagSet.get?_baseline_of_only hName hOnly]
    case shown =>
      obtain ⟨before, after, count, hLayout, hItems, hCount⟩ :=
        Manifest.exists_layout_split (m := plan.manifest (plan.effectiveFlags flags) p) hIn
      refine ⟨before, after, count, hLayout, ?_, hItems, ?_⟩
      · intro fingerprint
        rw [Manifest.toHeader_of_layout hLayout, hReturns.event]
      · -- the end stands behind the items of its fragment, and so does its directive
        intro i' it hi' g hg hName
        have hEncloses := encloses_of_perform hOrder hPerform hi' hg hIn hName
        exact hCount i' (List.getElem?_eq_some_iff.mp hi').1 (hEncloses.2 hRestore)

end Plan

namespace Sample

/-- The rule is in force in two fragments after each other, and in one nested in the first of them. -/
def twice : Plan :=
  { plan with
    rules := [{ symbol := "INIT(x)", value := "x", fragments := ["early", "open", "late"]
                restore := .reinstate, gate := .always }] }

theorem compose_twice :
    ∃ m, twice.compose store (.ofCompilerFlags "-DINIT=0") = .ok m ∧
      m.rewrites.map (fun r => (r.action, r.symbol, r.value)) =
        [(.apply, "INIT(x)", some "x"), (.apply, "INIT(x)", some "x"),
         (.restore, "INIT(x)", some "x"), (.restore, "INIT", some "0"),
         (.apply, "INIT(x)", some "x"), (.restore, "INIT", some "0")] :=
  ⟨_, rfl, by decide +kernel⟩

/-- The rule is in force in one fragment. -/
def once : Plan :=
  { plan with
    rules := [{ symbol := "INIT(x)", value := "x", fragments := ["late"]
                restore := .reinstate, gate := .always }] }

theorem compose_once :
    ∃ m, once.compose store (.ofCompilerFlags "-D'INIT(x)=0'") = .ok m ∧
      m.rewrites.map (fun r => (r.action, r.symbol, r.value)) =
        [(.apply, "INIT(x)", some "x"), (.restore, "INIT(x)", none)] :=
  ⟨_, rfl, by decide +kernel⟩

end Sample

namespace Plan

theorem compose_reinstates_sample :
    ∃ m, Sample.twice.compose Sample.store (.ofCompilerFlags "-DINIT=0") = .ok m ∧
      Sample.twice.GivenBack (Sample.twice.effectiveFlags (.ofCompilerFlags "-DINIT=0")) "INIT" ∧
      ∃ pair r, WellBracketed m.rewrites pair ∧ pair 4 5 ∧ m.rewrites[5]? = some r ∧
        r.value = some "0" ∧ m.Reinstates Sample.store
          (Sample.twice.effectiveFlags (.ofCompilerFlags "-DINIT=0")) "INIT" r := by
  obtain ⟨m, hCompose, hEvents⟩ := Sample.compose_twice
  have hLength : m.rewrites.length = 4 + 2 := by
    simpa using congrArg List.length hEvents
  obtain ⟨a, ha, hFields⟩ : ∃ a, m.rewrites[4]? = some a ∧
      (a.action, a.symbol, a.value) = (.apply, "INIT(x)", some "x") := by
    rw [← Option.map_eq_some_iff, ← List.getElem?_map, hEvents]
    rfl
  have hBack : Sample.twice.GivenBack
      (Sample.twice.effectiveFlags (.ofCompilerFlags "-DINIT=0")) "INIT" := by
    unfold GivenBack
    decide +kernel
  obtain ⟨⟨pair, hLog, -⟩, hClosed⟩ := compose_reinstates hCompose hBack
  obtain ⟨hPair, hNotCovered⟩ := hLog.pair_of_last hLength ha (congrArg (·.1) hFields)
  have hSymbol : a.symbol = "INIT(x)" := congrArg (·.2.1) hFields
  have hConcerns : ConcernsAt m.rewrites "INIT" 4 :=
    ⟨a, ha, hSymbol ▸ by decide +kernel⟩
  obtain ⟨-, r, -, hr, -, -, -, hOutermost⟩ := hClosed pair hLog 4 5 hPair hConcerns
  have hReinstates := hOutermost hNotCovered
  have hValue : r.value = some "0" := by
    rw [hReinstates.value]
    decide +kernel
  exact ⟨m, hCompose, hBack, pair, r, hLog, hPair, hr, hValue, hReinstates⟩

/-- A flag spelled with a parameter list is not what a rewrite of its macro gives back. -/
theorem reinstating_overlooks_parameters :
    ¬ ∀ (plan : Plan) (store : FragmentStore) (flags : FlagSet) (m : Manifest) (n flag : String),
      plan.compose store flags = .ok m → plan.GivenBack (plan.effectiveFlags flags) n →
      (plan.effectiveFlags flags).isEnabled flag = true → macroName flag = n →
      (∀ other, (plan.effectiveFlags flags).isEnabled other = true → macroName other = n →
        other = flag) →
      ∀ pair, WellBracketed m.rewrites pair → ∀ i j, pair i j → ConcernsAt m.rewrites n i →
        ¬ Covered m.rewrites pair n i →
        ∃ r, m.rewrites[j]? = some r ∧
          r.value = (plan.effectiveFlags flags).baseline.get? flag := by
  intro hAll
  obtain ⟨m, hCompose, hEvents⟩ := Sample.compose_once
  have hLength : m.rewrites.length = 0 + 2 := by
    simpa using congrArg List.length hEvents
  have hAt (k : Nat) : m.rewrites[k]?.map (fun r => (r.action, r.symbol, r.value)) =
      [(.apply, "INIT(x)", some "x"), (.restore, "INIT(x)", none)][k]? := by
    rw [← List.getElem?_map, hEvents]
  obtain ⟨a, ha, hFields⟩ := Option.map_eq_some_iff.mp (hAt 0)
  obtain ⟨pair, hLog⟩ := exists_wellBracketed hCompose
  obtain ⟨hPair, hNotCovered⟩ := hLog.pair_of_last hLength ha (congrArg (·.1) hFields)
  have hSymbol : a.symbol = "INIT(x)" := congrArg (·.2.1) hFields
  have hConcerns : ConcernsAt m.rewrites "INIT" 0 :=
    ⟨a, ha, hSymbol ▸ by decide +kernel⟩
  have hBack : Sample.once.GivenBack
      (Sample.once.effectiveFlags (.ofCompilerFlags "-D'INIT(x)=0'")) "INIT" := by
    unfold GivenBack
    decide +kernel
  have hOnly (other : String)
      (hEnabled : (Sample.once.effectiveFlags (.ofCompilerFlags "-D'INIT(x)=0'")).isEnabled
        other = true) (hName : macroName other = "INIT") : other = "INIT(x)" := by
    have hNames : (Sample.once.effectiveFlags (.ofCompilerFlags "-D'INIT(x)=0'")).names =
        ["FOO", "INIT(x)"] := by
      decide +kernel
    have hOther := NameMap.contains_iff_mem_keys.mp hEnabled
    have hOneOf : other ∈ ["FOO", "INIT(x)"] := hNames ▸ hOther
    rcases List.mem_pair.mp hOneOf with rfl | rfl
    · exact absurd hName (by decide +kernel)
    · rfl
  obtain ⟨r, hr, hValue⟩ := hAll Sample.once Sample.store (.ofCompilerFlags "-D'INIT(x)=0'") m "INIT"
    "INIT(x)" hCompose hBack (by decide +kernel) (by decide +kernel) hOnly pair hLog 0 1 hPair
    hConcerns hNotCovered
  -- the end of the rewrite leaves the macro undefined
  obtain ⟨r', hr', hFields'⟩ := Option.map_eq_some_iff.mp (hAt 1)
  obtain rfl : r' = r := Option.some.inj (hr'.symm.trans hr)
  have hNone : r'.value = none := congrArg (·.2.2) hFields'
  rw [hNone] at hValue
  exact absurd hValue (by decide +kernel)

end Plan

end DeclSurface
