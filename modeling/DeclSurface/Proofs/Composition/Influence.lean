import DeclSurface.Proofs.Composition.Order
import DeclSurface.Proofs.Composition.Script
import DeclSurface.Proofs.Rewrite.Likeness
import DeclSurface.Surface.Basic

/-!
# What flags can influence

A composition asks about flags only where a gate mentions one, and only whether the flag is set.
Two flag sets that agree there lead through the same script. The engines start from different
macros, and what these are shows in restorations alone.

* `Plan.SameGates`      — no gate tells the two flag sets apart.
* `script_congr`        — they lead through the same script.
* `Manifest.Alike`      — manifests that differ in their flags and in restorations only.
* `manifest_referenced_only` — of the flags of a library only those matter that its gates mention.
-/

namespace DeclSurface

variable {flags flags' : FlagSet}

/-! ## Gates -/

/-- The flags that matter to a library are those that some gate of it mentions. -/
theorem Library.mem_referencedFlags {l : Library} {n : String} :
    n ∈ l.referencedFlags.keys ↔
      (∃ f ∈ Fragment.allOf l.fragments, n ∈ f.gate.mentions) ∨
        ∃ r ∈ l.rewrites, n ∈ r.gate.mentions := by
  rw [← NameMap.contains_iff_mem_keys, referencedFlags, NameSet.contains_ofNames,
    List.contains_iff_mem, List.mem_append, List.mem_flatMap, List.mem_flatMap]

namespace Plan

variable {plan : Plan} {store : FragmentStore} {fs : List Fragment}

/-- Flags that a configuration forces on keep what two flag sets agree on. -/
theorem isEnabled_effectiveFlags_congr (plan : Plan) {n : String}
    (h : flags.isEnabled n = flags'.isEnabled n) :
    (plan.effectiveFlags flags).isEnabled n = (plan.effectiveFlags flags').isEnabled n := by
  unfold effectiveFlags
  cases plan.configuration with
  | none => exact h
  | some c =>
    have hForced (names : List String) : ∀ s t : FlagSet, s.isEnabled n = t.isEnabled n →
        (names.foldl FlagSet.enable s).isEnabled n
          = (names.foldl FlagSet.enable t).isEnabled n := by
      induction names with
      | nil => exact fun _ _ h => h
      | cons m ms ih =>
        intro s t hAgree
        refine ih _ _ ?_
        rw [FlagSet.isEnabled_enable, FlagSet.isEnabled_enable, hAgree]
    exact hForced c.flags flags flags' h

/-- No gate of the fragments, at any depth, or of the rules tells the two flag sets apart. -/
structure SameGates (plan : Plan) (fs : List Fragment) (flags flags' : FlagSet) : Prop where
  fragments : ∀ f ∈ Fragment.allOf fs, f.gate.holds flags = f.gate.holds flags'
  rules : ∀ r ∈ plan.rules, r.gate.holds flags = r.gate.holds flags'

theorem SameGates.rulesFor (h : plan.SameGates fs flags flags') (n : String) :
    plan.rulesFor flags n = plan.rulesFor flags' n := by
  refine List.filter_congr fun r hr => ?_
  rw [h.rules r hr]

theorem SameGates.included (h : plan.SameGates store.fragments flags flags') :
    plan.included store flags = plan.included store flags' := by
  refine List.filter_congr fun f hf => ?_
  have hAll : f ∈ Fragment.allOf store.fragments := by
    rw [Fragment.allOf_eq_flatMap]
    exact List.mem_flatMap.mpr ⟨f, hf, f.self_mem_all⟩
  rw [h.fragments f hAll]

mutual
/-- The walk through a fragment asks about the gates nested in it and those of its rules. -/
theorem script_congr (hRules : ∀ n, plan.rulesFor flags n = plan.rulesFor flags' n) :
    ∀ f : Fragment, (∀ g ∈ Fragment.all f, g.gate.holds flags = g.gate.holds flags') →
      plan.script flags f = plan.script flags' f
  | ⟨name, _, items, _, children⟩, h => by
    rw [Fragment.all, List.forall_mem_cons] at h
    rw [script, script, hRules, scriptOpen_congr hRules children h.2]

theorem scriptOpen_congr (hRules : ∀ n, plan.rulesFor flags n = plan.rulesFor flags' n) :
    ∀ fs : List Fragment, (∀ g ∈ Fragment.allOf fs, g.gate.holds flags = g.gate.holds flags') →
      plan.scriptOpen flags fs = plan.scriptOpen flags' fs
  | [], _ => rfl
  | f :: fs, h => by
    rw [Fragment.allOf, List.forall_mem_append] at h
    rw [scriptOpen, scriptOpen, h.1 f f.self_mem_all, script_congr hRules f h.1,
      scriptOpen_congr hRules fs h.2]
end

theorem SameGates.scriptAll {order : List Fragment} (h : plan.SameGates fs flags flags')
    (hSub : order ⊆ fs) : plan.scriptAll flags order = plan.scriptAll flags' order := by
  refine List.flatMap_congr fun f hf => ?_
  refine script_congr h.rulesFor f fun g hg => h.fragments g ?_
  rw [Fragment.allOf_eq_flatMap]
  exact List.mem_flatMap.mpr ⟨f, hSub hf, hg⟩

end Plan

/-! ## Runs -/

namespace Progress

/-- Two runs that have placed the same, with engines that are alike. -/
structure Alike (p q : Progress) : Prop where
  engine : p.engine.Alike q.engine
  collected : p.collected = q.collected

variable {p q : Progress}

theorem Alike.stamp (h : p.Alike q) : p.stamp.engine.Alike q.stamp.engine := by
  rw [Progress.stamp, Progress.stamp, h.collected]
  exact h.engine.setPosition

/-- An action succeeds in both runs, or ends both with the same error. -/
theorem Alike.act (h : p.Alike q) (a : Action) : SameOutcome Alike (p.act a) (q.act a) := by
  cases a with
  | enter fragment rules =>
    refine h.stamp.applyAll.bind fun e e' hEngine => .ok ⟨hEngine, ?_⟩
    rw [h.collected]
  | collect fragment item =>
    rw [Progress.act, Progress.act, h.collected]
    exact SameOutcome.bind_self fun _ => .ok ⟨h.engine, rfl⟩
  | leave count => exact .ok ⟨h.stamp.endMany, h.collected⟩

theorem Alike.perform (h : p.Alike q) (as : List Action) :
    SameOutcome Alike (p.perform as) (q.perform as) := by
  induction as generalizing p q with
  | nil => exact .ok h
  | cons a as ih =>
    rw [Progress.perform, Progress.perform]
    exact (h.act a).bind fun _ _ hNext => ih hNext

theorem alike_start (flags flags' : FlagSet) : (start flags).Alike (start flags') :=
  ⟨Engine.alike_ofBaseline _ _, rfl⟩

end Progress

/-! ## Compositions -/

/-- Two manifests that differ only in the flags they list and in restorations. -/
structure Manifest.Alike (m m' : Manifest) : Prop where
  version : m.version = m'.version
  configuration : m.configuration = m'.configuration
  fragments : m.fragments = m'.fragments
  items : m.items = m'.items
  rewrites : List.Forall₂ RewriteEvent.Alike m.rewrites m'.rewrites

/-- A composition depends on its flags through gates only. -/
theorem Plan.compose_of_sameGates {plan : Plan} {store : FragmentStore}
    (h : plan.SameGates store.fragments (plan.effectiveFlags flags) (plan.effectiveFlags flags')) :
    SameOutcome Manifest.Alike (plan.compose store flags) (plan.compose store flags') := by
  rw [compose_eq_perform, compose_eq_perform, h.included]
  refine SameOutcome.bind_self fun _ => ?_
  cases hOrder : ordered (plan.included store (plan.effectiveFlags flags')) with
  | error e => exact .error e
  | ok order =>
    have hSub : order ⊆ store.fragments := subset_fragments_of_ordered hOrder
    rw [ok_bind, ok_bind, h.scriptAll hSub]
    have hStart := Progress.alike_start (plan.effectiveFlags flags) (plan.effectiveFlags flags')
    refine (hStart.perform _).bind fun p q hEnd => .ok ?_
    exact ⟨rfl, rfl, congrArg Collected.fragments hEnd.collected,
      congrArg Collected.items hEnd.collected, hEnd.engine.log⟩

namespace Library

/--
Of the flags only those matter that a gate of the library mentions, and of those only whether they
are set: two flag sets that agree there end a composition with the same error, or with manifests
that have the same fragments and items, and the same log but for what restorations give back and
how they spell the macro.
-/
theorem manifest_referenced_only (l : Library) (configuration : Option Configuration)
    (h : ∀ n ∈ l.referencedFlags.keys, flags.isEnabled n = flags'.isEnabled n) :
    SameOutcome Manifest.Alike (l.manifest configuration flags)
      (l.manifest configuration flags') := by
  have hGate {g : Gate} (hg : ∀ n ∈ g.mentions, n ∈ l.referencedFlags.keys) :
      g.holds ((l.plan configuration).effectiveFlags flags)
        = g.holds ((l.plan configuration).effectiveFlags flags') :=
    Gate.eval_congr fun n hn =>
      (l.plan configuration).isEnabled_effectiveFlags_congr (h n (hg n hn))
  rw [manifest_eq_bind, manifest_eq_bind]
  cases hStore : l.store with
  | error e => exact .error e
  | ok store =>
    have hFragments : store.fragments = l.fragments :=
      FragmentStore.fragments_of_ofFragments hStore
    refine Plan.compose_of_sameGates ⟨fun f hf => ?_, fun r hr => ?_⟩
    · rw [hFragments] at hf
      exact hGate fun n hn => mem_referencedFlags.mpr (Or.inl ⟨f, hf, hn⟩)
    · exact hGate fun n hn => mem_referencedFlags.mpr (Or.inr ⟨r, hr, hn⟩)

/-- A flag with the name of a rewritten macro, which no gate mentions. -/
theorem manifest_referenced_only_sample :
    (∀ n ∈ Sample.described.referencedFlags.keys,
        FlagSet.empty.isEnabled n = (FlagSet.empty.enableWithValue "INIT" "7").isEnabled n) ∧
      (Sample.described.manifest Sample.plan.configuration .empty).map (·.rewrites)
        ≠ (Sample.described.manifest Sample.plan.configuration
            (FlagSet.empty.enableWithValue "INIT" "7")).map (·.rewrites) ∧
      SameOutcome Manifest.Alike
        (Sample.described.manifest Sample.plan.configuration .empty)
        (Sample.described.manifest Sample.plan.configuration
          (FlagSet.empty.enableWithValue "INIT" "7")) :=
  ⟨by decide, by decide +kernel, manifest_referenced_only _ _ (by decide)⟩

end Library

end DeclSurface
