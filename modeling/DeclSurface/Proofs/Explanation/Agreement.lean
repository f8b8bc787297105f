import DeclSurface.Proofs.Composition.Layout
import DeclSurface.Proofs.Composition.Moment
import DeclSurface.Proofs.Explanation.Scopes

/-!
# Explanations agree with compositions

An explanation looks at one fragment from the outside: it searches for the scopes around it and asks
gates, rules and configuration about them. Where a composition succeeds, what it says is what has
happened: the fragment has the place that it is said to have, it is there for the reasons that are
given, and the rules said to be active are those that the engine had in effect.

* `mem_reachedOf_iff`     — a fragment is reached if the gates around it are open.
* `mem_fragments_iff`     — it is in the manifest if, besides, its outermost scope is allowed.
* `Explanation.Agrees`    — what is said of a fragment is what the composition did with it.
* `explain_agrees`        — every explanation agrees.
-/

namespace DeclSurface

/-! ## Inclusion -/

namespace Fragment

variable {flags : FlagSet} {n : String}

mutual
/-- Below a fragment that is placed, whatever the gates around it let through is reached. -/
theorem mem_block_iff : ∀ {t : Fragment}, (names t).Nodup →
    (n ∈ t.block flags ↔ n ∈ names t ∧ ∀ g ∈ around t.children n, g.gate.holds flags = true)
  | ⟨name, gate, items, constraints, children⟩, hNodup => by
    unfold block
    rw [names, List.nodup_cons] at hNodup
    rw [reached, List.map_cons, names, List.mem_cons, List.mem_cons, mem_reachedOf_iff hNodup.2]
    by_cases hn : n = name
    · -- nothing nested is around the fragment itself
      subst hn
      simp [around_eq_nil hNodup.1]
    · simp [hn]

/-- A fragment is reached from a list when its gate and those around it are open. -/
theorem mem_reachedOf_iff : ∀ {fs : List Fragment}, (namesOf fs).Nodup →
    (n ∈ (reachedOf flags fs).map (·.name) ↔
      n ∈ namesOf fs ∧ ∀ g ∈ around fs n, g.gate.holds flags = true)
  | [], _ => by simp [reachedOf, namesOf]
  | f :: fs, hNodup => by
    -- names are distinct, so either the first tree holds the name or the others do
    have hRest := mem_reachedOf_iff (nodup_tail hNodup)
    have hBlock := mem_block_iff (nodup_names_of_mem hNodup List.mem_cons_self)
    have hMap : n ∈ (reachedOf flags (f :: fs)).map (·.name) ↔
        (f.gate.holds flags = true ∧ n ∈ f.block flags) ∨
          n ∈ (reachedOf flags fs).map (·.name) := by
      rw [reachedOf, block]
      split <;> simp_all
    rw [hMap, hBlock, hRest, namesOf, List.mem_append]
    by_cases hn : n ∈ names f
    · have hNot : n ∉ namesOf fs := by
        rw [namesOf, List.nodup_append] at hNodup
        exact fun h => hNodup.2.2 n hn n h rfl
      rw [around_eq_of_mem hNodup List.mem_cons_self hn, around_self hn, List.forall_mem_cons]
      simp [hn, hNot]
    · have hNone : around [f] n = [] := by
        refine around_eq_nil fun h => hn ?_
        rwa [namesOf, namesOf, List.append_nil] at h
      rw [around_cons, hNone, List.nil_append]
      simp [hn]
end

end Fragment

namespace Plan

variable {plan : Plan} {store : FragmentStore} {flags : FlagSet} {m : Manifest} {n : String}

/-- A fragment is in the manifest when its outermost scope is allowed and the gates are open. -/
theorem mem_fragments_iff (h : plan.compose store flags = .ok m) (hn : n ∈ store.names) :
    n ∈ m.fragments ↔
      (∀ t ∈ (Fragment.around store.fragments n).head?, plan.allows t.name = true) ∧
        ∀ g ∈ Fragment.around store.fragments n,
          g.gate.holds (plan.effectiveFlags flags) = true := by
  obtain ⟨order, hOrder, hStable, hFragments⟩ := (compose_layout h).blocks
  obtain ⟨t, ht, hnt⟩ := Fragment.mem_namesOf.mp hn
  -- the tree that holds the name is the only one that can bring it in
  have hTree : n ∈ m.fragments ↔
      t ∈ plan.included store (plan.effectiveFlags flags) ∧
        n ∈ t.block (plan.effectiveFlags flags) := by
    rw [hFragments, (hStable.perm.flatMap_right _).mem_iff, List.mem_flatMap]
    constructor
    · rintro ⟨u, hu, hnu⟩
      have hNames := (u.block_sublist_names _).subset hnu
      obtain rfl := FragmentStore.eq_of_mem_names ht (mem_included.mp hu).1 hnt hNames
      exact ⟨hu, hnu⟩
    · rintro ⟨hu, hnu⟩
      exact ⟨t, hu, hnu⟩
  have hNodup := Fragment.nodup_names_of_mem store.distinct ht
  rw [hTree, mem_included, Fragment.mem_block_iff hNodup,
    Fragment.around_eq_of_mem store.distinct ht hnt, Fragment.around_self hnt]
  simp [ht, hnt, and_assoc]

end Plan

/-- The place of a fragment is its index among the fragments, which are distinct. -/
theorem Manifest.positionOf_eq_some_iff {m : Manifest} (hNodup : m.fragments.Nodup) {n : String}
    {i : Nat} : m.positionOf n = some i ↔ m.fragments[i]? = some n := by
  rw [positionOf, List.findIdx?_eq_some_iff_getElem, List.getElem?_eq_some_iff]
  constructor
  · rintro ⟨hLt, hName, -⟩
    exact ⟨hLt, eq_of_beq hName⟩
  · rintro ⟨hLt, hName⟩
    refine ⟨hLt, beq_iff_eq.mpr hName, ?_⟩
    -- an earlier index would hold the same name
    intro j hj hFirst
    have hSame : m.fragments[j] = m.fragments[i] := (eq_of_beq hFirst).trans hName.symm
    have hEq := (hNodup.getElem_inj_iff).mp hSame
    omega

/-! ## What an explanation says -/

/-- The rewrites in effect by symbol, value and fragment, outermost first. -/
def Engine.rewrites (e : Engine) : List (String × String × String) :=
  e.active.reverse.map fun a => (a.symbol, a.value, a.fragment)

namespace Explanation

/-- The active rules by symbol, value and scope, in the order in which they are listed. -/
def activeRules (x : Explanation) : List (String × String × String) :=
  (x.rules.filter (·.active)).map fun r => (r.rule.symbol, r.rule.value, r.scope)

/-- What is said of a fragment is what a composition did with it. -/
structure Agrees (x : Explanation) (l : Library) (configuration : Option Configuration)
    (flags : FlagSet) (m : Manifest) : Prop where
  /-- The fragment stands where it is said to stand. -/
  position : ∀ i, x.position = some i ↔ m.fragments[i]? = some x.fragment
  /-- It is there unless it is not allowed, or a gate of it or around it is closed. -/
  included : x.included = true ↔ x.allowed ≠ some false ∧
    ∀ g ∈ Fragment.around l.fragments x.fragment,
      g.gate.holds ((l.plan configuration).effectiveFlags flags) = true
  /-- If it is there, there is a moment at which its items were collected. -/
  moment : x.included = true → ∃ store e, l.store = .ok store ∧
    (l.plan configuration).CollectsWith store flags x.fragment e
  /-- At that moment the rules in effect were those that are said to be active. -/
  rules : ∀ store e, l.store = .ok store →
    (l.plan configuration).CollectsWith store flags x.fragment e → x.activeRules = e.rewrites

end Explanation

namespace Library

variable {l : Library} {configuration : Option Configuration} {flags : FlagSet} {m : Manifest}
  {f : Fragment} {n : String}

/-- The outermost scope is allowed unless the explanation says that it is not. -/
theorem allowed_explanation_iff {scopes : List Fragment} (hne : scopes ≠ []) :
    (l.explanation configuration flags f scopes).allowed ≠ some false ↔
      ∀ t ∈ scopes.head?, (l.plan configuration).allows t.name = true := by
  obtain ⟨t, ts, rfl⟩ := List.exists_cons_of_ne_nil hne
  cases configuration with
  | none => simp [explanation, plan, Plan.allows]
  | some c => simp [explanation, plan, Plan.allows]

/-- The active rules are those that begin in the scopes, one scope after the other. -/
theorem activeRules_explanation (scopes : List Fragment) :
    (l.explanation configuration flags f scopes).activeRules
      = (scopes.flatMap ((l.plan configuration).substitutions
          ((l.plan configuration).effectiveFlags flags))).map
            fun s => (s.symbol, s.value, s.fragment) := by
  rw [Explanation.activeRules, explanation]
  dsimp only
  rw [List.filter_flatMap, List.map_flatMap, List.map_flatMap]
  -- both list the rules of each scope in the order of the library
  refine List.flatMap_congr fun s _ => ?_
  have hRules (p : RewriteRule → Bool) : (l.rulesFor s.name).filter p
      = l.rewrites.filter fun r => r.appliesTo s.name && p r := by
    rw [rulesFor, List.filter_filter]
    simp only [Bool.and_comm]
  rw [explainedRules, List.filter_map, List.map_map, hRules, Plan.substitutions, List.map_map]
  rfl

theorem rewrites_eq_map_stack (e : Engine) :
    e.rewrites = e.stack.reverse.map fun s => (s.symbol, s.value, s.fragment) := by
  rw [Engine.rewrites, Engine.stack, ← List.map_reverse, List.map_map]
  rfl

/-- Where names are distinct, a fragment is explained with the scopes around it. -/
theorem exists_explanation {name : Option String} (flags : FlagSet)
    (hNodup : (Fragment.namesOf l.fragments).Nodup)
    (hChosen : l.chosen name = .ok configuration) (hn : n ∈ Fragment.namesOf l.fragments) :
    ∃ f ∈ Fragment.allOf l.fragments, f.name = n ∧ l.explain n flags name
      = .ok (l.explanation configuration flags f (Fragment.around l.fragments n)) := by
  rw [← Fragment.map_name_allOf, List.mem_map] at hn
  obtain ⟨g, hg, rfl⟩ := hn
  cases hFind : l.fragment? g.name with
  | none =>
    have hNone := List.find?_eq_none.mp hFind g hg
    exact absurd (beq_self_eq_true g.name) hNone
  | some f =>
    obtain ⟨hf, hName⟩ := Fragment.of_find?_eq_some hFind
    refine ⟨f, hf, hName, ?_⟩
    rw [explain, hFind]
    dsimp only
    rw [hChosen, ok_bind, Fragment.scopes?_eq_around hNodup hf, hName]

theorem position_explanation (scopes : List Fragment)
    (h : l.manifest configuration flags = .ok m) :
    (l.explanation configuration flags f scopes).position = m.positionOf f.name := by
  have hPlacement : l.placement configuration flags f.name
      = .ok { position := m.positionOf f.name, total := m.fragments.length } := by
    rw [placement, h, ok_bind]
  rw [Explanation.position, explanation]
  dsimp only
  rw [hPlacement]

theorem included_explanation_iff (scopes : List Fragment)
    (h : l.manifest configuration flags = .ok m) (hNodup : m.fragments.Nodup) :
    (l.explanation configuration flags f scopes).included = true ↔ f.name ∈ m.fragments := by
  rw [Explanation.included, position_explanation scopes h, Option.isSome_iff_exists,
    List.mem_iff_getElem?]
  simp only [Manifest.positionOf_eq_some_iff hNodup]

/-- What is said of a fragment with the scopes around it agrees with the composition. -/
theorem agrees_explanation {store : FragmentStore} (hStore : l.store = .ok store)
    (hCompose : (l.plan configuration).compose store flags = .ok m)
    (hf : f ∈ Fragment.allOf l.fragments) :
    (l.explanation configuration flags f (Fragment.around l.fragments f.name)).Agrees l
      configuration flags m := by
  have hFragments : store.fragments = l.fragments := FragmentStore.fragments_of_ofFragments hStore
  have hManifest : l.manifest configuration flags = .ok m := by
    rw [manifest_eq_bind, hStore, ok_bind, hCompose]
  have hDistinct := (Plan.compose_layout hCompose).distinct
  have hIncluded := included_explanation_iff (f := f) (Fragment.around l.fragments f.name)
    hManifest hDistinct
  refine ⟨?_, ?_, ?_, ?_⟩
  · intro i
    rw [position_explanation _ hManifest]
    exact Manifest.positionOf_eq_some_iff hDistinct
  · have hName : f.name ∈ store.names := by
      rw [FragmentStore.names, hFragments, ← Fragment.map_name_allOf]
      exact List.mem_map_of_mem hf
    have hne := List.ne_nil_of_mem (Fragment.mem_around_self hf)
    rw [hIncluded, Plan.mem_fragments_iff hCompose hName, hFragments, allowed_explanation_iff hne]
    rfl
  · intro h
    obtain ⟨e, hMoment⟩ := Plan.exists_collectsWith hCompose (hIncluded.mp h)
    exact ⟨store, e, hStore, hMoment⟩
  · intro store' e hStore' hMoment
    obtain rfl := Except.ok.inj (hStore.symm.trans hStore')
    rw [activeRules_explanation, rewrites_eq_map_stack, Plan.reverse_stack_of_collectsWith hMoment,
      hFragments]
    rfl

/--
Where a composition succeeds, every fragment of the library, at any depth, has an explanation, and
what that says is what the composition did: the position of the fragment, the reasons for which it
is there, and the rules that were active when its items were collected.
-/
theorem explain_agrees {name : Option String} (hChosen : l.chosen name = .ok configuration)
    (h : l.manifest configuration flags = .ok m) (hn : n ∈ Fragment.namesOf l.fragments) :
    ∃ x, l.explain n flags name = .ok x ∧ x.fragment = n ∧ x.Agrees l configuration flags m := by
  rw [manifest_eq_bind] at h
  obtain ⟨store, hStore, hCompose⟩ := bind_eq_ok_iff.mp h
  have hNodup : (Fragment.namesOf l.fragments).Nodup :=
    FragmentStore.fragments_of_ofFragments hStore ▸ store.distinct
  obtain ⟨f, hf, rfl, hExplain⟩ := exists_explanation flags hNodup hChosen hn
  exact ⟨_, hExplain, rfl, agrees_explanation hStore hCompose hf⟩

/-- The nested fragment of the sample, with two rewrites of its own and one from around it. -/
theorem explain_agrees_sample :
    ∃ m x, Sample.described.manifest Sample.plan.configuration .empty = .ok m ∧
      m.fragments = ["early", "open", "late"] ∧
      Sample.described.explain "open" .empty (some "small") = .ok x ∧
      x.Agrees Sample.described Sample.plan.configuration .empty m := by
  have hChosen : Sample.described.chosen (some "small") = .ok Sample.plan.configuration := rfl
  obtain ⟨m, hManifest, hFragments⟩ :
      ∃ m, Sample.described.manifest Sample.plan.configuration .empty = .ok m ∧
        m.fragments = ["early", "open", "late"] :=
    ⟨_, rfl, rfl⟩
  obtain ⟨x, hExplain, -, hAgrees⟩ := explain_agrees (n := "open") hChosen hManifest (by decide)
  exact ⟨m, x, hManifest, hFragments, hExplain, hAgrees⟩

end Library

end DeclSurface
