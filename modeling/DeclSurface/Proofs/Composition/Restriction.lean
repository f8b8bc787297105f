import DeclSurface.Proofs.Composition.Order
import DeclSurface.Proofs.Composition.Script
import DeclSurface.Proofs.Composition.Validity

/-!
# Leaving out is removing

What a composition leaves out might as well not be there. Removing it from the store, and its names
from constraints and rules, changes neither the manifest nor the error.

* `Fragment.restrict`, `RewriteRule.restrict` — what is left of a fragment or a rule.
* `Plan.restrict`, `Plan.restrictStore`       — what is left of a plan and a store.
* `ordered_map_restrict`   — constraints on what is gone order nothing.
* `script_restrict`        — the walk through what is left is the same walk.
* `compose_restrict`       — composition gives the same result.
-/

namespace DeclSurface

/-- The rule without the names that are not kept. -/
def RewriteRule.restrict (kept : List String) (r : RewriteRule) : RewriteRule :=
  { r with fragments := r.fragments.filter kept.contains }

namespace Fragment

mutual
/-- The fragment without closed fragments in it and without constraints on what is not kept. -/
def restrict (flags : FlagSet) (kept : List String) : Fragment → Fragment
  | ⟨name, gate, items, constraints, children⟩ =>
    ⟨name, gate, items, constraints.filter (kept.contains ·.target),
      restrictOpen flags kept children⟩

/-- What is left of those in a list whose gates are open. -/
def restrictOpen (flags : FlagSet) (kept : List String) : List Fragment → List Fragment
  | [] => []
  | f :: fs =>
    if f.gate.holds flags then restrict flags kept f :: restrictOpen flags kept fs
    else restrictOpen flags kept fs
end

variable {flags : FlagSet} {kept : List String} {f : Fragment}

theorem name_restrict (f : Fragment) : (f.restrict flags kept).name = f.name := by
  cases f
  rw [restrict]

theorem gate_restrict (f : Fragment) : (f.restrict flags kept).gate = f.gate := by
  cases f
  rw [restrict]

theorem constraints_restrict (f : Fragment) :
    (f.restrict flags kept).constraints = f.constraints.filter (kept.contains ·.target) := by
  cases f
  rw [restrict]

theorem children_restrict (f : Fragment) :
    (f.restrict flags kept).children = restrictOpen flags kept f.children := by
  cases f
  rw [restrict]

theorem mem_constraints_restrict {c : Constraint} :
    c ∈ (f.restrict flags kept).constraints ↔ c ∈ f.constraints ∧ c.target ∈ kept := by
  rw [constraints_restrict, List.mem_filter, List.contains_iff_mem]

mutual
/-- What is left of a fragment is what is reached from it. -/
theorem all_restrict : ∀ f : Fragment,
    all (restrict flags kept f) = (f.reached flags).map (restrict flags kept)
  | ⟨name, gate, items, constraints, children⟩ => by
    unfold reached
    rw [List.map_cons, restrict, all, allOf_restrictOpen children]

theorem allOf_restrictOpen : ∀ fs : List Fragment,
    allOf (restrictOpen flags kept fs) = (reachedOf flags fs).map (restrict flags kept)
  | [] => by
    rw [restrictOpen, reachedOf, allOf, List.map_nil]
  | f :: fs => by
    rw [restrictOpen, reachedOf]
    split
    · rw [allOf, List.map_append, all_restrict f, allOf_restrictOpen fs]
    · exact allOf_restrictOpen fs
end

theorem names_restrict (f : Fragment) : names (restrict flags kept f) = f.block flags := by
  rw [← map_name_all, all_restrict, List.map_map, block]
  exact List.map_congr_left fun g _ => name_restrict g

theorem namesOf_map_restrict (fs : List Fragment) :
    namesOf (fs.map (restrict flags kept)) = fs.flatMap (block flags) := by
  rw [namesOf_eq_flatMap, List.flatMap_map]
  exact List.flatMap_congr fun f _ => names_restrict f

end Fragment

/-! ## Plans and stores -/

namespace Plan

variable {plan : Plan} {store : FragmentStore} {flags : FlagSet} {kept : List String}

/-- The names of the fragments that a composition takes in. -/
def reachedNames (plan : Plan) (store : FragmentStore) (flags : FlagSet) : List String :=
  (plan.reached store flags).map (·.name)

/-- The plan without configuration, and with rules for the kept fragments only. -/
def restrict (plan : Plan) (kept : List String) : Plan :=
  { rules := plan.rules.map (RewriteRule.restrict kept), configuration := none }

/-- The store from which everything is removed that a composition leaves out. -/
def restrictStore (plan : Plan) (store : FragmentStore) (flags : FlagSet) : FragmentStore :=
  { fragments :=
      (plan.included store flags).map (Fragment.restrict flags (plan.reachedNames store flags))
    distinct := by
      rw [Fragment.namesOf_map_restrict, ← map_name_reached]
      exact nodup_reached_names }

/-! ## What is left is valid -/

theorem names_restrictStore :
    (plan.restrictStore store flags).names = plan.reachedNames store flags := by
  rw [FragmentStore.names, restrictStore, Fragment.namesOf_map_restrict, ← map_name_reached]
  rfl

theorem topLevel_restrictStore :
    (plan.restrictStore store flags).topLevel = (plan.included store flags).map (·.name) := by
  rw [FragmentStore.topLevel, restrictStore, List.map_map]
  exact List.map_congr_left fun f _ => Fragment.name_restrict f

/-- A top-level fragment that is kept is included. -/
theorem mem_included_names_of_kept {n : String} (hKept : n ∈ plan.reachedNames store flags)
    (hTop : n ∈ store.topLevel) : n ∈ (plan.included store flags).map (·.name) := by
  rw [reachedNames, map_name_reached, List.mem_flatMap] at hKept
  obtain ⟨f, hf, hn⟩ := hKept
  obtain ⟨g, hg, rfl⟩ := List.mem_map.mp hTop
  -- a name is in one tree only, so the tree in which it is reached is the one that it heads
  have hSame : f = g := FragmentStore.eq_of_mem_names (mem_included.mp hf).1 hg
    ((Fragment.block_sublist_names flags f).subset hn) g.name_mem_names
  exact List.mem_map.mpr ⟨f, hf, by rw [hSame]⟩

/-- No nested fragment of what is left declares an ordering, if none did before. -/
theorem constraints_eq_nil_of_restrict {f g : Fragment}
    (hNested : ∀ k ∈ Fragment.allOf f.children, k.constraints = [])
    (hg : g ∈ Fragment.allOf (f.restrict flags kept).children) : g.constraints = [] := by
  rw [Fragment.children_restrict, Fragment.allOf_restrictOpen] at hg
  obtain ⟨k, hk, rfl⟩ := List.mem_map.mp hg
  have hOld := hNested k ((Fragment.reachedOf_sublist_allOf flags _).subset hk)
  rw [Fragment.constraints_restrict, hOld, List.filter_nil]

theorem valid_restrict (flags : FlagSet) (h : plan.Valid store) :
    (plan.restrict (plan.reachedNames store flags)).Valid (plan.restrictStore store flags) := by
  have hStore {f : Fragment} (hf : f ∈ plan.included store flags) : f ∈ store.fragments :=
    (mem_included.mp hf).1
  refine ⟨?_, ?_, ?_, ?_, ?_⟩
  · intro f hf g hg
    obtain ⟨f, hIncluded, rfl⟩ := List.mem_map.mp hf
    exact constraints_eq_nil_of_restrict (h.nested f (hStore hIncluded)) hg
  · intro f hf c hc
    obtain ⟨f, hIncluded, rfl⟩ := List.mem_map.mp hf
    obtain ⟨hc, hKept⟩ := Fragment.mem_constraints_restrict.mp hc
    obtain ⟨hOther, hTop⟩ := h.targets f (hStore hIncluded) c hc
    rw [Fragment.name_restrict, topLevel_restrictStore]
    exact ⟨hOther, mem_included_names_of_kept hKept hTop⟩
  · rintro f hf other ⟨hPrecede, hFollow⟩
    obtain ⟨f, hIncluded, rfl⟩ := List.mem_map.mp hf
    exact h.oneWay f (hStore hIncluded) other
      ⟨(Fragment.mem_constraints_restrict.mp hPrecede).1,
        (Fragment.mem_constraints_restrict.mp hFollow).1⟩
  · intro r hr n hn
    obtain ⟨r, -, rfl⟩ := List.mem_map.mp hr
    rw [names_restrictStore, ← List.contains_iff_mem]
    exact (List.mem_filter.mp hn).2
  · intro c hc
    simp [restrict] at hc

/-! ## Order -/

section Order

variable {fs order : List Fragment}

theorem addConstraints_filter {name : String} {cs : List Constraint} {g : Precedence}
    (hGone : ∀ c ∈ cs, c.target ∉ kept → c.target ∉ g.names) :
    addConstraints name g (cs.filter (kept.contains ·.target)) = addConstraints name g cs := by
  induction cs generalizing g with
  | nil => rfl
  | cons c cs ih =>
    rw [List.forall_mem_cons] at hGone
    rw [List.filter_cons, addConstraints_cons]
    split
    · rw [addConstraints_cons]
      refine ih ?_
      rw [Precedence.names_addEdge]
      exact hGone.2
    · rename_i hNot
      -- the constraint that goes had an end that is not a node
      have hInert : g.addEdge (c.earlier name) (c.later name) = g := by
        have hTarget := hGone.1 (by simpa using hNot)
        refine Precedence.addEdge_of_not_mem ?_
        cases c with
        | mustPrecede other => exact Or.inr hTarget
        | mustFollow other => exact Or.inl hTarget
      rw [hInert]
      exact ih hGone.2

theorem addOrdering_map_restrict {g : Precedence} (hKept : g.names ⊆ kept) :
    addOrdering g (fs.map (Fragment.restrict flags kept)) = addOrdering g fs := by
  induction fs generalizing g with
  | nil => rfl
  | cons f fs ih =>
    have hGone : ∀ c ∈ f.constraints, c.target ∉ kept → c.target ∉ g.names :=
      fun c _ hNot hMem => hNot (hKept hMem)
    rw [List.map_cons, addOrdering_cons, addOrdering_cons, Fragment.name_restrict,
      Fragment.constraints_restrict, addConstraints_filter hGone]
    refine ih ?_
    rw [names_addConstraints]
    exact hKept

theorem precedence_map_restrict (hKept : fs.map (·.name) ⊆ kept) :
    precedence (fs.map (Fragment.restrict flags kept)) = precedence fs := by
  have hNames : (fs.map (Fragment.restrict flags kept)).map (·.name) = fs.map (·.name) := by
    rw [List.map_map]
    exact List.map_congr_left fun f _ => Fragment.name_restrict f
  show addOrdering { names := _ } _ = addOrdering { names := _ } _
  rw [hNames]
  exact addOrdering_map_restrict hKept

/-- Constraints on what is gone order nothing, and lie on no cycle. -/
theorem ordered_map_restrict (hKept : fs.map (·.name) ⊆ kept) :
    ordered (fs.map (Fragment.restrict flags kept))
      = (ordered fs).map (List.map (Fragment.restrict flags kept)) := by
  unfold ordered
  rw [precedence_map_restrict hKept]
  cases (precedence fs).stableOrder with
  | error e => rfl
  | ok numbers =>
    rw [ok_bind, ok_bind, Except.map, List.map_filterMap]
    simp only [List.getElem?_map]

end Order

end Plan

/-! ## Scripts -/

/-- The action with what is left of its rules. -/
def Action.restrict (kept : List String) : Action → Action
  | .enter fragment rules => .enter fragment (rules.map (RewriteRule.restrict kept))
  | .collect fragment item => .collect fragment item
  | .leave count => .leave count

theorem Engine.applyAll_map_restrict {kept : List String} {fragment : String}
    {rules : List RewriteRule} {e : Engine} :
    e.applyAll fragment (rules.map (RewriteRule.restrict kept)) = e.applyAll fragment rules := by
  induction rules generalizing e with
  | nil => rfl
  | cons r rs ih =>
    rw [List.map_cons, applyAll, applyAll]
    have hApply : e.apply (r.restrict kept) fragment = e.apply r fragment := rfl
    rw [hApply]
    simp only [ih]

/-- What is gone from a rule plays no part once the rule is applied. -/
theorem Progress.perform_map_restrict {kept : List String} {as : List Action} {p : Progress} :
    p.perform (as.map (Action.restrict kept)) = p.perform as := by
  induction as generalizing p with
  | nil => rfl
  | cons a as ih =>
    have hAct : p.act (a.restrict kept) = p.act a := by
      cases a with
      | enter fragment rules => rw [Action.restrict, act, act, Engine.applyAll_map_restrict]
      | collect fragment item => rfl
      | leave count => rfl
    rw [List.map_cons, perform, perform, hAct]
    simp only [ih]

namespace Plan

variable {plan : Plan} {store : FragmentStore} {flags : FlagSet} {kept : List String}

theorem rulesFor_restrict {n : String} (hKept : n ∈ kept) :
    (plan.restrict kept).rulesFor flags n
      = (plan.rulesFor flags n).map (RewriteRule.restrict kept) := by
  rw [rulesFor, restrict, rulesFor, List.filter_map]
  congr 1
  refine List.filter_congr fun r _ => ?_
  have hApplies : (r.restrict kept).appliesTo n = r.appliesTo n := by
    rw [Bool.eq_iff_iff, RewriteRule.appliesTo, RewriteRule.appliesTo, List.contains_iff_mem,
      List.contains_iff_mem, RewriteRule.restrict, List.mem_filter, List.contains_iff_mem]
    exact and_iff_left hKept
  show ((r.restrict kept).appliesTo n && r.gate.holds flags) = _
  rw [hApplies]

mutual
/-- The walk through what is left of a fragment is the same walk. -/
theorem script_restrict : ∀ f : Fragment, f.block flags ⊆ kept →
    (plan.restrict kept).script flags (f.restrict flags kept)
      = (plan.script flags f).map (Action.restrict kept)
  | ⟨name, gate, items, constraints, children⟩, hKept => by
    unfold Fragment.block at hKept
    rw [Fragment.reached, List.map_cons, List.cons_subset] at hKept
    rw [Fragment.restrict, script, script, rulesFor_restrict hKept.1,
      scriptOpen_restrictOpen children hKept.2]
    simp [Action.restrict, Function.comp_def]

theorem scriptOpen_restrictOpen : ∀ fs : List Fragment,
    (Fragment.reachedOf flags fs).map (·.name) ⊆ kept →
    (plan.restrict kept).scriptOpen flags (Fragment.restrictOpen flags kept fs)
      = (plan.scriptOpen flags fs).map (Action.restrict kept)
  | [], _ => by
    rw [Fragment.restrictOpen, scriptOpen, scriptOpen, List.map_nil]
  | f :: fs, hKept => by
    rw [Fragment.reachedOf] at hKept
    rw [Fragment.restrictOpen, scriptOpen]
    split
    · rename_i hOpen
      rw [if_pos hOpen, List.map_append, List.append_subset] at hKept
      rw [scriptOpen, Fragment.gate_restrict, if_pos hOpen, List.map_append,
        script_restrict f hKept.1, scriptOpen_restrictOpen fs hKept.2]
    · rename_i hClosed
      rw [if_neg hClosed] at hKept
      exact scriptOpen_restrictOpen fs hKept
end

theorem scriptAll_map_restrict {fs : List Fragment}
    (hKept : fs.flatMap (Fragment.block flags) ⊆ kept) :
    (plan.restrict kept).scriptAll flags (fs.map (Fragment.restrict flags kept))
      = (plan.scriptAll flags fs).map (Action.restrict kept) := by
  rw [scriptAll, scriptAll, List.flatMap_map, List.map_flatMap]
  refine List.flatMap_congr fun f hf => script_restrict f fun n hn => ?_
  exact hKept (List.mem_flatMap.mpr ⟨f, hf, hn⟩)

/-! ## Composition -/

theorem included_restrict :
    (plan.restrict (plan.reachedNames store flags)).included (plan.restrictStore store flags) flags
      = (plan.restrictStore store flags).fragments := by
  rw [included, List.filter_eq_self]
  intro f hf
  obtain ⟨g, hg, rfl⟩ := List.mem_map.mp hf
  rw [Fragment.gate_restrict, (mem_included.mp hg).2.2]
  rfl

theorem map_name_included_subset :
    (plan.included store flags).map (·.name) ⊆ plan.reachedNames store flags := by
  rw [reachedNames, map_name_reached]
  intro n hn
  obtain ⟨f, hf, rfl⟩ := List.mem_map.mp hn
  exact List.mem_flatMap.mpr ⟨f, hf, List.mem_map_of_mem (Fragment.self_mem_reached flags f)⟩

/-- Without a configuration no flags are forced on. -/
theorem effectiveFlags_restrict : (plan.restrict kept).effectiveFlags flags = flags :=
  rfl

/-- Composition gives the same result when everything that it leaves out is removed. -/
theorem compose_restrict (h : plan.validate store = .ok ()) :
    (plan.compose store flags).map (fun m => { m with configuration := none })
      = (plan.restrict (plan.reachedNames store (plan.effectiveFlags flags))).compose
          (plan.restrictStore store (plan.effectiveFlags flags)) (plan.effectiveFlags flags) := by
  rw [compose_eq_perform, compose_eq_perform, effectiveFlags_restrict]
  generalize plan.effectiveFlags flags = flags
  have hRestricted := validate_eq_ok_iff.mpr
    (valid_restrict flags (validate_eq_ok_iff.mp h))
  -- past the checks, each step does the same on both sides
  rw [h, hRestricted, ok_bind, ok_bind, included_restrict, restrictStore,
    ordered_map_restrict map_name_included_subset]
  cases hOrder : ordered (plan.included store flags) with
  | error e => rfl
  | ok order =>
    have hKept : order.flatMap (Fragment.block flags) ⊆ plan.reachedNames store flags := by
      have hPerm := (stableOrder_of_ordered nodup_included_names hOrder).perm
      rw [reachedNames, map_name_reached]
      exact (hPerm.flatMap_right _).subset
    rw [Except.map, ok_bind, ok_bind, scriptAll_map_restrict hKept,
      Progress.perform_map_restrict]
    cases (Progress.start flags).perform (plan.scriptAll flags order) with
    | error e => rfl
    | ok p => rfl

/-- From the sample go `extra` with the constraint on it, and the closed fragment. -/
theorem compose_restrict_sample :
    Sample.plan.validate Sample.store = .ok () ∧
      (Sample.plan.compose Sample.store .empty).map (fun m => { m with configuration := none })
        = (Sample.plan.restrict
            (Sample.plan.reachedNames Sample.store (Sample.plan.effectiveFlags .empty))).compose
          (Sample.plan.restrictStore Sample.store (Sample.plan.effectiveFlags .empty))
          (Sample.plan.effectiveFlags .empty) :=
  ⟨rfl, compose_restrict rfl⟩

end Plan

end DeclSurface
