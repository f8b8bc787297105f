import DeclSurface.Composition.Basic
import DeclSurface.Library.Basic
import Mathlib.Data.List.Flatten

/-!
# Reached fragments

Which fragments a composition takes in: the included top-level ones, and the fragments nested in
them as far as all gates on the way are open.

* `Fragment.reached`  — a fragment with those nested in it that are reached, depth first.
* `Fragment.block`    — their names, which is what the fragment adds to a manifest.
* `Plan.reached`      — all fragments that a store contributes.
* `Plan.nodup_reached_names` — no name is reached twice.
-/

namespace DeclSurface

namespace Fragment

mutual
/-- A fragment, then those nested in it that are reached through open gates, depth first. -/
def reached (flags : FlagSet) : Fragment → List Fragment
  | ⟨name, gate, items, constraints, children⟩ =>
    ⟨name, gate, items, constraints, children⟩ :: reachedOf flags children

/-- The fragments reached from those in a list whose gates are open. -/
def reachedOf (flags : FlagSet) : List Fragment → List Fragment
  | [] => []
  | f :: fs =>
    if f.gate.holds flags then reached flags f ++ reachedOf flags fs else reachedOf flags fs
end

/-- The names of the fragments that are reached from a fragment, its own first. -/
def block (flags : FlagSet) (f : Fragment) : List String :=
  (f.reached flags).map (·.name)

/-! ## Lists of trees -/

theorem allOf_eq_flatMap (fs : List Fragment) : allOf fs = fs.flatMap all := by
  induction fs with
  | nil => rfl
  | cons f fs ih => rw [allOf, ih, List.flatMap_cons]

theorem namesOf_eq_flatMap (fs : List Fragment) : namesOf fs = fs.flatMap names := by
  induction fs with
  | nil => rfl
  | cons f fs ih => rw [namesOf, ih, List.flatMap_cons]

theorem all_eq_cons (f : Fragment) : all f = f :: allOf f.children := by
  cases f
  rw [all]

theorem self_mem_all (f : Fragment) : f ∈ all f := by
  rw [all_eq_cons]
  exact List.mem_cons_self

theorem name_mem_names (f : Fragment) : f.name ∈ names f := by
  rw [← map_name_all]
  exact List.mem_map_of_mem (self_mem_all f)

theorem mem_namesOf {fs : List Fragment} {n : String} :
    n ∈ namesOf fs ↔ ∃ f ∈ fs, n ∈ names f := by
  rw [namesOf_eq_flatMap, List.mem_flatMap]

mutual
theorem names_subset_of_mem_all : ∀ {f g : Fragment}, g ∈ all f → names g ⊆ names f
  | ⟨_, _, _, _, children⟩, g, h => by
    rw [all] at h
    rcases List.mem_cons.mp h with rfl | h
    · exact List.Subset.refl _
    · intro n hn
      rw [names]
      exact List.mem_cons_of_mem _ (names_subset_of_mem_allOf h hn)

theorem names_subset_of_mem_allOf : ∀ {fs : List Fragment} {g : Fragment}, g ∈ allOf fs →
    names g ⊆ namesOf fs
  | f :: fs, g, h => by
    rw [allOf] at h
    rw [namesOf]
    rcases List.mem_append.mp h with h | h
    · exact fun n hn => List.mem_append_left _ (names_subset_of_mem_all h hn)
    · exact fun n hn => List.mem_append_right _ (names_subset_of_mem_allOf h hn)
end

theorem nodup_names_of_mem {fs : List Fragment} (hNodup : (namesOf fs).Nodup) {f : Fragment}
    (hf : f ∈ fs) : (names f).Nodup := by
  rw [namesOf_eq_flatMap, List.flatMap_def] at hNodup
  exact (List.sublist_flatten_of_mem (List.mem_map_of_mem hf)).nodup hNodup

/-- Trees of a list whose names are distinct share no name. -/
theorem eq_of_mem_names {fs : List Fragment} (hNodup : (namesOf fs).Nodup) {f g : Fragment}
    (hf : f ∈ fs) (hg : g ∈ fs) {n : String} (hnf : n ∈ names f) (hng : n ∈ names g) : f = g := by
  induction fs with
  | nil => simp at hf
  | cons h fs ih =>
    rw [namesOf, List.nodup_append] at hNodup
    obtain ⟨-, hTail, hDisjoint⟩ := hNodup
    rcases List.mem_cons.mp hf with rfl | hfs
    · rcases List.mem_cons.mp hg with rfl | hgs
      · rfl
      · exact absurd rfl (hDisjoint n hnf n (mem_namesOf.mpr ⟨g, hgs, hng⟩))
    · rcases List.mem_cons.mp hg with rfl | hgs
      · exact absurd rfl (hDisjoint n hng n (mem_namesOf.mpr ⟨f, hfs, hnf⟩))
      · exact ih hTail hfs hgs

/-! ## What is reached is part of the tree -/

mutual
theorem reached_sublist_all (flags : FlagSet) : ∀ f : Fragment, (reached flags f).Sublist (all f)
  | ⟨_, _, _, _, children⟩ => by
    unfold reached
    rw [all]
    exact (reachedOf_sublist_allOf flags children).cons_cons _

theorem reachedOf_sublist_allOf (flags : FlagSet) :
    ∀ fs : List Fragment, (reachedOf flags fs).Sublist (allOf fs)
  | [] => List.Sublist.refl _
  | f :: fs => by
    rw [reachedOf, allOf]
    split
    · exact (reached_sublist_all flags f).append (reachedOf_sublist_allOf flags fs)
    · exact (reachedOf_sublist_allOf flags fs).trans (List.sublist_append_right _ _)
end

theorem self_mem_reached (flags : FlagSet) (f : Fragment) : f ∈ reached flags f := by
  cases f
  unfold reached
  exact List.mem_cons_self

theorem block_sublist_names (flags : FlagSet) (f : Fragment) :
    (f.block flags).Sublist (names f) := by
  rw [← map_name_all]
  exact (reached_sublist_all flags f).map _

end Fragment

/-! ## Stores -/

namespace FragmentStore

variable {store : FragmentStore}

theorem nodup_map_name_allOf (store : FragmentStore) :
    ((Fragment.allOf store.fragments).map (·.name)).Nodup := by
  rw [Fragment.map_name_allOf]
  exact store.distinct

theorem topLevel_sublist_names (store : FragmentStore) : store.topLevel.Sublist store.names := by
  unfold topLevel
  rw [names, Fragment.namesOf_eq_flatMap]
  induction store.fragments with
  | nil => exact List.Sublist.refl _
  | cons f fs ih =>
    rw [List.map_cons, List.flatMap_cons]
    exact (List.singleton_sublist.mpr f.name_mem_names).append ih

theorem nodup_topLevel (store : FragmentStore) : store.topLevel.Nodup :=
  (topLevel_sublist_names store).nodup store.distinct

/-- A name belongs to one top-level tree only. -/
theorem eq_of_mem_names {f g : Fragment} (hf : f ∈ store.fragments) (hg : g ∈ store.fragments)
    {n : String} (hnf : n ∈ f.names) (hng : n ∈ g.names) : f = g :=
  Fragment.eq_of_mem_names store.distinct hf hg hnf hng

end FragmentStore

namespace Plan

variable {plan : Plan} {store : FragmentStore} {flags : FlagSet}

/-- The fragments that a composition takes in, nested ones included, by top-level fragment. -/
def reached (plan : Plan) (store : FragmentStore) (flags : FlagSet) : List Fragment :=
  (plan.included store flags).flatMap (Fragment.reached flags)

theorem mem_included {f : Fragment} :
    f ∈ plan.included store flags ↔
      f ∈ store.fragments ∧ plan.allows f.name = true ∧ f.gate.holds flags = true := by
  rw [included, List.mem_filter, Bool.and_eq_true]

theorem included_sublist : (plan.included store flags).Sublist store.fragments :=
  List.filter_sublist

theorem nodup_included_names : ((plan.included store flags).map (·.name)).Nodup :=
  (included_sublist.map _).nodup store.nodup_topLevel

theorem reached_sublist_allOf :
    (plan.reached store flags).Sublist (Fragment.allOf store.fragments) := by
  unfold reached
  rw [Fragment.allOf_eq_flatMap]
  exact (included_sublist.flatMap _).trans
    (List.Sublist.flatMap_right _ fun f _ => Fragment.reached_sublist_all flags f)

/-- No two fragments that are reached share a name. -/
theorem nodup_reached_names : ((plan.reached store flags).map (·.name)).Nodup :=
  (reached_sublist_allOf.map _).nodup store.nodup_map_name_allOf

theorem map_name_reached :
    (plan.reached store flags).map (·.name)
      = (plan.included store flags).flatMap (Fragment.block flags) := by
  unfold reached
  rw [List.map_flatMap]
  rfl

end Plan

/-! ## A small surface -/

namespace Sample

/--
Three fragments, one of which holds an open and a closed one. The configuration below leaves out
`extra`, and with it a cycle.
-/
def fragments : List Fragment :=
  [{ name := "late", gate := .always, items := [⟨.header "a.h" false, true⟩]
     constraints := [.mustFollow "early"], children := [] },
   { name := "extra", gate := .always, items := [⟨.header "b.h" false, false⟩]
     constraints := [.mustPrecede "early"], children := [] },
   { name := "early", gate := .always, items := [⟨.header "c.h" true, false⟩]
     constraints := [.mustPrecede "extra"]
     children :=
      [{ name := "open", gate := .flag "FOO", constraints := [], children := []
         items := [⟨.header "b.h" false, false⟩, ⟨.header "a.h" false, true⟩] },
       { name := "closed", gate := .not (.flag "FOO"), constraints := [], children := []
         items := [⟨.header "b.h" false, false⟩] }] }]

def store : FragmentStore :=
  ⟨fragments, by decide⟩

/-- Two rules, the second of them nested in the first, for a configuration without `extra`. -/
def plan : Plan :=
  { rules :=
      [{ symbol := "INIT(x)", value := "x", fragments := ["early", "open"]
         restore := .reinstate, gate := .always },
       { symbol := "FOO", value := "2", fragments := ["open", "extra"]
         restore := .undefine, gate := .flag "FOO" }]
    configuration := some { name := "small", flags := ["FOO"], fragments := ["late", "early"] } }

/-- The library of these fragments and rules, with their configuration. -/
def described : Library :=
  { name := "sample"
    fragments
    rewrites := plan.rules
    configurations := .ofList (plan.configuration.toList.map fun c => (c.name, c)) }

example : (plan.reached store (plan.effectiveFlags .empty)).map (·.name) =
    ["late", "early", "open"] := by
  decide +kernel

end Sample

end DeclSurface
