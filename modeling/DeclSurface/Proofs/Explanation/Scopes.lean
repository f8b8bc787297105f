import DeclSurface.Explanation.Basic
import DeclSurface.Proofs.Composition.Scope
import Mathlib.Data.List.Nodup
import Mathlib.Data.List.Pairwise

/-!
# Finding the scopes of a fragment

An explanation finds the scopes of a fragment from the inside, looking for whoever holds a fragment
of the name at hand. Where names are distinct, each fragment is a top-level one or is held by one
other, so the search passes through the fragments around it and ends at the top.

* `perm_allOf`            — every fragment is a top-level one or nested directly in one other.
* `parent?_of_mem_children` — the search for a parent finds it.
* `around_of_mem_children`  — what is around a nested fragment is around its parent.
* `scopes?_eq_around`     — the scopes that are found are those around the fragment.
-/

namespace DeclSurface

namespace Fragment

variable {fs : List Fragment} {f g : Fragment}

mutual
/-- Below a fragment, each one is nested directly in one other. -/
theorem perm_all : ∀ f : Fragment, (all f).Perm (f :: (all f).flatMap (·.children))
  | ⟨name, gate, items, constraints, children⟩ => by
    rw [all, List.flatMap_cons]
    exact (perm_allOf children).cons _

/-- Each fragment is a top-level one or nested directly in one other. -/
theorem perm_allOf : ∀ fs : List Fragment,
    (allOf fs).Perm (fs ++ (allOf fs).flatMap (·.children))
  | [] => List.Perm.refl _
  | f :: fs => by
    rw [allOf, List.flatMap_append]
    refine ((perm_all f).append (perm_allOf fs)).trans ?_
    rw [List.cons_append, List.cons_append, ← List.append_assoc, ← List.append_assoc]
    exact (List.perm_append_comm.append_right _).cons _
end

theorem mem_allOf_iff : f ∈ allOf fs ↔ f ∈ fs ∨ ∃ g ∈ allOf fs, f ∈ g.children := by
  rw [(perm_allOf fs).mem_iff, List.mem_append, List.mem_flatMap]

/-- What is found by a name is a fragment of that name. -/
theorem of_find?_eq_some {n : String} (h : find? fs n = some f) : f ∈ allOf fs ∧ f.name = n := by
  unfold find? at h
  have hFound := List.find?_some h
  exact ⟨List.mem_of_find?_eq_some h, eq_of_beq hFound⟩

/-! ## Parents -/

/-- The names of top-level fragments and those of nested ones are all distinct. -/
theorem nodup_held_names (hNodup : (namesOf fs).Nodup) :
    (fs.map (·.name) ++ (allOf fs).flatMap fun g => g.children.map (·.name)).Nodup := by
  rw [← map_name_allOf, ((perm_allOf fs).map _).nodup_iff, List.map_append, List.map_flatMap]
    at hNodup
  exact hNodup

theorem holds_iff {n : String} : g.holds n = true ↔ n ∈ g.children.map (·.name) := by
  simp [holds]

/-- No fragment holds a top-level one. -/
theorem parent?_of_mem (hNodup : (namesOf fs).Nodup) (hf : f ∈ fs) : parent? fs f.name = none := by
  have hDisjoint := (List.nodup_append.mp (nodup_held_names hNodup)).2.2
  rw [parent?, List.find?_eq_none]
  intro g hg hHolds
  refine hDisjoint f.name (List.mem_map_of_mem hf) f.name ?_ rfl
  exact List.mem_flatMap.mpr ⟨g, hg, holds_iff.mp hHolds⟩

/-- Whoever holds a fragment is found as its parent, for there is no other. -/
theorem parent?_of_mem_children (hNodup : (namesOf fs).Nodup) (hg : g ∈ allOf fs)
    (hf : f ∈ g.children) : parent? fs f.name = some g := by
  have hHeld := (List.nodup_append.mp (nodup_held_names hNodup)).2.1
  have hHolds : g.holds f.name = true := holds_iff.mpr (List.mem_map_of_mem hf)
  cases hFind : parent? fs f.name with
  | none => exact absurd hHolds (List.find?_eq_none.mp hFind g hg)
  | some p =>
    unfold parent? at hFind
    have hp : p ∈ allOf fs := List.mem_of_find?_eq_some hFind
    have hpHolds : p.holds f.name = true := by
      have hFound := List.find?_some hFind
      exact hFound
    -- otherwise two fragments would hold one name
    by_contra hNe
    have hSymm : Std.Symm
        (Function.onFun List.Disjoint fun g : Fragment => g.children.map (·.name)) :=
      ⟨fun _ _ h _ hn hn' => h hn' hn⟩
    have hDisjoint := (List.nodup_flatMap.mp hHeld).2.forall hp hg fun h => hNe (congrArg _ h)
    exact hDisjoint (holds_iff.mp hpHolds) (holds_iff.mp hHolds)

/-! ## What is around a fragment -/

/-- Nothing is around a top-level fragment. -/
theorem around_of_mem (hNodup : (namesOf fs).Nodup) (hf : f ∈ fs) : around fs f.name = [f] := by
  have hNames := nodup_names_of_mem hNodup hf
  rw [around_eq_of_mem hNodup hf f.name_mem_names, around_self f.name_mem_names]
  obtain ⟨name, gate, items, constraints, children⟩ := f
  rw [names, List.nodup_cons] at hNames
  rw [around_eq_nil hNames.1]

theorem mem_names_of_mem_children (hf : f ∈ g.children) : f.name ∈ names g := by
  obtain ⟨name, gate, items, constraints, children⟩ := g
  rw [names]
  exact List.mem_cons_of_mem _ (mem_namesOf.mpr ⟨f, hf, f.name_mem_names⟩)

mutual
/-- In a tree, what is around a nested fragment is around its parent. -/
theorem around_tree_of_mem_children : ∀ {t : Fragment}, (names t).Nodup → g ∈ all t →
    f ∈ g.children → around [t] f.name = around [t] g.name ++ [f]
  | ⟨name, gate, items, constraints, children⟩, hNodup, hg, hf => by
    have hNames := names_subset_of_mem_all hg
    rw [names, List.nodup_cons] at hNodup
    rw [around_self (hNames (mem_names_of_mem_children hf)), around_self (hNames g.name_mem_names)]
    rw [all] at hg
    rcases List.mem_cons.mp hg with rfl | hg
    · rw [around_of_mem hNodup.2 hf, around_eq_nil hNodup.1]
      rfl
    · rw [around_of_mem_children hNodup.2 hg hf]
      rfl

/-- What is around a nested fragment is around its parent. -/
theorem around_of_mem_children : ∀ {fs : List Fragment}, (namesOf fs).Nodup → g ∈ allOf fs →
    f ∈ g.children → around fs f.name = around fs g.name ++ [f]
  | [], _, hg, _ => by simp [allOf] at hg
  | t :: fs, hNodup, hg, hf => by
    rw [namesOf, List.nodup_append] at hNodup
    obtain ⟨hTree, hRest, hDisjoint⟩ := hNodup
    have hf' := mem_names_of_mem_children hf
    rw [around_cons, around_cons t fs]
    rw [allOf] at hg
    -- names are distinct, so only one of the trees holds the two
    rcases List.mem_append.mp hg with hg | hg
    · have hNames := names_subset_of_mem_all hg
      have hNone {n : String} (hn : n ∈ names t) : around fs n = [] :=
        around_eq_nil fun h => hDisjoint n hn n h rfl
      rw [hNone (hNames hf'), hNone (hNames g.name_mem_names), List.append_nil, List.append_nil]
      exact around_tree_of_mem_children hTree hg hf
    · have hNames := names_subset_of_mem_allOf hg
      have hNone {n : String} (hn : n ∈ namesOf fs) : around [t] n = [] := by
        refine around_eq_nil fun h => ?_
        rw [namesOf, namesOf, List.append_nil] at h
        exact hDisjoint n h n hn rfl
      rw [hNone (hNames hf'), hNone (hNames g.name_mem_names), List.nil_append, List.nil_append]
      exact around_of_mem_children hRest hg hf
end

/-! ## The search -/

/-- With as many steps as there are scopes, the search ends at the top. -/
theorem climb_eq_around (hNodup : (namesOf fs).Nodup) {steps : Nat} (hf : f ∈ allOf fs)
    (hSteps : (around fs f.name).length ≤ steps) :
    climb fs steps f = some (around fs f.name) := by
  induction steps generalizing f with
  | zero =>
    -- the fragment itself is one of its scopes
    have hPos := List.length_pos_of_mem (mem_around_self hf)
    omega
  | succ steps ih =>
    rw [climb]
    rcases mem_allOf_iff.mp hf with hTop | ⟨g, hg, hChild⟩
    · rw [parent?_of_mem hNodup hTop, around_of_mem hNodup hTop]
    · have hAround := around_of_mem_children hNodup hg hChild
      have hLength : (around fs g.name).length ≤ steps := by
        rw [hAround, List.length_append, List.length_singleton] at hSteps
        omega
      rw [parent?_of_mem_children hNodup hg hChild, hAround]
      dsimp only
      rw [ih hg hLength, Option.map_some]

/-- The scopes that are found by name are those around the fragment. -/
theorem scopes?_eq_around (hNodup : (namesOf fs).Nodup) (hf : f ∈ allOf fs) :
    scopes? fs f = some (around fs f.name) :=
  climb_eq_around hNodup hf (List.length_filter_le _ _)

end Fragment

end DeclSurface
