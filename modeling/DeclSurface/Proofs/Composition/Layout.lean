import DeclSurface.Proofs.Composition.Collection
import DeclSurface.Proofs.Composition.Order

/-!
# The layout of a manifest

A manifest lists the included top-level fragments in stable order, each followed by the fragments
that are reached inside it, and its items stand in the order of their fragments.

* `Layout`          — what is promised about fragments and items.
* `compose_layout`  — every composed manifest is laid out like this.
-/

namespace DeclSurface

variable {flags : FlagSet}

/-- How a manifest lays out the fragments in `included`, given in registration order. -/
structure Layout (included : List Fragment) (flags : FlagSet) (m : Manifest) : Prop where
  /-- The fragments are the blocks of the included ones, one after the other in stable order. -/
  blocks : ∃ order, Plan.ordered included = .ok order ∧ Plan.StableOrder included order ∧
    m.fragments = order.flatMap (Fragment.block flags)
  distinct : m.fragments.Nodup
  /-- Constraints hold between whole blocks. -/
  respects : ∀ f ∈ included, ∀ g ∈ included, f.Before g →
    ∃ pre mid post, m.fragments = pre ++ f.block flags ++ mid ++ g.block flags ++ post
  /-- Every item belongs to a fragment of the manifest. -/
  known : ∀ i ∈ m.items, i.fragment ∈ m.fragments
  /-- The items stand in the order of their fragments. -/
  grouped : (m.items.map fun i => m.fragments.idxOf i.fragment).Pairwise (· ≤ ·)

/-! ## Items in the order of their fragments -/

theorem fragment_of_mem_declared {f : Fragment} {i : ManifestItem} (h : i ∈ f.declared) :
    i.fragment = f.name := by
  unfold Fragment.declared at h
  rw [List.mem_map] at h
  obtain ⟨_, -, rfl⟩ := h
  rfl

theorem fragment_mem_of_mem_flatMap {fs : List Fragment} {i : ManifestItem}
    (h : i ∈ fs.flatMap Fragment.declared) : i.fragment ∈ fs.map (·.name) := by
  obtain ⟨f, hf, hi⟩ := List.mem_flatMap.mp h
  rw [fragment_of_mem_declared hi]
  exact List.mem_map_of_mem hf

/-- Along the items of fragments with distinct names, the place of the fragment never falls. -/
theorem pairwise_idxOf_declared {fs : List Fragment} (hNodup : (fs.map (·.name)).Nodup) :
    (fs.flatMap Fragment.declared).Pairwise fun i j =>
      (fs.map (·.name)).idxOf i.fragment ≤ (fs.map (·.name)).idxOf j.fragment := by
  induction fs with
  | nil => exact List.Pairwise.nil
  | cons f fs ih =>
    rw [List.map_cons, List.nodup_cons] at hNodup
    rw [List.flatMap_cons, List.map_cons, List.pairwise_append]
    -- the items of the first fragment have place 0, and all others a later one
    have hFirst {i : ManifestItem} (hi : i ∈ f.declared) :
        (f.name :: fs.map (·.name)).idxOf i.fragment = 0 := by
      rw [fragment_of_mem_declared hi, List.idxOf_cons_self]
    have hLater {i : ManifestItem} (hi : i ∈ fs.flatMap Fragment.declared) :
        (f.name :: fs.map (·.name)).idxOf i.fragment
          = (fs.map (·.name)).idxOf i.fragment + 1 := by
      refine List.idxOf_cons_ne _ ?_
      rintro hEq
      exact hNodup.1 (hEq ▸ fragment_mem_of_mem_flatMap hi)
    refine ⟨?_, ?_, ?_⟩
    · refine List.pairwise_of_forall_mem_list fun i hi j hj => ?_
      rw [hFirst hi, hFirst hj]
    · refine (ih hNodup.2).imp_of_mem fun {i j} hi hj hLe => ?_
      rw [hLater hi, hLater hj]
      omega
    · intro i hi j _
      rw [hFirst hi]
      exact Nat.zero_le _

/-! ## Blocks -/

/-- Where a fragment stands before another, so do their blocks. -/
theorem flatMap_block_split {pre mid post order : List Fragment} {f g : Fragment}
    (h : order = pre ++ f :: mid ++ g :: post) :
    order.flatMap (Fragment.block flags)
      = pre.flatMap (Fragment.block flags) ++ f.block flags ++ mid.flatMap (Fragment.block flags)
        ++ g.block flags ++ post.flatMap (Fragment.block flags) := by
  rw [h]
  simp only [List.flatMap_append, List.flatMap_cons, List.append_assoc]

theorem map_name_flatMap_reached (flags : FlagSet) (fs : List Fragment) :
    (fs.flatMap (Fragment.reached flags)).map (·.name) = fs.flatMap (Fragment.block flags) := by
  rw [List.map_flatMap]
  rfl

namespace Plan

variable {plan : Plan} {store : FragmentStore} {m : Manifest}

/-- What a composed manifest takes from its script. -/
theorem fragments_and_items_of_compose (h : plan.compose store flags = .ok m) :
    ∃ order, ordered (plan.included store (plan.effectiveFlags flags)) = .ok order ∧
      m.fragments = order.flatMap (Fragment.block (plan.effectiveFlags flags)) ∧
      m.items.Sublist
        ((order.flatMap (Fragment.reached (plan.effectiveFlags flags))).flatMap
          Fragment.declared) := by
  obtain ⟨-, order, hOrder, p, hPerform, rfl⟩ := compose_eq_ok_iff.mp h
  refine ⟨order, hOrder, ?_, ?_⟩
  · have hFragments := Progress.fragments_of_perform hPerform
    rw [names_scriptAll] at hFragments
    exact hFragments
  · obtain ⟨items, hSub, hItems⟩ := Progress.items_of_perform hPerform
    rw [declarations_scriptAll] at hSub
    have hEq : p.collected.items = items := hItems
    show p.collected.items.Sublist _
    rw [hEq]
    exact hSub

/-- Every composed manifest lays out the included fragments in stable order, by blocks. -/
theorem compose_layout (h : plan.compose store flags = .ok m) :
    Layout (plan.included store (plan.effectiveFlags flags)) (plan.effectiveFlags flags) m := by
  obtain ⟨order, hOrder, hFragments, hItems⟩ := fragments_and_items_of_compose h
  have hStable := stableOrder_of_ordered nodup_included_names hOrder
  have hNames := map_name_flatMap_reached (plan.effectiveFlags flags) order
  rw [← hFragments] at hNames
  have hNodup : m.fragments.Nodup := by
    have hPerm := hStable.perm.flatMap_right (Fragment.block (plan.effectiveFlags flags))
    rw [hFragments, hPerm.nodup_iff, ← map_name_reached]
    exact nodup_reached_names
  refine ⟨⟨order, hOrder, hStable, hFragments⟩, hNodup, ?_, ?_, ?_⟩
  · intro f hf g hg hBefore
    obtain ⟨pre, mid, post, hSplit⟩ := hStable.respects f hf g hg hBefore
    rw [hFragments]
    exact ⟨_, _, _, flatMap_block_split hSplit⟩
  · intro i hi
    rw [← hNames]
    exact fragment_mem_of_mem_flatMap (hItems.subset hi)
  · rw [List.pairwise_map, ← hNames]
    rw [← hNames] at hNodup
    exact (pairwise_idxOf_declared hNodup).sublist hItems

theorem compose_layout_sample :
    ∃ m, Sample.plan.compose Sample.store .empty = .ok m ∧
      m.fragments = ["early", "open", "late"] ∧
      Layout (Sample.plan.included Sample.store (Sample.plan.effectiveFlags .empty))
        (Sample.plan.effectiveFlags .empty) m :=
  ⟨_, rfl, rfl, compose_layout rfl⟩

end Plan

end DeclSurface
