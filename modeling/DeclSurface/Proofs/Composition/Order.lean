import DeclSurface.Proofs.Composition.Reach
import DeclSurface.Proofs.Outcome
import DeclSurface.Proofs.Precedence.Calls
import DeclSurface.Proofs.Precedence.Countdown
import Mathlib.Data.List.Nodup

/-!
# The order of fragments

Constraints become edges between the numbers of fragments. What holds of placing numbers is
carried over to the fragments they stand for.

* `leads_precedence_iff`     — edges are exactly the constraints among the fragments at hand.
* `StableOrder`              — registration order, changed no further than constraints ask.
* `stableOrder_of_ordered`   — the order of a composition is a stable order.
* `exists_ordered_iff`       — there is one exactly when constraints form no cycle.
-/

namespace DeclSurface

open Relation

/-- The fragment that a constraint of the fragment `name` puts first. -/
def Constraint.earlier (name : String) : Constraint → String
  | mustPrecede _ => name
  | mustFollow other => other

/-- The fragment that a constraint of the fragment `name` puts second. -/
def Constraint.later (name : String) : Constraint → String
  | mustPrecede other => other
  | mustFollow _ => name

/-- A constraint of one of the two fragments asks for `f` to come before `g`. -/
def Fragment.Before (f g : Fragment) : Prop :=
  .mustPrecede g.name ∈ f.constraints ∨ .mustFollow f.name ∈ g.constraints

instance {f g : Fragment} : Decidable (f.Before g) :=
  inferInstanceAs (Decidable (_ ∨ _))

namespace Plan

variable {fs order : List Fragment} {i j : Nat}

theorem addConstraints_cons (name : String) (g : Precedence) (c : Constraint)
    (cs : List Constraint) :
    addConstraints name g (c :: cs)
      = addConstraints name (g.addEdge (c.earlier name) (c.later name)) cs := by
  cases c with
  | mustPrecede other => rfl
  | mustFollow other => rfl

theorem names_addConstraints {name : String} {cs : List Constraint} {g : Precedence} :
    (addConstraints name g cs).names = g.names := by
  induction cs generalizing g with
  | nil => rfl
  | cons c cs ih => rw [addConstraints_cons, ih, Precedence.names_addEdge]

theorem mem_edges_addConstraints {name : String} {cs : List Constraint} {g : Precedence}
    {e : Nat × Nat} :
    e ∈ (addConstraints name g cs).edges ↔
      e ∈ g.edges ∨ ∃ c ∈ cs, Precedence.index? g.names (c.earlier name) = some e.1 ∧
        Precedence.index? g.names (c.later name) = some e.2 := by
  induction cs generalizing g with
  | nil => simp [addConstraints]
  | cons c cs ih =>
    rw [addConstraints_cons, ih, Precedence.mem_edges_addEdge, Precedence.names_addEdge,
      List.exists_mem_cons_iff, or_assoc]

/-- The graph `g` with the edges that the constraints of some fragments ask for. -/
def addOrdering (g : Precedence) (fs : List Fragment) : Precedence :=
  fs.foldl (fun g f => addConstraints f.name g f.constraints) g

theorem addOrdering_cons (g : Precedence) (f : Fragment) (fs : List Fragment) :
    addOrdering g (f :: fs) = addOrdering (addConstraints f.name g f.constraints) fs :=
  rfl

theorem names_addOrdering {g : Precedence} : (addOrdering g fs).names = g.names := by
  induction fs generalizing g with
  | nil => rfl
  | cons f fs ih =>
    rw [addOrdering_cons, ih, names_addConstraints]

theorem mem_edges_addOrdering {g : Precedence} {e : Nat × Nat} :
    e ∈ (addOrdering g fs).edges ↔
      e ∈ g.edges ∨ ∃ f ∈ fs, ∃ c ∈ f.constraints,
        Precedence.index? g.names (c.earlier f.name) = some e.1 ∧
        Precedence.index? g.names (c.later f.name) = some e.2 := by
  induction fs generalizing g with
  | nil => simp [addOrdering]
  | cons f fs ih =>
    rw [addOrdering_cons, ih, mem_edges_addConstraints, names_addConstraints,
      List.exists_mem_cons_iff, or_assoc]

theorem names_precedence : (precedence fs).names = fs.map (·.name) :=
  names_addOrdering

theorem size_precedence : (precedence fs).size = fs.length := by
  unfold Precedence.size
  rw [names_precedence, List.length_map]

theorem getElem?_of_name {f : Fragment} (hNodup : (fs.map (·.name)).Nodup) (hf : f ∈ fs)
    (h : (fs.map (·.name))[i]? = some f.name) : fs[i]? = some f := by
  rw [List.getElem?_map, Option.map_eq_some_iff] at h
  obtain ⟨g, hg, hName⟩ := h
  rw [hg, List.inj_on_of_nodup_map hNodup (List.mem_of_getElem? hg) hf hName]

/-- The edges are the constraints among the fragments at hand. -/
theorem leads_precedence_iff (hNodup : (fs.map (·.name)).Nodup) :
    (precedence fs).Leads i j ↔ ∃ f g, fs[i]? = some f ∧ fs[j]? = some g ∧ f.Before g := by
  have hEdges : (precedence fs).Leads i j ↔ ∃ f ∈ fs, ∃ c ∈ f.constraints,
      (fs.map (·.name))[i]? = some (c.earlier f.name) ∧
      (fs.map (·.name))[j]? = some (c.later f.name) := by
    simp only [← Precedence.index?_eq_some_iff hNodup]
    exact mem_edges_addOrdering.trans (or_iff_right (List.not_mem_nil))
  -- the constraint may stand on either of the two fragments
  rw [hEdges]
  constructor
  · rintro ⟨f, hf, c, hc, hi, hj⟩
    cases c with
    | mustPrecede other =>
      rw [List.getElem?_map, Option.map_eq_some_iff] at hj
      obtain ⟨g, hg, rfl⟩ := hj
      exact ⟨f, g, getElem?_of_name hNodup hf hi, hg, Or.inl hc⟩
    | mustFollow other =>
      rw [List.getElem?_map, Option.map_eq_some_iff] at hi
      obtain ⟨g, hg, rfl⟩ := hi
      exact ⟨g, f, hg, getElem?_of_name hNodup hf hj, Or.inr hc⟩
  · rintro ⟨f, g, hf, hg, hc | hc⟩
    · refine ⟨f, List.mem_of_getElem? hf, _, hc, ?_, ?_⟩
      · simp [hf, Constraint.earlier]
      · simp [hg, Constraint.later]
    · refine ⟨g, List.mem_of_getElem? hg, _, hc, ?_, ?_⟩
      · simp [hf, Constraint.earlier]
      · simp [hg, Constraint.later]

theorem inRange_precedence (hNodup : (fs.map (·.name)).Nodup) : (precedence fs).InRange := by
  intro i j h
  obtain ⟨f, g, hf, hg, -⟩ := (leads_precedence_iff hNodup).mp h
  rw [size_precedence]
  exact ⟨(List.getElem?_eq_some_iff.mp hf).1, (List.getElem?_eq_some_iff.mp hg).1⟩

/-! ## Fragments in order -/

/--
`order` is the stable order of `fs`, which is given in registration order: all of `fs`, each
after those that constraints put before it, and a fragment stands before one registered
earlier only while something else holds that one back.
-/
structure StableOrder (fs order : List Fragment) : Prop where
  perm : order.Perm fs
  respects : ∀ f ∈ fs, ∀ g ∈ fs, f.Before g → ∃ pre mid post, order = pre ++ f :: mid ++ g :: post
  stable : ∀ pre g post, order = pre ++ g :: post → ∀ f ∈ post, [f, g].Sublist fs →
    ∃ h ∈ g :: post, h.Before f

/-- No constraints among `fs` lead from a fragment back to it. -/
def Acyclic (fs : List Fragment) : Prop :=
  ∀ f, ¬ TransGen (fun a b => a ∈ fs ∧ b ∈ fs ∧ a.Before b) f f

/-- The fragment that a number stands for. -/
def node (fs : List Fragment) (i : Nat) : Fragment :=
  fs.getD i default

theorem getElem?_eq_node (h : i < fs.length) : fs[i]? = some (node fs i) := by
  unfold node
  rw [List.getD_eq_getElem?_getD, List.getElem?_eq_getElem h, Option.getD_some]

theorem node_of_getElem? {f : Fragment} (h : fs[i]? = some f) : node fs i = f := by
  unfold node
  rw [List.getD_eq_getElem?_getD, h, Option.getD_some]

theorem map_node_range : (List.range fs.length).map (node fs) = fs := by
  apply List.ext_getElem?
  intro i
  rcases Nat.lt_or_ge i fs.length with hLt | hGe
  · rw [List.getElem?_map, List.getElem?_range hLt, getElem?_eq_node hLt, Option.map_some]
  · rw [List.getElem?_eq_none (by simpa using hGe), List.getElem?_eq_none hGe]

theorem acyclic_iff (hNodup : (fs.map (·.name)).Nodup) : (precedence fs).Acyclic ↔ Acyclic fs := by
  constructor
  · intro h f hCycle
    -- a cycle of fragments is one of their numbers
    refine h _ (hCycle.lift (fun f => (fs.map (·.name)).idxOf f.name) ?_)
    rintro a b ⟨ha, hb, hBefore⟩
    have hIndex {f : Fragment} (hf : f ∈ fs) : fs[(fs.map (·.name)).idxOf f.name]? = some f :=
      getElem?_of_name hNodup hf (List.getElem?_idxOf (List.mem_map_of_mem hf))
    exact (leads_precedence_iff hNodup).mpr ⟨a, b, hIndex ha, hIndex hb, hBefore⟩
  · intro h i hCycle
    refine h _ (hCycle.lift (node fs) ?_)
    intro a b hLeads
    obtain ⟨f, g, hf, hg, hBefore⟩ := (leads_precedence_iff hNodup).mp hLeads
    show node fs a ∈ fs ∧ node fs b ∈ fs ∧ (node fs a).Before (node fs b)
    rw [node_of_getElem? hf, node_of_getElem? hg]
    exact ⟨List.mem_of_getElem? hf, List.mem_of_getElem? hg, hBefore⟩

/-- When fragments can be ordered, and in which order they then come. -/
theorem ordered_eq_ok_iff (hNodup : (fs.map (·.name)).Nodup) :
    ordered fs = .ok order ↔ Acyclic fs ∧ (precedence fs).placed.map (node fs) = order := by
  unfold ordered
  rw [bind_eq_ok_iff, ← acyclic_iff hNodup]
  simp only [Precedence.stableOrder_eq_ok_iff (inRange_precedence hNodup), Except.ok.injEq]
  have hMap : (precedence fs).placed.filterMap (fun i => fs[i]?)
      = (precedence fs).placed.map (node fs) := by
    rw [List.filterMap_eq_map_iff_forall_eq_some]
    intro i hi
    have hLt := (Precedence.placement_placed (inRange_precedence hNodup)).subperm.subset hi
    rw [List.mem_range, size_precedence] at hLt
    exact getElem?_eq_node hLt
  rw [← hMap]
  constructor
  · rintro ⟨_, ⟨hAcyclic, rfl⟩, hOrder⟩
    exact ⟨hAcyclic, hOrder⟩
  · rintro ⟨hAcyclic, hOrder⟩
    exact ⟨_, ⟨hAcyclic, rfl⟩, hOrder⟩

theorem exists_ordered_iff (hNodup : (fs.map (·.name)).Nodup) :
    (∃ order, ordered fs = .ok order) ↔ Acyclic fs := by
  simp only [ordered_eq_ok_iff hNodup]
  exact ⟨fun ⟨_, h, _⟩ => h, fun h => ⟨_, h, rfl⟩⟩

/-! ## The order is stable -/

section Placed

variable (hNodup : (fs.map (·.name)).Nodup) (hAcyclic : Acyclic fs)
include hNodup hAcyclic

theorem placed_perm_range : (precedence fs).placed.Perm (List.range fs.length) := by
  rw [← size_precedence]
  exact Precedence.placed_perm (inRange_precedence hNodup) ((acyclic_iff hNodup).mpr hAcyclic)

theorem mem_placed_iff : i ∈ (precedence fs).placed ↔ i < fs.length := by
  rw [(placed_perm_range hNodup hAcyclic).mem_iff, List.mem_range]

theorem placed_respects {f g : Fragment} (hf : fs[i]? = some f) (hg : fs[j]? = some g)
    (hBefore : f.Before g) :
    ∃ pre mid post, (precedence fs).placed = pre ++ i :: mid ++ j :: post := by
  have hi : i ∈ List.range (precedence fs).size := by
    rw [List.mem_range, size_precedence]
    exact (List.getElem?_eq_some_iff.mp hf).1
  have hj := (mem_placed_iff hNodup hAcyclic).mpr (List.getElem?_eq_some_iff.mp hg).1
  have hLeads := (leads_precedence_iff hNodup).mpr ⟨f, g, hf, hg, hBefore⟩
  obtain ⟨pre, post, hOrder⟩ := List.append_of_mem hj
  have hPre := (Precedence.placement_placed (inRange_precedence hNodup)).mem_of_leads hi hLeads hOrder
  obtain ⟨pre, mid, rfl⟩ := List.append_of_mem hPre
  exact ⟨pre, mid, post, hOrder⟩

theorem placed_stable {pre post : List Nat} (hOrder : (precedence fs).placed = pre ++ j :: post)
    (hi : i ∈ post) (hLt : i < j) : ∃ a ∈ j :: post, (precedence fs).Leads a i := by
  have hNodupPlaced := (placed_perm_range hNodup hAcyclic).nodup_iff.mpr List.nodup_range
  rw [hOrder] at hNodupPlaced
  have hiPre : i ∉ pre := fun hPre =>
    (List.nodup_append.mp hNodupPlaced).2.2 i hPre i (List.mem_cons_of_mem _ hi) rfl
  have hiRange : i ∈ List.range (precedence fs).size := by
    have hPlaced : i ∈ (precedence fs).placed := by
      rw [hOrder]
      exact List.mem_append_right _ (List.mem_cons_of_mem _ hi)
    rw [List.mem_range, size_precedence]
    exact (mem_placed_iff hNodup hAcyclic).mp hPlaced
  -- `i` was left when `j` was placed, so something held it back
  obtain ⟨a, ha, haPre, hLeads⟩ := (Precedence.placement_placed (inRange_precedence hNodup)).exists_leads
    List.pairwise_lt_range hiRange hLt hOrder hiPre
  refine ⟨a, ?_, hLeads⟩
  rw [List.mem_range, size_precedence, ← mem_placed_iff hNodup hAcyclic, hOrder,
    List.mem_append] at ha
  exact ha.resolve_left haPre

end Placed

theorem sublist_pair_getElem? {f g : Fragment} (h : [f, g].Sublist fs) :
    ∃ i j : Nat, i < j ∧ fs[i]? = some f ∧ fs[j]? = some g := by
  obtain ⟨pre, post, rfl, hf, hg⟩ := List.cons_sublist_iff.mp h
  rw [List.singleton_sublist] at hg
  obtain ⟨i, hi⟩ := List.getElem?_of_mem hf
  obtain ⟨j, hj⟩ := List.getElem?_of_mem hg
  have hLt := (List.getElem?_eq_some_iff.mp hi).1
  refine ⟨i, pre.length + j, by omega, ?_, ?_⟩
  · rw [List.getElem?_append_left hLt, hi]
  · rw [List.getElem?_append_right (by omega), Nat.add_sub_cancel_left, hj]

/-- A number is found again from the fragment that it stands for. -/
theorem eq_of_getElem?_node (hNodup : (fs.map (·.name)).Nodup) (hi : i < fs.length)
    (hj : fs[j]? = some (node fs i)) : i = j :=
  (List.getElem?_inj hi hNodup.of_map).mp ((getElem?_eq_node hi).trans hj.symm)

/-- The order of a composition is the stable order. -/
theorem stableOrder_of_ordered (hNodup : (fs.map (·.name)).Nodup) (h : ordered fs = .ok order) :
    StableOrder fs order := by
  obtain ⟨hAcyclic, rfl⟩ := (ordered_eq_ok_iff hNodup).mp h
  refine ⟨?_, ?_, ?_⟩
  · have hPerm := (placed_perm_range hNodup hAcyclic).map (node fs)
    rwa [map_node_range] at hPerm
  · intro f hf g hg hBefore
    obtain ⟨i, hi⟩ := List.getElem?_of_mem hf
    obtain ⟨j, hj⟩ := List.getElem?_of_mem hg
    obtain ⟨pre, mid, post, hOrder⟩ := placed_respects hNodup hAcyclic hi hj hBefore
    refine ⟨pre.map (node fs), mid.map (node fs), post.map (node fs), ?_⟩
    rw [hOrder]
    simp [node_of_getElem? hi, node_of_getElem? hj]
  · intro pre g post hOrder f hf hEarlier
    -- the split of the fragments is a split of their numbers
    obtain ⟨preIdx, restIdx, hSplit, rfl, hRest⟩ := List.map_eq_append_iff.mp hOrder
    obtain ⟨j, postIdx, rfl, rfl, rfl⟩ := List.map_eq_cons_iff.mp hRest
    obtain ⟨i, hi, rfl⟩ := List.mem_map.mp hf
    have hiLt := (mem_placed_iff hNodup hAcyclic).mp (hSplit ▸ by simp [hi] : i ∈ _)
    have hjLt := (mem_placed_iff hNodup hAcyclic).mp (hSplit ▸ by simp : j ∈ _)
    obtain ⟨i', j', hLt, hi', hj'⟩ := sublist_pair_getElem? hEarlier
    obtain rfl := eq_of_getElem?_node hNodup hiLt hi'
    obtain rfl := eq_of_getElem?_node hNodup hjLt hj'
    obtain ⟨a, ha, hLeads⟩ := placed_stable hNodup hAcyclic hSplit hi hLt
    obtain ⟨h, f, hh, hf, hBefore⟩ := (leads_precedence_iff hNodup).mp hLeads
    obtain rfl := Option.some.inj (hf.symm.trans hi')
    refine ⟨h, ?_, hBefore⟩
    rw [← node_of_getElem? hh, ← List.map_cons]
    exact List.mem_map_of_mem ha

theorem subset_fragments_of_ordered {plan : Plan} {store : FragmentStore} {flags : FlagSet}
    (h : ordered (plan.included store flags) = .ok order) : order ⊆ store.fragments := by
  intro f hf
  have hMem := (stableOrder_of_ordered nodup_included_names h).perm.mem_iff.mp hf
  exact (mem_included.mp hMem).1

/-- No two fragments that are ordered share a name, at any depth. -/
theorem nodup_namesOf_ordered {plan : Plan} {store : FragmentStore} {flags : FlagSet}
    (hOrder : ordered (plan.included store flags) = .ok order) :
    (Fragment.namesOf order).Nodup := by
  have hPerm := (stableOrder_of_ordered nodup_included_names hOrder).perm
  have hStore : (store.fragments.flatMap Fragment.names).Nodup := by
    rw [← Fragment.namesOf_eq_flatMap]
    exact store.distinct
  rw [Fragment.namesOf_eq_flatMap, (hPerm.flatMap_right Fragment.names).nodup_iff]
  exact (included_sublist.flatMap Fragment.names).nodup hStore

/-- Only a cycle keeps fragments from being ordered. -/
theorem error_of_ordered {e : ComposeError} (h : ordered fs = .error e) :
    ∃ names, e = .cycle names := by
  unfold ordered at h
  rw [bind_eq_error_iff] at h
  rcases h with h | ⟨_, -, h⟩
  · rw [Precedence.stableOrder, Precedence.orderWith] at h
    split at h
    · exact ⟨_, (Except.error.inj h).symm⟩
    · simp at h
  · simp at h

end Plan

end DeclSurface
