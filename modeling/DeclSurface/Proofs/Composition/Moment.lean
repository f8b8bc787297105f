import DeclSurface.Proofs.Composition.Order
import DeclSurface.Proofs.Composition.Scope

/-!
# The moment of a fragment

The items of a fragment are collected once its rules have begun, and before anything nested in it is
placed. The engine of that moment is found by following the placement down to the fragment, and its
stack holds the rules around the fragment, those of the outermost scope at the bottom.

* `Plan.Collects`, `Plan.CollectsOpen`, `Plan.CollectsAll` — the engine with which the items of a
  fragment are collected while fragments are placed.
* `reverse_stack_of_collectsWith` — its stack, read off the place of the fragment in the store.
* `exists_collectsWith`           — every fragment of a manifest has its moment.
-/

namespace DeclSurface

namespace Fragment

variable {f : Fragment} {fs : List Fragment}

theorem nodup_tail (hNodup : (namesOf (f :: fs)).Nodup) : (namesOf fs).Nodup := by
  rw [namesOf, List.nodup_append] at hNodup
  exact hNodup.2.1

end Fragment

namespace Plan

mutual
/-- While a fragment is placed from `p`, the items of `n` are collected with the engine `e`. -/
inductive Collects (plan : Plan) (flags : FlagSet) (n : String) (e : Engine) :
    Fragment → Progress → Prop where
  | own {f : Fragment} {p : Progress} (hName : f.name = n)
      (hRules : p.stamp.engine.applyAll f.name (plan.rulesFor flags f.name) = .ok e) :
      Collects plan flags n e f p
  | nested {f : Fragment} {p : Progress} {engine : Engine} {collected : Collected}
      (hRules : p.stamp.engine.applyAll f.name (plan.rulesFor flags f.name) = .ok engine)
      (hItems : (p.collected.enter f.name).addAll f.name f.items = .ok collected)
      (hNested : CollectsOpen plan flags n e f.children { engine, collected }) :
      Collects plan flags n e f p

/-- The same, while those among nested fragments are placed whose gates are open. -/
inductive CollectsOpen (plan : Plan) (flags : FlagSet) (n : String) (e : Engine) :
    List Fragment → Progress → Prop where
  | here {f : Fragment} {fs : List Fragment} {p : Progress} (hOpen : f.gate.holds flags = true)
      (h : Collects plan flags n e f p) : CollectsOpen plan flags n e (f :: fs) p
  | later {f : Fragment} {fs : List Fragment} {p q : Progress} (hOpen : f.gate.holds flags = true)
      (hPlace : plan.place flags f p = .ok q) (h : CollectsOpen plan flags n e fs q) :
      CollectsOpen plan flags n e (f :: fs) p
  | closed {f : Fragment} {fs : List Fragment} {p : Progress}
      (hClosed : f.gate.holds flags = false) (h : CollectsOpen plan flags n e fs p) :
      CollectsOpen plan flags n e (f :: fs) p
end

/-- The same, while top-level fragments are placed one after the other. -/
inductive CollectsAll (plan : Plan) (flags : FlagSet) (n : String) (e : Engine) :
    List Fragment → Progress → Prop where
  | here {f : Fragment} {fs : List Fragment} {p : Progress} (h : Collects plan flags n e f p) :
      CollectsAll plan flags n e (f :: fs) p
  | later {f : Fragment} {fs : List Fragment} {p q : Progress}
      (hPlace : plan.place flags f p = .ok q) (h : CollectsAll plan flags n e fs q) :
      CollectsAll plan flags n e (f :: fs) p

/-- In the composition of a store, the items of `n` are collected with the engine `e`. -/
def CollectsWith (plan : Plan) (store : FragmentStore) (flags : FlagSet) (n : String) (e : Engine) :
    Prop :=
  ∃ order, ordered (plan.included store (plan.effectiveFlags flags)) = .ok order ∧
    CollectsAll plan (plan.effectiveFlags flags) n e order (.start (plan.effectiveFlags flags))

variable {plan : Plan} {store : FragmentStore} {flags : FlagSet} {n : String} {e : Engine}
  {f : Fragment} {fs : List Fragment} {p q : Progress}

/-! ## Steps of a placement -/

theorem place_eq_ok_iff :
    plan.place flags f p = .ok q ↔
      ∃ engine collected r,
        p.stamp.engine.applyAll f.name (plan.rulesFor flags f.name) = .ok engine ∧
        (p.collected.enter f.name).addAll f.name f.items = .ok collected ∧
        plan.placeOpen flags f.children { engine, collected } = .ok r ∧
        q = { r with engine := r.stamp.engine.closeTo p.engine.active.length } := by
  obtain ⟨name, gate, items, constraints, children⟩ := f
  rw [place]
  simp only [bind_eq_ok_iff, Except.ok.injEq]
  constructor
  · rintro ⟨engine, hRules, collected, hItems, r, hOpen, rfl⟩
    exact ⟨engine, collected, r, hRules, hItems, hOpen, rfl⟩
  · rintro ⟨engine, collected, r, hRules, hItems, hOpen, rfl⟩
    exact ⟨engine, hRules, collected, hItems, r, hOpen, rfl⟩

/-- A fragment that has been placed leaves the rewrites in effect that were so before. -/
theorem stack_of_place (h : plan.place flags f p = .ok q) : q.engine.stack = p.engine.stack := by
  rw [place_eq_perform] at h
  rw [Progress.stack_of_perform h, stackAfter_script]

/-! ## The stack at the moment -/

mutual
theorem mem_names_of_collects {f : Fragment} {p : Progress} (h : Collects plan flags n e f p) :
    n ∈ f.names := by
  obtain ⟨name, gate, items, constraints, children⟩ := f
  rw [Fragment.names]
  cases h with
  | own hName hRules => exact hName ▸ List.mem_cons_self
  | nested hRules hItems hNested =>
    exact List.mem_cons_of_mem _ (mem_namesOf_of_collectsOpen hNested)

theorem mem_namesOf_of_collectsOpen {fs : List Fragment} {p : Progress}
    (h : CollectsOpen plan flags n e fs p) : n ∈ Fragment.namesOf fs := by
  cases h with
  | here hOpen h => exact List.mem_append_left _ (mem_names_of_collects h)
  | later hOpen hPlace h => exact List.mem_append_right _ (mem_namesOf_of_collectsOpen h)
  | closed hClosed h => exact List.mem_append_right _ (mem_namesOf_of_collectsOpen h)
end

mutual
/-- When its items are collected, the rules around a fragment are on top of those before. -/
theorem reverse_stack_of_collects {f : Fragment} {p : Progress} (hNodup : f.names.Nodup)
    (h : Collects plan flags n e f p) :
    e.stack.reverse
      = p.engine.stack.reverse ++ (Fragment.around [f] n).flatMap (plan.substitutions flags) := by
  have hNames := mem_names_of_collects h
  rw [Fragment.around_self hNames, List.flatMap_cons, ← List.append_assoc]
  obtain ⟨name, gate, items, constraints, children⟩ := f
  rw [Fragment.names, List.nodup_cons] at hNodup
  cases h with
  | own hName hRules =>
    -- nothing nested is around the fragment itself
    obtain rfl : name = n := hName
    rw [Fragment.around_eq_nil hNodup.1, List.flatMap_nil, List.append_nil,
      Engine.stack_of_applyAll hRules, List.reverse_append, List.reverse_reverse]
    rfl
  | nested hRules hItems hNested =>
    -- the rules of the fragment are below those of what is nested in it
    rw [reverse_stack_of_collectsOpen hNodup.2 hNested, Engine.stack_of_applyAll hRules,
      List.reverse_append, List.reverse_reverse]
    rfl

theorem reverse_stack_of_collectsOpen {fs : List Fragment} {p : Progress}
    (hNodup : (Fragment.namesOf fs).Nodup) (h : CollectsOpen plan flags n e fs p) :
    e.stack.reverse
      = p.engine.stack.reverse ++ (Fragment.around fs n).flatMap (plan.substitutions flags) := by
  cases h with
  | here hOpen h =>
    rw [Fragment.around_eq_of_mem hNodup List.mem_cons_self (mem_names_of_collects h)]
    exact reverse_stack_of_collects (Fragment.nodup_names_of_mem hNodup List.mem_cons_self) h
  | later hOpen hPlace h =>
    -- what was placed before has ended its own rewrites
    have hTail := Fragment.nodup_tail hNodup
    rw [Fragment.around_eq_of_subset hNodup (List.subset_cons_self _ _) hTail
      (mem_namesOf_of_collectsOpen h), ← stack_of_place hPlace]
    exact reverse_stack_of_collectsOpen hTail h
  | closed hClosed h =>
    have hTail := Fragment.nodup_tail hNodup
    rw [Fragment.around_eq_of_subset hNodup (List.subset_cons_self _ _) hTail
      (mem_namesOf_of_collectsOpen h)]
    exact reverse_stack_of_collectsOpen hTail h
end

/-- Top-level fragments whose gates are open are placed as nested ones are. -/
theorem collectsOpen_of_collectsAll (hOpen : ∀ f ∈ fs, f.gate.holds flags = true)
    (h : CollectsAll plan flags n e fs p) : CollectsOpen plan flags n e fs p := by
  induction h with
  | here h => exact .here (hOpen _ List.mem_cons_self) h
  | later hPlace _ ih =>
    rw [List.forall_mem_cons] at hOpen
    exact .later hOpen.1 hPlace (ih hOpen.2)

/-- In a composition, the stack of a fragment's moment is read off its place in the store. -/
theorem reverse_stack_of_collectsWith (h : plan.CollectsWith store flags n e) :
    e.stack.reverse = (Fragment.around store.fragments n).flatMap
      (plan.substitutions (plan.effectiveFlags flags)) := by
  obtain ⟨order, hOrder, hAll⟩ := h
  -- only fragments with open gates are ordered
  have hPerm := (stableOrder_of_ordered nodup_included_names hOrder).perm
  have hOpen := collectsOpen_of_collectsAll
    (fun f hf => (mem_included.mp (hPerm.mem_iff.mp hf)).2.2) hAll
  have hNodup := nodup_namesOf_ordered hOrder
  rw [reverse_stack_of_collectsOpen hNodup hOpen, Fragment.around_eq_of_subset store.distinct
    (subset_fragments_of_ordered hOrder) hNodup (mem_namesOf_of_collectsOpen hOpen)]
  rfl

/-! ## Every fragment that is reached has its moment -/

mutual
theorem exists_collects : ∀ {f : Fragment} {p q : Progress}, plan.place flags f p = .ok q →
    n ∈ f.block flags → ∃ e, Collects plan flags n e f p
  | ⟨name, gate, items, constraints, children⟩, p, q, hPlace, hn => by
    obtain ⟨engine, collected, r, hRules, hItems, hOpen, -⟩ := place_eq_ok_iff.mp hPlace
    unfold Fragment.block at hn
    rw [Fragment.reached, List.map_cons] at hn
    rcases List.mem_cons.mp hn with rfl | hn
    · exact ⟨engine, .own rfl hRules⟩
    · obtain ⟨e, hNested⟩ := exists_collectsOpen hOpen hn
      exact ⟨e, .nested hRules hItems hNested⟩

theorem exists_collectsOpen : ∀ {fs : List Fragment} {p q : Progress},
    plan.placeOpen flags fs p = .ok q → n ∈ (Fragment.reachedOf flags fs).map (·.name) →
    ∃ e, CollectsOpen plan flags n e fs p
  | [], _, _, _, hn => by simp [Fragment.reachedOf] at hn
  | f :: fs, p, q, hPlace, hn => by
    rw [placeOpen] at hPlace
    rw [Fragment.reachedOf] at hn
    cases hGate : f.gate.holds flags with
    | false =>
      rw [hGate, if_neg Bool.false_ne_true] at hPlace hn
      obtain ⟨e, h⟩ := exists_collectsOpen hPlace hn
      exact ⟨e, .closed hGate h⟩
    | true =>
      rw [hGate, if_pos rfl] at hPlace hn
      obtain ⟨r, hFirst, hRest⟩ := bind_eq_ok_iff.mp hPlace
      rw [List.map_append, List.mem_append] at hn
      rcases hn with hn | hn
      · obtain ⟨e, h⟩ := exists_collects hFirst hn
        exact ⟨e, .here hGate h⟩
      · obtain ⟨e, h⟩ := exists_collectsOpen hRest hn
        exact ⟨e, .later hGate hFirst h⟩
end

theorem exists_collectsAll {k : Nat} (hPlace : plan.placeAll flags (fun _ => false) k fs p = .ok q)
    (hn : n ∈ fs.flatMap (Fragment.block flags)) : ∃ e, CollectsAll plan flags n e fs p := by
  induction fs generalizing k p with
  | nil => simp at hn
  | cons f fs ih =>
    rw [placeAll, if_neg Bool.false_ne_true] at hPlace
    obtain ⟨r, hFirst, hRest⟩ := bind_eq_ok_iff.mp hPlace
    rw [List.flatMap_cons, List.mem_append] at hn
    rcases hn with hn | hn
    · obtain ⟨e, h⟩ := exists_collects hFirst hn
      exact ⟨e, .here h⟩
    · obtain ⟨e, h⟩ := ih hRest hn
      exact ⟨e, .later hFirst h⟩

/-- Every fragment of a manifest has its moment in the composition. -/
theorem exists_collectsWith {m : Manifest} (h : plan.compose store flags = .ok m)
    (hn : n ∈ m.fragments) : ∃ e, plan.CollectsWith store flags n e := by
  obtain ⟨-, order, hOrder, p, hPerform, rfl⟩ := compose_eq_ok_iff.mp h
  have hFragments := Progress.fragments_of_perform hPerform
  rw [names_scriptAll] at hFragments
  have hBlock : n ∈ order.flatMap (Fragment.block (plan.effectiveFlags flags)) := by
    have hMem : n ∈ p.collected.fragments := hn
    rwa [hFragments] at hMem
  rw [← placeAll_eq_perform order 0] at hPerform
  obtain ⟨e, hAll⟩ := exists_collectsAll hPerform hBlock
  exact ⟨e, order, hOrder, hAll⟩

end Plan

end DeclSurface
