import DeclSurface.Proofs.Composition.Order
import DeclSurface.Proofs.Composition.Repetition
import DeclSurface.Proofs.Composition.Scope
import DeclSurface.Proofs.Composition.Validity
import DeclSurface.Proofs.Rewrite.Sound

/-!
# When composition succeeds

Defects are found on the way, one after the other, each by looking at what happens to be active or
collected at that moment. All the same there is a manifest exactly when fragments, rules and items
fit together, and this can be said without any order of steps.

* `exists_act_iff`, `exists_perform_iff` — which actions and scripts go through.
* `Plan.Composable`       — what must fit together.
* `compose_succeeds_iff`  — this is what composition takes, and nothing else.
-/

namespace DeclSurface

/-! ## Scripts that go through -/

theorem item?_cons (a : Action) (as : List Action) :
    (a :: as).filterMap Action.item? = a.item?.toList ++ as.filterMap Action.item? := by
  cases a with
  | enter fragment rules => rfl
  | collect fragment item => rfl
  | leave count => rfl

namespace Progress

variable {p q : Progress} {a : Action} {as : List Action} {is : List ManifestItem}

theorem sound_act (h : p.engine.Sound) (hAct : p.act a = .ok q) : q.engine.Sound :=
  engine_act_invariant Engine.keeps_sound h hAct

/-- What an action collects is accepted before it together with what is accepted after it. -/
theorem accepts_act (hAct : p.act a = .ok q) :
    q.collected.Accepts is ↔ p.collected.Accepts (a.item?.toList ++ is) := by
  cases a with
  | enter fragment rules =>
    rw [(act_enter_eq_ok_iff.mp hAct).2]
    exact Collected.accepts_enter
  | collect fragment item => exact Collected.accepts_add (act_collect_eq_ok_iff.mp hAct).1
  | leave count =>
    obtain rfl := act_leave_eq_ok_iff.mp hAct
    exact Iff.rfl

/-- An action goes through when the rewrites then in effect agree and its item is accepted. -/
theorem exists_act_iff (h : p.engine.Sound) :
    (∃ q, p.act a = .ok q) ↔
      (∀ s ∈ moments p.engine.stack [a], Agreeing s.2) ∧ p.collected.Accepts a.item?.toList := by
  cases a with
  | enter fragment rules =>
    have hSound : p.stamp.engine.Sound := h.setPosition _
    simp only [moments, List.mem_singleton, forall_eq]
    refine Iff.trans ?_
      ((Engine.exists_applyAll_iff hSound).trans (and_iff_left (Collected.accepts_nil _)).symm)
    constructor
    · rintro ⟨q, hAct⟩
      exact ⟨q.engine, (act_enter_eq_ok_iff.mp hAct).1⟩
    · rintro ⟨engine, hEngine⟩
      exact ⟨⟨engine, p.collected.enter fragment⟩, act_enter_eq_ok_iff.mpr ⟨hEngine, rfl⟩⟩
  | collect fragment item =>
    simp only [moments, List.mem_singleton, forall_eq]
    refine Iff.trans ?_ (Collected.exists_add_iff.trans (and_iff_right h.agreeing).symm)
    constructor
    · rintro ⟨q, hAct⟩
      exact ⟨q.collected, (act_collect_eq_ok_iff.mp hAct).1⟩
    · rintro ⟨collected, hAdd⟩
      exact ⟨⟨p.engine, collected⟩, act_collect_eq_ok_iff.mpr ⟨hAdd, rfl⟩⟩
  | leave count =>
    simp only [moments, List.not_mem_nil, false_imp_iff, implies_true, true_and]
    exact iff_of_true ⟨_, rfl⟩ (Collected.accepts_nil _)

/-- A script goes through when rewrites agree all along it and no repeated item does harm. -/
theorem exists_perform_iff (h : p.engine.Sound) :
    (∃ q, p.perform as = .ok q) ↔
      (∀ s ∈ moments p.engine.stack as, Agreeing s.2) ∧
        p.collected.Accepts (as.filterMap Action.item?) := by
  induction as generalizing p with
  | nil =>
    refine iff_of_true ⟨p, rfl⟩ ⟨?_, Collected.accepts_nil _⟩
    simp [moments]
  | cons a as ih =>
    have hSplit : moments p.engine.stack (a :: as)
        = moments p.engine.stack [a] ++ moments (stackAfter p.engine.stack [a]) as := by
      rw [← moments_append, List.singleton_append]
    rw [item?_cons, hSplit, List.forall_mem_append]
    constructor
    · rintro ⟨q, hPerform⟩
      rw [perform, bind_eq_ok_iff] at hPerform
      obtain ⟨p₁, hAct, hRest⟩ := hPerform
      obtain ⟨hMoments, hItems⟩ := (ih (sound_act h hAct)).mp ⟨q, hRest⟩
      rw [stack_of_act hAct] at hMoments
      exact ⟨⟨((exists_act_iff h).mp ⟨p₁, hAct⟩).1, hMoments⟩, (accepts_act hAct).mp hItems⟩
    · rintro ⟨⟨hFirst, hMoments⟩, hItems⟩
      -- the first action is fine by itself, and leaves the rest as it was before
      obtain ⟨p₁, hAct⟩ := (exists_act_iff h).mpr ⟨hFirst, hItems.of_append⟩
      rw [← stack_of_act hAct] at hMoments
      obtain ⟨q, hRest⟩ :=
        (ih (sound_act h hAct)).mpr ⟨hMoments, (accepts_act hAct).mpr hItems⟩
      exact ⟨q, bind_eq_ok_iff.mpr ⟨p₁, hAct, hRest⟩⟩

end Progress

/-! ## What must fit together -/

namespace Plan

variable {plan : Plan} {store : FragmentStore} {flags : FlagSet} {order : List Fragment}

/-- The rules in force for any one fragment that is reached agree on every macro. -/
def RulesAgree (plan : Plan) (store : FragmentStore) (flags : FlagSet) : Prop :=
  ∀ f ∈ plan.reached store flags, ∀ r s,
    plan.InForce store flags r f.name → plan.InForce store flags s f.name →
    macroName r.symbol = macroName s.symbol → r.symbol = s.symbol ∧ r.value = s.value

/-- Among the items reached, all of an identity that occurs repeatedly are harmless to repeat. -/
def ItemsHarmless (plan : Plan) (store : FragmentStore) (flags : FlagSet) : Prop :=
  ∀ identity,
    1 < (((plan.reached store flags).flatMap (·.items)).map Item.identity).count identity →
    ∀ i ∈ (plan.reached store flags).flatMap (·.items),
      i.identity = identity → i.idempotent = true

/-- Fragments, rules and items fit together under the effective flags. -/
structure Composable (plan : Plan) (store : FragmentStore) (flags : FlagSet) : Prop where
  valid : plan.validate store = .ok ()
  acyclic : Acyclic (plan.included store flags)
  agree : plan.RulesAgree store flags
  harmless : plan.ItemsHarmless store flags

theorem mem_flatMap_block_iff (hPerm : order.Perm (plan.included store flags)) {n : String} :
    n ∈ order.flatMap (Fragment.block flags) ↔ ∃ f ∈ plan.reached store flags, f.name = n := by
  rw [(hPerm.flatMap_right _).mem_iff, ← map_name_reached, List.mem_map]

/-- The rewrites agree all along a script exactly when the rules in force agree. -/
theorem agreeing_moments_iff (hPerm : order.Perm (plan.included store flags)) :
    (∀ s ∈ moments [] (plan.scriptAll flags order), Agreeing s.2) ↔
      plan.RulesAgree store flags := by
  have hStore : order ⊆ store.fragments := fun f hf =>
    (mem_included.mp (hPerm.mem_iff.mp hf)).1
  constructor
  · rintro hAll f hf r s ⟨hr, hrGate, g, hg, hrApplies⟩ ⟨hs, hsGate, g', hg', hsApplies⟩ hName
    -- the rules in force are on the stack when the fragment is entered
    have hEntered : f.name ∈ (plan.scriptAll flags order).filterMap Action.name? := by
      rw [names_scriptAll]
      exact (mem_flatMap_block_iff hPerm).mpr ⟨f, hf, rfl⟩
    obtain ⟨stack, hStack⟩ := exists_mem_moments [] hEntered
    exact hAll _ hStack (r.substitution g.name)
      ((mem_stack_iff hStore hStack).mpr ⟨r, g, hg, hr, hrApplies, hrGate, rfl⟩)
      (s.substitution g'.name)
      ((mem_stack_iff hStore hStack).mpr ⟨s, g', hg', hs, hsApplies, hsGate, rfl⟩) hName
  · rintro hAll ⟨n, stack⟩ hStack x hx y hy hName
    -- what is on a stack is in force for the fragment of that moment, which is reached
    obtain ⟨t, ht, hMoment⟩ := mem_moments_scriptAll.mp hStack
    obtain ⟨f, hf, rfl⟩ := (mem_flatMap_block_iff hPerm).mp
      (List.mem_flatMap.mpr ⟨t, ht, mem_block_of_mem_moments hMoment⟩)
    obtain ⟨r, g, hg, hr, hrApplies, hrGate, rfl⟩ := (mem_stack_iff hStore hStack).mp hx
    obtain ⟨s, g', hg', hs, hsApplies, hsGate, rfl⟩ := (mem_stack_iff hStore hStack).mp hy
    exact hAll f hf r s ⟨hr, hrGate, g, hg, hrApplies⟩ ⟨hs, hsGate, g', hg', hsApplies⟩ hName

theorem map_item_flatMap_declared (fs : List Fragment) :
    (fs.flatMap Fragment.declared).map (·.item) = fs.flatMap (·.items) := by
  rw [List.map_flatMap]
  refine List.flatMap_congr fun f _ => ?_
  unfold Fragment.declared
  rw [List.map_map]
  exact List.map_id _

/-- No item of a script clashes with another exactly when repeated items are harmless. -/
theorem pairwise_declarations_iff (hPerm : order.Perm (plan.included store flags)) :
    ((plan.scriptAll flags order).filterMap Action.item?).Pairwise HarmlessPair ↔
      plan.ItemsHarmless store flags := by
  have hItems := (hPerm.flatMap_right (Fragment.reached flags)).flatMap_right Fragment.declared
  rw [declarations_scriptAll, hItems.pairwise_iff HarmlessPair.symm, pairwise_harmless_iff,
    ← reached, ItemsHarmless, ← map_item_flatMap_declared, List.map_map]
  simp only [List.forall_mem_map]
  rfl

/-- Fragments in a given order can be placed exactly when rules agree and items are harmless. -/
theorem exists_perform_scriptAll_iff (hPerm : order.Perm (plan.included store flags)) :
    (∃ q, (Progress.start flags).perform (plan.scriptAll flags order) = .ok q) ↔
      plan.RulesAgree store flags ∧ plan.ItemsHarmless store flags := by
  rw [Progress.exists_perform_iff (Engine.sound_of_active_eq_nil rfl),
    ← agreeing_moments_iff hPerm, ← pairwise_declarations_iff hPerm]
  exact and_congr_right fun _ => Collected.accepts_empty_iff

/-- A request to stop that is there from the start is seen at the first fragment. -/
theorem placeAll_stopped {p : Progress} {k : Nat} {e : ComposeError} :
    plan.placeAll flags (fun _ => true) k order p = .error e ↔
      order ≠ [] ∧ e = .cancelled p.collected.fragments.length := by
  cases order with
  | nil => simp [placeAll]
  | cons f fs =>
    simp only [placeAll, if_true, Except.error.injEq, ne_eq, reduceCtorEq, not_false_eq_true,
      true_and]
    exact eq_comm

theorem composeUntil_eq_cancelled_iff :
    plan.composeUntil store flags (fun _ => true) = .error (.cancelled 0) ↔
      plan.validate store = .ok () ∧ Acyclic (plan.included store (plan.effectiveFlags flags)) ∧
        plan.included store (plan.effectiveFlags flags) ≠ [] := by
  unfold composeUntil
  constructor
  · intro h
    rcases check_bind_eq_error_iff.mp h with h | ⟨hValid, h⟩
    · exact (isStatic_of_validate h).elim
    rcases bind_eq_error_iff.mp h with h | ⟨order, hOrder, h⟩
    · obtain ⟨names, hCycle⟩ := error_of_ordered h
      simp at hCycle
    rcases bind_eq_error_iff.mp h with h | ⟨_, -, h⟩
    · have hPerm := (stableOrder_of_ordered nodup_included_names hOrder).perm
      refine ⟨hValid, (exists_ordered_iff nodup_included_names).mp ⟨order, hOrder⟩, ?_⟩
      rintro hNil
      rw [hNil] at hPerm
      exact (placeAll_stopped.mp h).1 hPerm.eq_nil
    · simp at h
  · rintro ⟨hValid, hAcyclic, hSome⟩
    obtain ⟨order, hOrder⟩ := (exists_ordered_iff nodup_included_names).mpr hAcyclic
    have hPerm := (stableOrder_of_ordered nodup_included_names hOrder).perm
    have hNotNil : order ≠ [] := by
      rintro rfl
      exact hSome hPerm.symm.eq_nil
    refine check_bind_eq_error_iff.mpr (Or.inr ⟨hValid, ?_⟩)
    refine bind_eq_error_iff.mpr (Or.inr ⟨order, hOrder, ?_⟩)
    exact bind_eq_error_iff.mpr (Or.inl (placeAll_stopped.mpr ⟨hNotNil, rfl⟩))

/--
There is a manifest exactly when fragments, rules and items fit together; and a run that is asked
to stop before it starts says so exactly when there is something valid to place.
-/
theorem compose_succeeds_iff (plan : Plan) (store : FragmentStore) (flags : FlagSet) :
    ((∃ m, plan.compose store flags = .ok m) ↔
      plan.Composable store (plan.effectiveFlags flags)) ∧
    (plan.composeUntil store flags (fun _ => true) = .error (.cancelled 0) ↔
      plan.validate store = .ok () ∧ Acyclic (plan.included store (plan.effectiveFlags flags)) ∧
        plan.included store (plan.effectiveFlags flags) ≠ []) := by
  refine ⟨?_, composeUntil_eq_cancelled_iff⟩
  simp only [compose_eq_ok_iff]
  constructor
  · rintro ⟨m, hValid, order, hOrder, p, hPerform, -⟩
    have hPerm := (stableOrder_of_ordered nodup_included_names hOrder).perm
    obtain ⟨hAgree, hHarmless⟩ := (exists_perform_scriptAll_iff hPerm).mp ⟨p, hPerform⟩
    exact ⟨hValid, (exists_ordered_iff nodup_included_names).mp ⟨order, hOrder⟩, hAgree,
      hHarmless⟩
  · intro h
    obtain ⟨order, hOrder⟩ := (exists_ordered_iff nodup_included_names).mpr h.acyclic
    have hPerm := (stableOrder_of_ordered nodup_included_names hOrder).perm
    obtain ⟨p, hPerform⟩ := (exists_perform_scriptAll_iff hPerm).mpr ⟨h.agree, h.harmless⟩
    exact ⟨_, h.valid, order, hOrder, p, hPerform, rfl⟩

end Plan

end DeclSurface
