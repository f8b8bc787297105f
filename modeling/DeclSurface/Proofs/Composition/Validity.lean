import DeclSurface.Proofs.Composition.Reach
import DeclSurface.Proofs.Outcome

/-!
# Valid plans

What the checks before composition accept, said without them.

* `Plan.Valid`             — constraints and names are in order.
* `validate_eq_ok_iff`     — the checks accept exactly the valid plans.
* `ComposeError.IsStatic`  — the kinds of errors that the checks report.
* `isStatic_of_validate`   — they report no others.
-/

namespace DeclSurface

namespace Plan

variable {plan : Plan} {store : FragmentStore} {name : String}

/-- The constraints of a store are in order, and a plan names nothing that it lacks. -/
structure Valid (plan : Plan) (store : FragmentStore) : Prop where
  /-- No nested fragment declares an ordering. -/
  nested : ∀ f ∈ store.fragments, ∀ g ∈ Fragment.allOf f.children, g.constraints = []
  /-- Constraints are about other top-level fragments. -/
  targets : ∀ f ∈ store.fragments, ∀ c ∈ f.constraints,
    c.target ≠ f.name ∧ c.target ∈ store.topLevel
  /-- No fragment is to come both before and after another. -/
  oneWay : ∀ f ∈ store.fragments, ∀ other,
    ¬ (.mustPrecede other ∈ f.constraints ∧ .mustFollow other ∈ f.constraints)
  scopes : ∀ r ∈ plan.rules, ∀ n ∈ r.fragments, n ∈ store.names
  allowed : ∀ c, plan.configuration = some c → ∀ n ∈ c.fragments, n ∈ store.topLevel

/-! ## One check at a time -/

mutual
theorem checkNested_eq_ok_iff : ∀ f : Fragment,
    checkNested f = .ok () ↔ ∀ g ∈ Fragment.allOf f.children, g.constraints = []
  | ⟨name, _, _, _, children⟩ => by
    rw [checkNested]
    exact checkChildren_eq_ok_iff name children

theorem checkChildren_eq_ok_iff (parent : String) : ∀ fs : List Fragment,
    checkChildren parent fs = .ok () ↔ ∀ g ∈ Fragment.allOf fs, g.constraints = []
  | [] => by simp [checkChildren, Fragment.allOf]
  | f :: fs => by
    rw [checkChildren, Fragment.allOf, List.forall_mem_append, Fragment.all_eq_cons,
      List.forall_mem_cons]
    cases hConstraints : f.constraints with
    | nil =>
      rw [check_bind_eq_ok_iff, checkNested_eq_ok_iff f, checkChildren_eq_ok_iff parent fs]
      simp
    | cons c cs => simp
end

theorem bothWays_eq_true_iff {cs : List Constraint} {other : String} :
    bothWays cs other = true ↔ .mustPrecede other ∈ cs ∧ .mustFollow other ∈ cs := by
  unfold bothWays
  rw [Bool.and_eq_true, List.contains_iff_mem, List.contains_iff_mem]

/-- A new constraint can only contradict others about the same fragment. -/
theorem bothWays_concat_of_ne {cs : List Constraint} {c : Constraint} {other : String}
    (h : c.target ≠ other) : bothWays (cs ++ [c]) other = bothWays cs other := by
  rw [Bool.eq_iff_iff, bothWays_eq_true_iff, bothWays_eq_true_iff, List.mem_append,
    List.mem_append, List.mem_singleton, List.mem_singleton]
  have hPrecede : Constraint.mustPrecede other ≠ c := by
    rintro rfl
    exact h rfl
  have hFollow : Constraint.mustFollow other ≠ c := by
    rintro rfl
    exact h rfl
  rw [or_iff_left hPrecede, or_iff_left hFollow]

theorem checkConstraints_cons_eq_ok_iff {before cs : List Constraint} {c : Constraint} :
    checkConstraints store name before (c :: cs) = .ok () ↔
      (c.target ≠ name ∧ c.target ∈ store.topLevel) ∧
        bothWays (before ++ [c]) c.target = false ∧
        checkConstraints store name (before ++ [c]) cs = .ok () := by
  rw [checkConstraints, ← List.contains_iff_mem]
  by_cases hSelf : c.target = name
  · simp [hSelf]
  cases hKnown : store.topLevel.contains c.target with
  | false => cases store.contains c.target <;> simp [hSelf]
  | true => cases bothWays (before ++ [c]) c.target <;> simp [hSelf]

theorem checkConstraints_eq_ok_iff {before cs : List Constraint}
    (hBefore : ∀ other, bothWays before other = false) :
    checkConstraints store name before cs = .ok () ↔
      (∀ c ∈ cs, c.target ≠ name ∧ c.target ∈ store.topLevel) ∧
        ∀ other, bothWays (before ++ cs) other = false := by
  induction cs generalizing before with
  | nil => simpa [checkConstraints] using hBefore
  | cons c cs ih =>
    have hSplit : before ++ c :: cs = before ++ [c] ++ cs := by simp
    rw [checkConstraints_cons_eq_ok_iff, List.forall_mem_cons, hSplit, and_assoc (c := ∀ _, _)]
    refine and_congr_right fun _ => ?_
    constructor
    · rintro ⟨hOne, hRest⟩
      refine (ih ?_).mp hRest
      intro other
      by_cases hOther : c.target = other
      · rw [← hOther]
        exact hOne
      · rw [bothWays_concat_of_ne hOther]
        exact hBefore other
    · rintro ⟨hTargets, hAll⟩
      -- what holds of all constraints holds of the first ones
      have hSome : ∀ other, bothWays (before ++ [c]) other = false := by
        intro other
        refine Bool.eq_false_iff.mpr fun hBoth => Bool.eq_false_iff.mp (hAll other) ?_
        rw [bothWays_eq_true_iff] at hBoth ⊢
        exact ⟨List.mem_append_left _ hBoth.1, List.mem_append_left _ hBoth.2⟩
      exact ⟨hSome _, (ih hSome).mpr ⟨hTargets, hAll⟩⟩

theorem checkFragments_eq_ok_iff {fs : List Fragment} :
    checkFragments store fs = .ok () ↔ ∀ f ∈ fs,
      (∀ g ∈ Fragment.allOf f.children, g.constraints = []) ∧
      (∀ c ∈ f.constraints, c.target ≠ f.name ∧ c.target ∈ store.topLevel) ∧
      ∀ other, ¬ (.mustPrecede other ∈ f.constraints ∧ .mustFollow other ∈ f.constraints) := by
  induction fs with
  | nil => simp [checkFragments]
  | cons f fs ih =>
    have hConstraints : checkConstraints store f.name [] f.constraints = .ok () ↔
        (∀ c ∈ f.constraints, c.target ≠ f.name ∧ c.target ∈ store.topLevel) ∧
        ∀ other,
          ¬ (.mustPrecede other ∈ f.constraints ∧ .mustFollow other ∈ f.constraints) := by
      rw [checkConstraints_eq_ok_iff fun _ => rfl]
      simp only [List.nil_append, ← Bool.not_eq_true, bothWays_eq_true_iff]
    rw [List.forall_mem_cons, ← ih, checkFragments]
    rw [check_bind_eq_ok_iff, check_bind_eq_ok_iff, checkNested_eq_ok_iff, hConstraints]
    simp only [and_assoc]

theorem checkNames_eq_ok_iff {known : String → Bool} {referrer : Referrer} {ns : List String} :
    checkNames known referrer ns = .ok () ↔ ∀ n ∈ ns, known n = true := by
  induction ns with
  | nil => simp [checkNames]
  | cons n ns ih =>
    rw [checkNames, List.forall_mem_cons]
    by_cases h : known n = true
    · simp [h, ih]
    · simp [h]

theorem checkRules_eq_ok_iff {rules : List RewriteRule} :
    checkRules store rules = .ok () ↔ ∀ r ∈ rules, ∀ n ∈ r.fragments, n ∈ store.names := by
  induction rules with
  | nil => simp [checkRules]
  | cons r rs ih =>
    rw [List.forall_mem_cons, ← ih, checkRules]
    rw [check_bind_eq_ok_iff, checkNames_eq_ok_iff]
    simp only [FragmentStore.contains, List.contains_iff_mem]

/-- The checks accept exactly the valid plans. -/
theorem validate_eq_ok_iff : plan.validate store = .ok () ↔ plan.Valid store := by
  rw [validate, check_bind_eq_ok_iff, check_bind_eq_ok_iff, checkFragments_eq_ok_iff,
    checkRules_eq_ok_iff]
  constructor
  · rintro ⟨hFragments, hRules, hAllowed⟩
    refine ⟨fun f hf => (hFragments f hf).1, fun f hf => (hFragments f hf).2.1,
      fun f hf => (hFragments f hf).2.2, hRules, ?_⟩
    intro c hc
    rw [hc] at hAllowed
    simpa [checkNames_eq_ok_iff] using hAllowed
  · intro h
    refine ⟨fun f hf => ⟨h.nested f hf, h.targets f hf, h.oneWay f hf⟩, h.scopes, ?_⟩
    cases hc : plan.configuration with
    | none => rfl
    | some c => simpa [checkNames_eq_ok_iff] using h.allowed c hc

end Plan

/-! ## What the checks report -/

/-- The error is about an ordering that cannot be met, or about an unknown name. -/
def ComposeError.IsStatic : ComposeError → Prop
  | .conflict _ _ _ => True
  | .unknownFragment _ _ => True
  | _ => False

namespace Plan

variable {plan : Plan} {store : FragmentStore} {name : String} {e : ComposeError}

mutual
theorem isStatic_of_checkNested : ∀ {f : Fragment}, checkNested f = .error e → e.IsStatic
  | ⟨_, _, _, _, _⟩, h => by
    rw [checkNested] at h
    exact isStatic_of_checkChildren h

theorem isStatic_of_checkChildren {parent : String} :
    ∀ {fs : List Fragment}, checkChildren parent fs = .error e → e.IsStatic
  | [], h => by simp [checkChildren] at h
  | f :: fs, h => by
    rw [checkChildren] at h
    split at h
    · obtain rfl := Except.error.inj h
      trivial
    · rcases check_bind_eq_error_iff.mp h with h | ⟨-, h⟩
      · exact isStatic_of_checkNested h
      · exact isStatic_of_checkChildren h
end

theorem isStatic_of_checkConstraints {before cs : List Constraint}
    (h : checkConstraints store name before cs = .error e) : e.IsStatic := by
  induction cs generalizing before with
  | nil => simp [checkConstraints] at h
  | cons c cs ih =>
    rw [checkConstraints] at h
    split at h
    · obtain rfl := Except.error.inj h
      trivial
    · split at h
      · split at h
        · obtain rfl := Except.error.inj h
          trivial
        · obtain rfl := Except.error.inj h
          trivial
      · split at h
        · obtain rfl := Except.error.inj h
          trivial
        · exact ih h

theorem isStatic_of_checkFragments {fs : List Fragment}
    (h : checkFragments store fs = .error e) : e.IsStatic := by
  induction fs with
  | nil => simp [checkFragments] at h
  | cons f fs ih =>
    rw [checkFragments] at h
    rcases bind_eq_error_iff.mp h with h | ⟨_, -, h⟩
    · exact isStatic_of_checkNested h
    · rcases bind_eq_error_iff.mp h with h | ⟨_, -, h⟩
      · exact isStatic_of_checkConstraints h
      · exact ih h

theorem isStatic_of_checkNames {known : String → Bool} {referrer : Referrer} {ns : List String}
    (h : checkNames known referrer ns = .error e) : e.IsStatic := by
  induction ns with
  | nil => simp [checkNames] at h
  | cons n ns ih =>
    rw [checkNames] at h
    split at h
    · exact ih h
    · obtain rfl := Except.error.inj h
      trivial

theorem isStatic_of_checkRules {rules : List RewriteRule}
    (h : checkRules store rules = .error e) : e.IsStatic := by
  induction rules with
  | nil => simp [checkRules] at h
  | cons r rs ih =>
    rw [checkRules] at h
    rcases bind_eq_error_iff.mp h with h | ⟨_, -, h⟩
    · exact isStatic_of_checkNames h
    · exact ih h

/-- A plan is rejected for an ordering that cannot be met or a name that is not known. -/
theorem isStatic_of_validate (h : plan.validate store = .error e) : e.IsStatic := by
  unfold validate at h
  rcases bind_eq_error_iff.mp h with h | ⟨_, -, h⟩
  · exact isStatic_of_checkFragments h
  rcases bind_eq_error_iff.mp h with h | ⟨_, -, h⟩
  · exact isStatic_of_checkRules h
  · split at h
    · simp at h
    · exact isStatic_of_checkNames h

end Plan

end DeclSurface
