import DeclSurface.Proofs.Composition.Clash
import DeclSurface.Proofs.Composition.Order
import DeclSurface.Proofs.Composition.Validity

/-!
# Acceptance

A composition begins with checks that look at no flag and at no gate. What they reject is rejected
under every flag set, with the same error, even if it stands in a fragment that is left out; and
what they accept is not called contradictory or unknown later on.

* `Fragment.ungated`           — a fragment with every gate in it removed.
* `validate_ungated`           — the checks do not see the difference.
* `composeUntil_eq_error_iff`  — compositions report what the checks report.
* `verdict_exact`              — what is accepted, and that flags have no say in it.
-/

namespace DeclSurface

/-! ## Fragments without gates -/

namespace Fragment

mutual
/-- The fragment with its gate and those of all fragments nested in it removed. -/
def ungated : Fragment → Fragment
  | ⟨name, _, items, constraints, children⟩ =>
    ⟨name, .always, items, constraints, ungatedOf children⟩

/-- The fragments of a list without their gates. -/
def ungatedOf : List Fragment → List Fragment
  | [] => []
  | f :: fs => ungated f :: ungatedOf fs
end

@[simp]
theorem name_ungated (f : Fragment) : f.ungated.name = f.name := by
  cases f
  rw [ungated]

@[simp]
theorem constraints_ungated (f : Fragment) : f.ungated.constraints = f.constraints := by
  cases f
  rw [ungated]

theorem map_name_ungatedOf (fs : List Fragment) :
    (ungatedOf fs).map (·.name) = fs.map (·.name) := by
  induction fs with
  | nil => rfl
  | cons f fs ih => rw [ungatedOf, List.map_cons, List.map_cons, name_ungated, ih]

mutual
theorem names_ungated : ∀ f : Fragment, names f.ungated = names f
  | ⟨_, _, _, _, children⟩ => by
    rw [ungated, names, names, namesOf_ungatedOf children]

theorem namesOf_ungatedOf : ∀ fs : List Fragment, namesOf (ungatedOf fs) = namesOf fs
  | [] => rfl
  | f :: fs => by
    rw [ungatedOf, namesOf, namesOf, names_ungated f, namesOf_ungatedOf fs]
end

end Fragment

namespace FragmentStore

/-- The store with all gates removed. -/
def ungated (store : FragmentStore) : FragmentStore where
  fragments := Fragment.ungatedOf store.fragments
  distinct := by
    rw [Fragment.namesOf_ungatedOf]
    exact store.distinct

variable (store : FragmentStore)

theorem topLevel_ungated : store.ungated.topLevel = store.topLevel :=
  Fragment.map_name_ungatedOf store.fragments

theorem contains_ungated : store.ungated.contains = store.contains := by
  have hNames : store.ungated.names = store.names := Fragment.namesOf_ungatedOf store.fragments
  funext name
  rw [contains, contains, hNames]

end FragmentStore

namespace Plan

/-! ## The checks look at no gate -/

mutual
theorem checkNested_ungated : ∀ f : Fragment, checkNested f.ungated = checkNested f
  | ⟨name, _, _, _, children⟩ => by
    rw [Fragment.ungated, checkNested, checkNested, checkChildren_ungatedOf name children]

theorem checkChildren_ungatedOf (parent : String) : ∀ fs : List Fragment,
    checkChildren parent (Fragment.ungatedOf fs) = checkChildren parent fs
  | [] => rfl
  | f :: fs => by
    rw [Fragment.ungatedOf, checkChildren, checkChildren, Fragment.constraints_ungated,
      Fragment.name_ungated, checkNested_ungated f, checkChildren_ungatedOf parent fs]
end

variable {store : FragmentStore}

theorem checkConstraints_ungated {name : String} {before cs : List Constraint} :
    checkConstraints store.ungated name before cs = checkConstraints store name before cs := by
  induction cs generalizing before with
  | nil => rfl
  | cons c cs ih =>
    rw [checkConstraints, checkConstraints, store.topLevel_ungated, store.contains_ungated, ih]

theorem checkFragments_ungated {fs : List Fragment} :
    checkFragments store.ungated (Fragment.ungatedOf fs) = checkFragments store fs := by
  induction fs with
  | nil => rfl
  | cons f fs ih =>
    rw [Fragment.ungatedOf, checkFragments, checkFragments, checkNested_ungated,
      checkConstraints_ungated, Fragment.name_ungated, Fragment.constraints_ungated, ih]

theorem checkRules_ungated {rules : List RewriteRule} :
    checkRules store.ungated rules = checkRules store rules := by
  induction rules with
  | nil => rfl
  | cons r rs ih => rw [checkRules, checkRules, store.contains_ungated, ih]

/-- The checks are the same with and without gates. -/
theorem validate_ungated (plan : Plan) (store : FragmentStore) :
    plan.validate store.ungated = plan.validate store := by
  have hFragments : checkFragments store.ungated store.ungated.fragments
      = checkFragments store store.fragments := checkFragments_ungated
  -- rules and configuration ask the store for names only
  rw [validate, validate, hFragments, checkRules_ungated, store.topLevel_ungated]

end Plan

/-! ## Nothing else reports what the checks report -/

theorem ComposeError.IsStatic.not_isClash {e : ComposeError} (h : e.IsStatic) : ¬ e.IsClash := by
  cases e with
  | conflict | unknownFragment => exact id
  | duplicateFragment | rewriteConflict | cycle | duplicateDeclaration | cancelled =>
    exact h.elim

namespace Plan

variable {plan : Plan} {store : FragmentStore} {flags : FlagSet} {stop : Nat → Bool}
  {e : ComposeError}

/-- A contradiction or an unknown name is reported by the checks or not at all. -/
theorem composeUntil_eq_error_iff (hStatic : e.IsStatic) :
    plan.composeUntil store flags stop = .error e ↔ plan.validate store = .error e := by
  unfold composeUntil
  constructor
  · intro h
    rcases check_bind_eq_error_iff.mp h with h | ⟨-, h⟩
    · exact h
    -- ordering fails with a cycle, and placing with a clash or because it is stopped
    rcases bind_eq_error_iff.mp h with h | ⟨order, -, h⟩
    · obtain ⟨names, rfl⟩ := error_of_ordered h
      exact hStatic.elim
    rcases bind_eq_error_iff.mp h with h | ⟨p, -, h⟩
    · rcases isClash_or_cancelled h with hClash | ⟨n, rfl⟩
      · exact absurd hClash hStatic.not_isClash
      · exact hStatic.elim
    · simp at h
  · intro h
    exact check_bind_eq_error_iff.mpr (Or.inl h)

theorem exists_error_of_not_valid (h : ¬ plan.Valid store) :
    ∃ e, e.IsStatic ∧ plan.validate store = .error e := by
  rw [← validate_eq_ok_iff] at h
  cases hChecks : plan.validate store with
  | ok => exact absurd hChecks h
  | error e => exact ⟨e, isStatic_of_validate hChecks, rfl⟩

/--
The checks accept exactly the valid plans. What they reject every composition rejects with the
same error, whatever the flags and whenever it is stopped, and no composition of a plan that they
accept ends with an error of that kind. Gates make no difference to them.
-/
theorem verdict_exact (plan : Plan) (store : FragmentStore) :
    (plan.validate store = .ok () ↔ plan.Valid store) ∧
    (∀ e, e.IsStatic → ∀ flags stop,
      plan.composeUntil store flags stop = .error e ↔ plan.validate store = .error e) ∧
    (¬ plan.Valid store →
      ∃ e, e.IsStatic ∧ ∀ flags, plan.compose store flags = .error e) ∧
    ∀ other : FragmentStore, other.ungated = store.ungated →
      plan.validate other = plan.validate store := by
  refine ⟨validate_eq_ok_iff, fun _ hStatic _ _ => composeUntil_eq_error_iff hStatic, ?_, ?_⟩
  · intro hDefect
    obtain ⟨e, hStatic, hChecks⟩ := exists_error_of_not_valid hDefect
    exact ⟨e, hStatic, fun _ => (composeUntil_eq_error_iff hStatic).mpr hChecks⟩
  · intro other hUngated
    rw [← validate_ungated plan other, hUngated, validate_ungated]

/-- A fragment that no flag set but one with `FOO` takes in, ordered before one that is missing. -/
def Sample.hidden : FragmentStore :=
  ⟨[{ name := "shut", gate := .flag "FOO", items := [], constraints := [.mustPrecede "lost"]
      children := [] }], by decide⟩

theorem verdict_exact_sample :
    ¬ Plan.Valid {} Sample.hidden ∧
      ∀ flags, Plan.compose {} Sample.hidden flags
        = .error (.unknownFragment "lost" (.fragment "shut")) := by
  have hVerdict := verdict_exact {} Sample.hidden
  have hChecks : Plan.validate {} Sample.hidden
      = .error (.unknownFragment "lost" (.fragment "shut")) := rfl
  have hStatic : (ComposeError.unknownFragment "lost" (.fragment "shut")).IsStatic := trivial
  refine ⟨?_, fun flags => (hVerdict.2.1 _ hStatic flags _).mpr hChecks⟩
  rw [← hVerdict.1, hChecks]
  exact nofun

end Plan

end DeclSurface
