import DeclSurface.Proofs.Composition.Script

/-!
# Clashes

While fragments are placed two things can go wrong: a rule meets another that is still in effect, or
an item meets one that has been collected. There are no other failures, requests to stop apart.

* `ComposeError.IsClash`   — the failures of fragments that are placed.
* `isClash_of_perform`     — a script fails in no other way.
* `isClash_or_cancelled`   — nor does placing fragments, unless it is stopped.
-/

namespace DeclSurface

/-- Two rules or two items do not go together. -/
def ComposeError.IsClash : ComposeError → Prop
  | .rewriteConflict .. => True
  | .duplicateDeclaration .. => True
  | _ => False

variable {e : ComposeError}

theorem Engine.isClash_of_apply {engine : Engine} {rule : RewriteRule} {fragment : String}
    (h : engine.apply rule fragment = .error e) : e.IsClash := by
  unfold apply at h
  split at h
  · split at h
    · simp at h
    · obtain rfl := Except.error.inj h
      trivial
  · simp at h

theorem Engine.isClash_of_applyAll {engine : Engine} {rules : List RewriteRule}
    {fragment : String} (h : engine.applyAll fragment rules = .error e) : e.IsClash := by
  induction rules generalizing engine with
  | nil => simp [applyAll] at h
  | cons r rs ih =>
    rw [applyAll, bind_eq_error_iff] at h
    rcases h with h | ⟨engine₁, -, h⟩
    · exact isClash_of_apply h
    · exact ih h

theorem Collected.isClash_of_add {c : Collected} {fragment : String} {item : Item}
    (h : c.add fragment item = .error e) : e.IsClash := by
  unfold add at h
  split at h
  · simp at h
  · split at h
    · simp at h
    · obtain rfl := Except.error.inj h
      trivial

namespace Progress

variable {p : Progress} {a : Action} {as : List Action}

theorem isClash_of_act (h : p.act a = .error e) : e.IsClash := by
  cases a with
  | enter fragment rules =>
    rcases bind_eq_error_iff.mp h with h | ⟨engine, -, h⟩
    · exact Engine.isClash_of_applyAll h
    · simp at h
  | collect fragment item =>
    rcases bind_eq_error_iff.mp h with h | ⟨collected, -, h⟩
    · exact Collected.isClash_of_add h
    · simp at h
  | leave count => simp [act] at h

theorem isClash_of_perform (h : p.perform as = .error e) : e.IsClash := by
  induction as generalizing p with
  | nil => simp [perform] at h
  | cons a as ih =>
    rw [perform, bind_eq_error_iff] at h
    rcases h with h | ⟨q, -, h⟩
    · exact isClash_of_act h
    · exact ih h

end Progress

namespace Plan

variable {plan : Plan} {flags : FlagSet} {fs : List Fragment} {p : Progress}

theorem isClash_of_place {f : Fragment} (h : plan.place flags f p = .error e) : e.IsClash := by
  rw [place_eq_perform] at h
  exact Progress.isClash_of_perform h

theorem isClash_or_cancelled {stop : Nat → Bool} {k : Nat}
    (h : plan.placeAll flags stop k fs p = .error e) : e.IsClash ∨ ∃ n, e = .cancelled n := by
  induction fs generalizing k p with
  | nil => simp [placeAll] at h
  | cons f fs ih =>
    rw [placeAll] at h
    split at h
    · exact Or.inr ⟨_, (Except.error.inj h).symm⟩
    · rcases bind_eq_error_iff.mp h with h | ⟨q, -, h⟩
      · exact Or.inl (isClash_of_place h)
      · exact ih h

end Plan

end DeclSurface
