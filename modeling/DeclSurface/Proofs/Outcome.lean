import Mathlib.Data.List.Forall2

/-!
# Outcomes

A computation that may fail is taken apart into its steps, and every step of one that succeeds
succeeds.

* `bind_eq_ok_iff`, `bind_eq_error_iff` — how a sequence of two steps ends.
* `check_bind_eq_ok_iff`, `check_bind_eq_error_iff` — the same, when the first is only a check.
* `mapM_eq_ok_iff`                      — the results of a list of computations.
* `SameOutcome`                         — two computations that end alike.
-/

namespace DeclSurface

variable {ε α β γ δ : Type}

theorem bind_eq_ok_iff {x : Except ε α} {k : α → Except ε β} {b : β} :
    (x >>= k) = .ok b ↔ ∃ a, x = .ok a ∧ k a = .ok b := by
  cases x with
  | error e => simp [bind, Except.bind]
  | ok a => simp [bind, Except.bind]

/-- A check succeeds or ends the sequence. -/
theorem check_bind_eq_ok_iff {x : Except ε Unit} {k : Unit → Except ε β} {b : β} :
    (x >>= k) = .ok b ↔ x = .ok () ∧ k () = .ok b := by
  rw [bind_eq_ok_iff]
  exact ⟨fun ⟨⟨⟩, h⟩ => h, fun h => ⟨(), h⟩⟩

theorem bind_eq_error_iff {x : Except ε α} {k : α → Except ε β} {e : ε} :
    (x >>= k) = .error e ↔ x = .error e ∨ ∃ a, x = .ok a ∧ k a = .error e := by
  cases x with
  | error e' => simp [bind, Except.bind]
  | ok a => simp [bind, Except.bind]

theorem check_bind_eq_error_iff {x : Except ε Unit} {k : Unit → Except ε β} {e : ε} :
    (x >>= k) = .error e ↔ x = .error e ∨ x = .ok () ∧ k () = .error e := by
  rw [bind_eq_error_iff]
  exact or_congr_right ⟨fun ⟨⟨⟩, h⟩ => h, fun h => ⟨(), h⟩⟩

theorem ok_bind (a : α) (k : α → Except ε β) : (Except.ok a >>= k) = k a :=
  rfl

/-- A list of computations succeeds with the result of each. -/
theorem mapM_eq_ok_iff {f : α → Except ε β} {as : List α} {bs : List β} :
    as.mapM f = .ok bs ↔ List.Forall₂ (fun a b => f a = .ok b) as bs := by
  induction as generalizing bs with
  | nil =>
    rw [List.mapM_nil, List.forall₂_nil_left_iff]
    exact ⟨fun h => (Except.ok.inj h).symm, fun h => congrArg Except.ok h.symm⟩
  | cons a as ih =>
    rw [List.mapM_cons, bind_eq_ok_iff, List.forall₂_cons_left_iff]
    simp only [bind_eq_ok_iff, ih]
    constructor
    · rintro ⟨b, hHead, bs, hTail, h⟩
      exact ⟨b, bs, hHead, hTail, (Except.ok.inj h).symm⟩
    · rintro ⟨b, bs, hHead, hTail, rfl⟩
      exact ⟨b, hHead, bs, hTail, rfl⟩

theorem exists_mapM_eq_ok_iff {f : α → Except ε β} {as : List α} :
    (∃ bs, as.mapM f = .ok bs) ↔ ∀ a ∈ as, ∃ b, f a = .ok b := by
  simp only [mapM_eq_ok_iff]
  induction as with
  | nil => exact ⟨fun _ a ha => absurd ha List.not_mem_nil, fun _ => ⟨[], .nil⟩⟩
  | cons a as ih =>
    rw [List.forall_mem_cons, ← ih]
    constructor
    · rintro ⟨_, h⟩
      obtain ⟨b, bs, hHead, hTail, -⟩ := List.forall₂_cons_left_iff.mp h
      exact ⟨⟨b, hHead⟩, bs, hTail⟩
    · rintro ⟨⟨b, hHead⟩, bs, hTail⟩
      exact ⟨b :: bs, .cons hHead hTail⟩

/-- Both computations end with the same error, or with results that `R` relates. -/
inductive SameOutcome (R : α → β → Prop) : Except ε α → Except ε β → Prop where
  | error (e : ε) : SameOutcome R (.error e) (.error e)
  | ok {a : α} {b : β} (h : R a b) : SameOutcome R (.ok a) (.ok b)

theorem SameOutcome.bind {R : α → β → Prop} {S : γ → δ → Prop} {x : Except ε α} {y : Except ε β}
    {k : α → Except ε γ} {l : β → Except ε δ} (h : SameOutcome R x y)
    (hNext : ∀ a b, R a b → SameOutcome S (k a) (l b)) : SameOutcome S (x >>= k) (y >>= l) := by
  cases h with
  | error e => exact .error e
  | ok h => exact hNext _ _ h

/-- A step that both computations share. -/
theorem SameOutcome.bind_self {S : γ → δ → Prop} {x : Except ε α} {k : α → Except ε γ}
    {l : α → Except ε δ} (hNext : ∀ a, SameOutcome S (k a) (l a)) :
    SameOutcome S (x >>= k) (x >>= l) := by
  cases x with
  | error e => exact .error e
  | ok a => exact hNext a

end DeclSurface
