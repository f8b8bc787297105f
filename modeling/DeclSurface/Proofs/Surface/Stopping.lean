import DeclSurface.Proofs.Composition.Clash
import DeclSurface.Proofs.Composition.Order
import DeclSurface.Proofs.Composition.Validity
import DeclSurface.Surface.Batch

/-!
# Runs that are asked to stop

A run sees a request to stop only when it is about to place a fragment. It gives up there, or it
comes to the result that it has by itself, and by itself no run gives up.

* `ComposeError.IsDefect`  — a failure that is about what is composed.
* `isDefect_of_place`      — all failures to place a fragment are.
* `surfaceUntil_eq_bind`   — a run orders its fragments and places them.
* `surfaceUntil_cases`     — what requests to stop can do to a run.
-/

namespace DeclSurface

/-- The failure is about what is composed, and not about a request to stop. -/
def ComposeError.IsDefect : ComposeError → Prop
  | .cancelled _ => False
  | _ => True

variable {e : ComposeError}

theorem ComposeError.IsStatic.isDefect (h : e.IsStatic) : e.IsDefect := by
  cases e with
  | cancelled n => exact h.elim
  | _ => trivial

theorem ComposeError.IsClash.isDefect (h : e.IsClash) : e.IsDefect := by
  cases e with
  | cancelled n => exact h.elim
  | _ => trivial

namespace Plan

variable {plan : Plan} {flags : FlagSet} {fs : List Fragment} {p : Progress}

theorem isDefect_of_place {f : Fragment} (h : plan.place flags f p = .error e) : e.IsDefect :=
  (isClash_of_place h).isDefect

theorem isDefect_of_ordered (h : ordered fs = .error e) : e.IsDefect := by
  obtain ⟨names, rfl⟩ := error_of_ordered h
  trivial

/-- Requests to stop end the placing of fragments or have no effect on it. -/
theorem placeAll_cases (stop : Nat → Bool) (k : Nat) (fs : List Fragment) (p : Progress) :
    plan.placeAll flags stop k fs p = plan.placeAll flags (fun _ => false) k fs p ∨
      ∃ n, plan.placeAll flags stop k fs p = .error (.cancelled n) := by
  induction fs generalizing k p with
  | nil => exact Or.inl rfl
  | cons f fs ih =>
    rw [placeAll, placeAll, if_neg Bool.false_ne_true]
    by_cases hStop : stop k = true
    · rw [if_pos hStop]
      exact Or.inr ⟨_, rfl⟩
    · rw [if_neg hStop]
      cases plan.place flags f p with
      | error e => exact Or.inl rfl
      | ok q => exact ih (k + 1) q

end Plan

theorem FragmentStore.isDefect_of_register {s : FragmentStore} {f : Fragment}
    (h : s.register f = .error e) : e.IsDefect := by
  unfold register at h
  split at h
  · obtain rfl := Except.error.inj h
    trivial
  · simp at h

theorem FragmentStore.isDefect_of_foldlM {s : FragmentStore} {fs : List Fragment}
    (h : fs.foldlM register s = .error e) : e.IsDefect := by
  induction fs generalizing s with
  | nil => simp [pure, Except.pure] at h
  | cons f fs ih =>
    rw [List.foldlM_cons, bind_eq_error_iff] at h
    rcases h with h | ⟨s₁, -, h⟩
    · exact isDefect_of_register h
    · exact ih h

/-! ## Runs -/

namespace Library

variable {l : Library} {o : SurfaceOptions} {c : Configuration}

/-- The flags under which a run composes. -/
def flagsFor (l : Library) (o : SurfaceOptions) (c : Configuration) : FlagSet :=
  (l.plan (some c)).effectiveFlags o.flags

/-- The fragments that a run places, in order. -/
def orderFor (l : Library) (o : SurfaceOptions) (c : Configuration) :
    Except ComposeError (List Fragment) := do
  let store ← l.store
  (l.plan (some c)).validate store
  Plan.ordered ((l.plan (some c)).included store (l.flagsFor o c))

/-- The surface of what a run has placed. -/
def surfaceOf (l : Library) (o : SurfaceOptions) (c : Configuration) (p : Progress) : Surface :=
  let m := (l.plan (some c)).manifest (l.flagsFor o c) p
  { configuration := some c.name, manifest := m, text := m.emit o.format o.fingerprint }

/-- What comes of a run that has some fragments left, the first of them numbered `k`. -/
def placedUntil (l : Library) (o : SurfaceOptions) (c : Configuration) (stop : Nat → Bool)
    (k : Nat) (fs : List Fragment) (p : Progress) : Except ComposeError Surface := do
  let q ← (l.plan (some c)).placeAll (l.flagsFor o c) stop k fs p
  .ok (l.surfaceOf o c q)

theorem surfaceUntil_eq_bind (stop : Nat → Bool) :
    l.surfaceUntil (some c) o stop = l.orderFor o c >>= fun order =>
      l.placedUntil o c stop 0 order (Progress.start (l.flagsFor o c)) := by
  simp only [surfaceUntil, manifestUntil, Plan.composeUntil, orderFor, placedUntil, bind_assoc,
    ok_bind]
  rfl

theorem isDefect_of_orderFor (h : l.orderFor o c = .error e) : e.IsDefect := by
  rcases bind_eq_error_iff.mp h with h | ⟨store, -, h⟩
  · exact FragmentStore.isDefect_of_foldlM h
  · rcases check_bind_eq_error_iff.mp h with h | ⟨-, h⟩
    · exact (Plan.isStatic_of_validate h).isDefect
    · exact Plan.isDefect_of_ordered h

/-- Requests to stop make a run give up, or have no effect on what comes of it. -/
theorem surfaceUntil_cases (l : Library) (o : SurfaceOptions) (c : Configuration)
    (stop : Nat → Bool) :
    l.surfaceUntil (some c) o stop = l.surface (some c) o ∨
      ∃ n, l.surfaceUntil (some c) o stop = .error (.cancelled n) := by
  unfold surface
  rw [surfaceUntil_eq_bind, surfaceUntil_eq_bind]
  cases l.orderFor o c with
  | error e => exact Or.inl rfl
  | ok order =>
    rw [ok_bind, ok_bind]
    unfold placedUntil
    rcases Plan.placeAll_cases stop 0 order (Progress.start (l.flagsFor o c)) with h | ⟨n, h⟩
    · rw [h]
      exact Or.inl rfl
    · rw [h]
      exact Or.inr ⟨n, rfl⟩

/-- By itself a run fails only for a defect. -/
theorem isDefect_of_surface (h : l.surface (some c) o = .error e) : e.IsDefect := by
  unfold surface at h
  rw [surfaceUntil_eq_bind] at h
  rcases bind_eq_error_iff.mp h with h | ⟨order, -, h⟩
  · exact isDefect_of_orderFor h
  · rcases bind_eq_error_iff.mp h with h | ⟨q, -, h⟩
    · rw [Plan.placeAll_eq_perform] at h
      exact (Progress.isClash_of_perform h).isDefect
    · simp at h

end Library

end DeclSurface
