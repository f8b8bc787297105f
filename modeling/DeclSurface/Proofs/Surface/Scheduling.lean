import DeclSurface.Proofs.Surface.Stopping
import Mathlib.Logic.Relation

/-!
# Scheduling a batch

The runs of a batch proceed side by side, each from one fragment to the next, in any order. When
a run is about to place a fragment it may see that it was asked to stop, if an earlier run has
failed by then. Whether it does changes what comes of that run, but not what comes of the batch:
a run that gives up stands behind one that fails by itself.

* `RunState`, `Advances` — how far a run is, and its own moves.
* `Moves`, `Reaches`     — the moves of a batch, in any order.
* `Orderly`              — the invariant of a batch.
* `orderly_moves`        — every move keeps it.
* `exists_reaches_finished` — from wherever it is, a batch can be finished.
-/

namespace DeclSurface

open Relation

/-- How far a run has come. -/
inductive RunState where
  | waiting
  /-- It is about to place the fragments in `rest`, the first of which is numbered `k`. -/
  | placing (k : Nat) (rest : List Fragment) (progress : Progress)
  | done (result : Except ComposeError Surface)

/-- The runs of a batch, in the order of their configurations. -/
abbrev Batch : Type := List (Configuration × RunState)

/-- The run numbered `j` has failed, other than by giving up. -/
def Batch.FailedAt (b : Batch) (j : Nat) : Prop :=
  ∃ c e, b[j]? = some (c, .done (.error e)) ∧ e.IsDefect

/-- The batch in which every run has come to its result. -/
def Batch.finished (results : List (Configuration × Except ComposeError Surface)) : Batch :=
  results.map fun x => (x.1, .done x.2)

namespace Library

/-- What a run does next, as long as it sees no request to stop. -/
inductive Advances (l : Library) (o : SurfaceOptions) (c : Configuration) :
    RunState → RunState → Prop where
  | order {order : List Fragment} (h : l.orderFor o c = .ok order) :
      Advances l o c .waiting (.placing 0 order (Progress.start (l.flagsFor o c)))
  | refuse {e : ComposeError} (h : l.orderFor o c = .error e) :
      Advances l o c .waiting (.done (.error e))
  | place {k : Nat} {f : Fragment} {fs : List Fragment} {p q : Progress}
      (h : (l.plan (some c)).place (l.flagsFor o c) f p = .ok q) :
      Advances l o c (.placing k (f :: fs) p) (.placing (k + 1) fs q)
  | fail {k : Nat} {f : Fragment} {fs : List Fragment} {p : Progress} {e : ComposeError}
      (h : (l.plan (some c)).place (l.flagsFor o c) f p = .error e) :
      Advances l o c (.placing k (f :: fs) p) (.done (.error e))
  | finish {k : Nat} {p : Progress} :
      Advances l o c (.placing k [] p) (.done (.ok (l.surfaceOf o c p)))

/--
One run of a batch moves. If it is about to place a fragment and an earlier run has failed, it may
see a request to stop and give up; it need not see it.
-/
inductive Moves (l : Library) (o : SurfaceOptions) : Batch → Batch → Prop where
  | advance {b : Batch} {i : Nat} {c : Configuration} {s t : RunState}
      (hRun : b[i]? = some (c, s)) (hNext : l.Advances o c s t) :
      Moves l o b (b.set i (c, t))
  | giveUp {b : Batch} {i k : Nat} {c : Configuration} {f : Fragment} {fs : List Fragment}
      {p : Progress} (hRun : b[i]? = some (c, .placing k (f :: fs) p))
      (hAsked : ∃ j < i, b.FailedAt j) :
      Moves l o b (b.set i (c, .done (.error (.cancelled p.collected.fragments.length))))

/-- Runs move one after the other, in any order. -/
def Reaches (l : Library) (o : SurfaceOptions) : Batch → Batch → Prop :=
  ReflTransGen (l.Moves o)

/-- The batch in which no run has begun. -/
def waiting (l : Library) : Batch :=
  l.configurations.values.map fun c => (c, .waiting)

variable {l : Library} {o : SurfaceOptions} {c : Configuration} {s t : RunState} {b b' : Batch}
  {f : Fragment} {fs : List Fragment} {p q : Progress} {e : ComposeError} {i k : Nat}
  {results : List (Configuration × Except ComposeError Surface)}

/-! ## One run -/

/--
What a run has done so far is what it does under any requests that it cannot have seen yet; once
it is done there are requests that lead to its result.
-/
def Follows (l : Library) (o : SurfaceOptions) (c : Configuration) : RunState → Prop
  | .waiting => True
  | .placing k rest p => ∀ stop : Nat → Bool, (∀ j < k, stop j = false) →
      l.surfaceUntil (some c) o stop = l.placedUntil o c stop k rest p
  | .done r => ∃ stop, l.surfaceUntil (some c) o stop = r

theorem placedUntil_cons {stop : Nat → Bool} (h : stop k = false) :
    l.placedUntil o c stop k (f :: fs) p
      = (l.plan (some c)).place (l.flagsFor o c) f p >>= fun q =>
        l.placedUntil o c stop (k + 1) fs q := by
  have hGoesOn : ¬ stop k = true := by simp [h]
  rw [placedUntil, Plan.placeAll, if_neg hGoesOn]
  exact bind_assoc _ _ _

theorem follows_advances (h : l.Follows o c s) (hNext : l.Advances o c s t) :
    l.Follows o c t := by
  cases hNext with
  | order hOrder =>
    intro stop _
    rw [surfaceUntil_eq_bind, hOrder, ok_bind]
  | refuse hOrder =>
    refine ⟨fun _ => false, ?_⟩
    rw [surfaceUntil_eq_bind, hOrder]
    rfl
  | place hPlace =>
    -- a request that is not seen up to the next fragment is not seen at this one
    intro stop hStop
    rw [h stop fun j hj => hStop j (Nat.lt_succ_of_lt hj),
      placedUntil_cons (hStop _ (Nat.lt_succ_self _)), hPlace, ok_bind]
  | fail hPlace =>
    refine ⟨fun _ => false, ?_⟩
    rw [h _ fun _ _ => rfl, placedUntil_cons rfl, hPlace]
    rfl
  | finish => exact ⟨fun _ => false, h _ fun _ _ => rfl⟩

theorem follows_giveUp (h : l.Follows o c (.placing k (f :: fs) p)) :
    l.Follows o c (.done (.error (.cancelled p.collected.fragments.length))) := by
  -- the request comes just now, so it has been seen nowhere else
  have hBefore : ∀ j < k, decide (j = k) = false := by
    intro j hj
    exact decide_eq_false (by omega)
  refine ⟨fun j => decide (j = k), ?_⟩
  rw [h _ hBefore, placedUntil, Plan.placeAll, if_pos (decide_eq_true rfl)]
  rfl

/-- A run that sees no request to stop does not give up. -/
theorem isDefect_of_advances (h : l.Advances o c s (.done (.error e))) : e.IsDefect := by
  cases h with
  | refuse hOrder => exact isDefect_of_orderFor hOrder
  | fail hPlace => exact Plan.isDefect_of_place hPlace

/-! ## Batches -/

theorem set_of_getElem? {α : Type} {xs : List α} {x : α} (h : xs[i]? = some x) :
    xs.set i x = xs := by
  obtain ⟨hLt, rfl⟩ := List.getElem?_eq_some_iff.mp h
  exact List.set_getElem_self hLt

theorem getElem?_set_of_eq {x : Configuration × RunState} (h : b[i]? = some x)
    (y : Configuration × RunState) (j : Nat) :
    (b.set i y)[j]? = if i = j then some y else b[j]? := by
  have hLt := (List.getElem?_eq_some_iff.mp h).1
  rw [List.getElem?_set, if_pos hLt]

/-- Every run follows its own course, and one that gave up stands behind one that failed. -/
structure Orderly (l : Library) (o : SurfaceOptions) (b : Batch) : Prop where
  configurations : b.map (·.1) = l.configurations.values
  follows : ∀ (i : Nat) (c : Configuration) (s : RunState), b[i]? = some (c, s) → l.Follows o c s
  behind : ∀ (i : Nat) (c : Configuration) (n : Nat),
    b[i]? = some (c, .done (.error (.cancelled n))) → ∃ j < i, b.FailedAt j

theorem orderly_waiting (l : Library) (o : SurfaceOptions) : l.Orderly o l.waiting := by
  have hWaiting (i : Nat) (c : Configuration) (s : RunState)
      (h : l.waiting[i]? = some (c, s)) : s = .waiting := by
    rw [waiting, List.getElem?_map, Option.map_eq_some_iff] at h
    obtain ⟨d, -, hPair⟩ := h
    exact (Prod.mk.inj hPair).2.symm
  refine { configurations := ?configurations, follows := ?follows, behind := ?behind }
  case configurations =>
    rw [waiting, List.map_map]
    exact List.map_id _
  case follows =>
    intro i c s h
    rw [hWaiting i c s h]
    trivial
  case behind =>
    intro i c n h
    exact absurd (hWaiting i c _ h) (by simp)

/-- A failed run stays as it is when another one moves. -/
theorem failedAt_set (hRun : b[i]? = some (c, s)) (hGoing : ∀ r, s ≠ .done r) {j : Nat}
    (h : b.FailedAt j) : Batch.FailedAt (b.set i (c, t)) j := by
  obtain ⟨d, e, hj, hDefect⟩ := h
  have hOther : i ≠ j := by
    rintro rfl
    rw [hRun] at hj
    exact hGoing _ (Prod.mk.inj (Option.some.inj hj)).2
  refine ⟨d, e, ?_, hDefect⟩
  rw [getElem?_set_of_eq hRun, if_neg hOther]
  exact hj

/-- A batch stays orderly when one run goes on by its own course. -/
theorem Orderly.set (h : l.Orderly o b) (hRun : b[i]? = some (c, s)) (hGoing : ∀ r, s ≠ .done r)
    (hFollows : l.Follows o c t)
    (hBehind : ∀ n, t = .done (.error (.cancelled n)) → ∃ j < i, b.FailedAt j) :
    l.Orderly o (b.set i (c, t)) := by
  refine { configurations := ?configurations, follows := ?follows, behind := ?behind }
  case configurations =>
    have hSame : (b.map (·.1))[i]? = some c := by
      rw [List.getElem?_map, hRun]
      rfl
    rw [List.map_set, set_of_getElem? hSame]
    exact h.configurations
  case follows =>
    intro j d u hj
    rw [getElem?_set_of_eq hRun] at hj
    split at hj
    · obtain ⟨rfl, rfl⟩ := Prod.mk.inj (Option.some.inj hj)
      exact hFollows
    · exact h.follows j d u hj
  case behind =>
    -- an earlier run that had failed still has, since only a run that goes on can move
    intro j d n hj
    have hOld : ∃ k < j, b.FailedAt k := by
      rw [getElem?_set_of_eq hRun] at hj
      split at hj
      · rename_i hij
        obtain ⟨-, hGaveUp⟩ := Prod.mk.inj (Option.some.inj hj)
        rw [← hij]
        exact hBehind n hGaveUp
      · exact h.behind j d n hj
    obtain ⟨k, hk, hFailed⟩ := hOld
    exact ⟨k, hk, failedAt_set hRun hGoing hFailed⟩

/-- Every move keeps a batch orderly. -/
theorem orderly_moves (h : l.Orderly o b) (hMoves : l.Moves o b b') : l.Orderly o b' := by
  cases hMoves with
  | advance hRun hNext =>
    refine h.set hRun ?_ (follows_advances (h.follows _ _ _ hRun) hNext) ?_
    · rintro r rfl
      cases hNext
    · rintro n rfl
      exact (isDefect_of_advances hNext).elim
  | giveUp hRun hAsked =>
    refine h.set hRun ?_ (follows_giveUp (h.follows _ _ _ hRun)) fun _ _ => hAsked
    rintro r ⟨⟩

theorem orderly_reaches (h : l.Reaches o l.waiting b) : l.Orderly o b := by
  induction h with
  | refl => exact orderly_waiting l o
  | tail _ hMoves ih => exact orderly_moves ih hMoves

/-! ## Finishing -/

theorem exists_reaches_done_of_placing (hRun : b[i]? = some (c, .placing k fs p)) :
    ∃ r, l.Reaches o b (b.set i (c, .done r)) := by
  induction fs generalizing b k p with
  | nil => exact ⟨_, ReflTransGen.single (.advance hRun .finish)⟩
  | cons f fs ih =>
    cases hPlace : (l.plan (some c)).place (l.flagsFor o c) f p with
    | error e => exact ⟨_, ReflTransGen.single (.advance hRun (.fail hPlace))⟩
    | ok q =>
      have hNext : (b.set i (c, .placing (k + 1) fs q))[i]? = some (c, .placing (k + 1) fs q) := by
        rw [getElem?_set_of_eq hRun, if_pos rfl]
      obtain ⟨r, hRest⟩ := ih hNext
      rw [List.set_set] at hRest
      exact ⟨r, ReflTransGen.head (.advance hRun (.place hPlace)) hRest⟩

/-- Each run can be brought to its end, whatever the others do. -/
theorem exists_reaches_done (hRun : b[i]? = some (c, s)) :
    ∃ r, l.Reaches o b (b.set i (c, .done r)) := by
  cases s with
  | waiting =>
    cases hOrder : l.orderFor o c with
    | error e => exact ⟨_, ReflTransGen.single (.advance hRun (.refuse hOrder))⟩
    | ok order =>
      have hNext : (b.set i (c, .placing 0 order (Progress.start (l.flagsFor o c))))[i]?
          = some (c, .placing 0 order (Progress.start (l.flagsFor o c))) := by
        rw [getElem?_set_of_eq hRun, if_pos rfl]
      obtain ⟨r, hRest⟩ := exists_reaches_done_of_placing (l := l) (o := o) hNext
      rw [List.set_set] at hRest
      exact ⟨r, ReflTransGen.head (.advance hRun (.order hOrder)) hRest⟩
  | placing k rest p => exact exists_reaches_done_of_placing hRun
  | done r =>
    refine ⟨r, ?_⟩
    rw [set_of_getElem? hRun]
    exact ReflTransGen.refl

/-- The first `n` runs of a batch can be brought to their ends. -/
theorem exists_reaches_done_below (n : Nat) (b : Batch) :
    ∃ b', l.Reaches o b b' ∧ b'.length = b.length ∧
      ∀ i < n, ∀ c s, b'[i]? = some (c, s) → ∃ r, s = .done r := by
  induction n with
  | zero => exact ⟨b, ReflTransGen.refl, rfl, fun i hi => absurd hi (Nat.not_lt_zero i)⟩
  | succ n ih =>
    obtain ⟨b₁, hReaches, hLength, hBelow⟩ := ih
    cases hRun : b₁[n]? with
    | none =>
      refine ⟨b₁, hReaches, hLength, ?_⟩
      intro i hi c s hAt
      have hNot : i ≠ n := by
        rintro rfl
        simp [hRun] at hAt
      exact hBelow i (by omega) c s hAt
    | some x =>
      obtain ⟨r, hLast⟩ := exists_reaches_done (l := l) (o := o) hRun
      refine ⟨_, hReaches.trans hLast, ?_, ?_⟩
      · rw [List.length_set]
        exact hLength
      · intro i hi c s hAt
        rw [getElem?_set_of_eq hRun] at hAt
        split at hAt
        · exact ⟨r, (Prod.mk.inj (Option.some.inj hAt)).2.symm⟩
        · exact hBelow i (by omega) c s hAt

theorem exists_eq_finished (h : ∀ x ∈ b, ∃ r, x.2 = .done r) :
    ∃ results, b = Batch.finished results := by
  induction b with
  | nil => exact ⟨[], rfl⟩
  | cons x b ih =>
    obtain ⟨⟨r, hr⟩, hRest⟩ := List.forall_mem_cons.mp h
    obtain ⟨results, rfl⟩ := ih hRest
    refine ⟨(x.1, r) :: results, ?_⟩
    rw [Batch.finished, Batch.finished, List.map_cons, ← hr]

/-- However far a batch has come, it can be finished. -/
theorem exists_reaches_finished (l : Library) (o : SurfaceOptions) (b : Batch) :
    ∃ results, l.Reaches o b (Batch.finished results) := by
  obtain ⟨b', hReaches, hLength, hBelow⟩ :=
    exists_reaches_done_below (l := l) (o := o) b.length b
  have hDone : ∀ x ∈ b', ∃ r, x.2 = .done r := by
    intro x hx
    obtain ⟨i, hAt⟩ := List.mem_iff_getElem?.mp hx
    have hLt := (List.getElem?_eq_some_iff.mp hAt).1
    exact hBelow i (hLength ▸ hLt) x.1 x.2 hAt
  obtain ⟨results, rfl⟩ := exists_eq_finished hDone
  exact ⟨results, hReaches⟩

end Library

end DeclSurface
