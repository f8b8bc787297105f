import DeclSurface.Proofs.Rewrite.Replay
import DeclSurface.Rewrite.Session
import Mathlib.Data.List.Forall2

/-!
# Closing scopes

Closing a scope ends its rewrites one by one, innermost first, and each of them is logged. What is
logged depends on the rewrites that are still active further out, and on nothing else.

* `Engine.endEvents`     — the events that end a number of rewrites.
* `log_closeTo`          — closing a scope logs just these.
* `Ends`, `forall₂_ends_endEvents` — each of these events ends the rewrite in its place.
* `endEvent_of_covered`  — what ends an inner rewrite of a macro is spelled like the outer ones.
* `Session.engine_run_invariant` — what the engine keeps in each step, it keeps in every session.
-/

namespace DeclSurface

namespace Engine

variable {e e' : Engine} {a b : ActiveRewrite} {above outer : List ActiveRewrite} {n mark : Nat}

/-- The events that end the innermost `n` rewrites of a stack. -/
def endEvents (position : Nat) : Nat → List ActiveRewrite → List RewriteEvent
  | 0, _ => []
  | _ + 1, [] => []
  | n + 1, a :: outer => endEvent a outer position :: endEvents position n outer

theorem position_endLast (e : Engine) : e.endLast.position = e.position :=
  logsHere_endLast.position

theorem log_endMany : (endMany n e).log = e.log ++ endEvents e.position n e.active := by
  induction n generalizing e with
  | zero =>
    show e.log = _
    rw [endEvents, List.append_nil]
  | succ n ih =>
    rw [endMany, ih, position_endLast, active_endLast]
    cases hActive : e.active with
    | nil =>
      -- nothing is left to end
      have hNothing : endEvents e.position n [] = [] := by
        cases n with
        | zero => rfl
        | succ n => rfl
      rw [endLast_of_nil hActive, List.tail_nil, hNothing, endEvents]
    | cons a outer =>
      rw [log_endLast hActive, List.tail_cons, endEvents, List.append_assoc,
        List.singleton_append]

theorem log_closeTo :
    (e.closeTo mark).log = e.log ++ endEvents e.position (e.active.length - mark) e.active :=
  log_endMany

theorem active_closeTo (hActive : e.active = above ++ outer) (hMark : mark = outer.length) :
    (e.closeTo mark).active = outer := by
  have hCount : e.active.length - mark = above.length := by
    rw [hActive, hMark, List.length_append]
    omega
  rw [closeTo, active_endMany, hCount, hActive]
  exact List.drop_left

/-- The event that ends a rewrite stands behind those that end the inner ones. -/
theorem getElem?_endEvents {position : Nat} (h : above.length < n) :
    (endEvents position n (above ++ a :: outer))[above.length]?
      = some (endEvent a outer position) := by
  induction above generalizing n with
  | nil =>
    cases n with
    | zero => exact absurd h (Nat.lt_irrefl _)
    | succ n => rfl
  | cons b above ih =>
    cases n with
    | zero => exact absurd h (Nat.not_lt_zero _)
    | succ n =>
      rw [List.cons_append, endEvents, List.length_cons, List.getElem?_cons_succ]
      exact ih (Nat.lt_of_succ_lt_succ h)

/--
While an outer rewrite of the macro is active, the event that ends an inner one has the spelling
and the value of the outer one.
-/
theorem endEvent_of_covered (h : e.Sound) (hActive : e.active = above ++ a :: outer)
    (hOuter : b ∈ outer) (hName : b.name = a.name) (position : Nat) :
    endEvent a outer position =
      { action := .restore, symbol := b.symbol, value := some b.value, fragment := a.fragment
        position } := by
  have hPairs := h.covered
  rw [hActive, List.pairwise_append, List.pairwise_cons] at hPairs
  obtain ⟨hSymbol, hPrevious⟩ := hPairs.2.1.1 b hOuter hName.symm
  have hCovered : outer.any (fun c => c.name == a.name) = true := by
    simpa using ⟨b, hOuter, hName⟩
  simp [endEvent, hCovered, hPrevious, hSymbol]

/-- An event ends a rewrite. -/
def Ends (a : ActiveRewrite) (event : RewriteEvent) : Prop :=
  event.action = .restore ∧ macroName event.symbol = a.name ∧ event.fragment = a.fragment

theorem forall₂_ends_endEvents (position : Nat) :
    List.Forall₂ Ends above (endEvents position above.length (above ++ outer)) := by
  induction above with
  | nil => exact List.Forall₂.nil
  | cons a above ih => exact List.Forall₂.cons ⟨rfl, macroName_endEvent, rfl⟩ ih

end Engine

/-! ## Sessions -/

namespace Session

variable {s : Session} {step : Step} {steps rest : List Step} {base : NameMap String}

/-- A session that starts over some macros, with no scope open. -/
def ofBaseline (base : NameMap String) : Session :=
  { engine := .ofBaseline base }

theorem run_cons (s : Session) (step : Step) (steps : List Step) :
    s.run (step :: steps) = (s.step step).2.run steps :=
  rfl

theorem run_append (s : Session) (steps rest : List Step) :
    s.run (steps ++ rest) = (s.run steps).run rest :=
  List.foldl_append

theorem run_concat (s : Session) (steps : List Step) (step : Step) :
    s.run (steps ++ [step]) = ((s.run steps).step step).2 :=
  run_append s steps [step]

/-- What the engine keeps, it keeps in every step. -/
theorem engine_step_invariant {P : Engine → Prop} (hKeeps : Engine.Keeps P) (h : P s.engine) :
    P (s.step step).2.engine := by
  cases step with
  | «open» fragment => exact h
  | position n => exact hKeeps.setPosition s.engine n h
  | apply rule =>
    rw [Session.step]
    split
    · exact h
    · rename_i scope scopes hScopes
      split
      · rename_i engine hEngine
        exact hKeeps.apply s.engine engine rule scope.fragment h hEngine
      · -- a refused rule changes nothing
        exact h
  | close =>
    rw [Session.step]
    split
    · exact h
    · exact hKeeps.endMany h

theorem engine_run_invariant {P : Engine → Prop} (hKeeps : Engine.Keeps P) (h : P s.engine) :
    P (s.run steps).engine := by
  induction steps generalizing s with
  | nil => exact h
  | cons step steps ih =>
    rw [run_cons]
    exact ih (engine_step_invariant hKeeps h)

theorem sound_run (h : s.engine.Sound) : (s.run steps).engine.Sound :=
  engine_run_invariant Engine.keeps_sound h

theorem sound_run_ofBaseline (base : NameMap String) (steps : List Step) :
    ((ofBaseline base).run steps).engine.Sound :=
  sound_run (Engine.sound_of_active_eq_nil rfl)

theorem faithful_run_ofBaseline (base : NameMap String) (steps : List Step) :
    ((ofBaseline base).run steps).engine.Faithful base :=
  engine_run_invariant (Engine.keeps_faithful base) (Engine.faithful_ofBaseline base)

theorem step_close {scope : Scope} {scopes : List Scope} (h : s.scopes = scope :: scopes) :
    s.step .close = (.done, { engine := s.engine.closeTo scope.mark, scopes }) := by
  rw [Session.step, h]

end Session

end DeclSurface
