import DeclSurface.Proofs.Rewrite.Closing

/-!
# The log as an account

The log of a session is rendered as directives, so it has to tell the whole story: read from the
start it must lead to the macros that are defined now. Whether it does depends on facts about the
active rewrites that only hold together: rewrites of one macro agree, the macro has their value,
and so the value that an inner one found and gives back is that of the outer one.

* `Accountable`      — what the log and the active rewrites of a session promise.
* `run_accountable`  — every session keeps the promise, whatever its steps were.
-/

namespace DeclSurface

namespace Session

/-- What a session that started over the macros in `base` can answer for. -/
structure Accountable (base : NameMap String) (s : Session) : Prop where
  /-- Replaying the log leads to the macros that are defined now. -/
  replays : replay base s.engine.log = s.engine.symbols
  /-- Active rewrites of one macro have one spelling and one value. -/
  agree : ∀ a ∈ s.engine.active, ∀ b ∈ s.engine.active, a.name = b.name →
    a.symbol = b.symbol ∧ a.value = b.value
  /-- A macro has the value of its active rewrites. -/
  current : ∀ a ∈ s.engine.active, s.engine.symbols.get? a.name = some a.value
  /--
  When the innermost scope is closed, a rewrite `a` of it that lies over another rewrite `b` of the
  macro is ended by an event with the spelling and the value of `b`.
  -/
  keepsOuter : ∀ scope scopes above a outer, s.scopes = scope :: scopes →
    s.engine.active = above ++ a :: outer → scope.mark ≤ outer.length →
    ∀ b ∈ outer, b.name = a.name →
      (s.step .close).2.engine.log[s.engine.log.length + above.length]?
        = some { action := .restore, symbol := b.symbol, value := some b.value
                 fragment := a.fragment, position := s.engine.position }

/-- The log, the macros and the active rewrites of every session fit together. -/
theorem run_accountable (base : NameMap String) (steps : List Step) :
    Accountable base ((ofBaseline base).run steps) := by
  set s := (ofBaseline base).run steps
  have hSound : s.engine.Sound := sound_run_ofBaseline base steps
  refine
    { replays := faithful_run_ofBaseline base steps, agree := ?agree
      current := hSound.current, keepsOuter := ?keepsOuter }
  case agree =>
    intro a ha b hb hName
    exact hSound.agree ha hb hName
  case keepsOuter =>
    intro scope scopes above a outer hScopes hActive hMark b hb hName
    have hLog : (s.step .close).2.engine.log
        = s.engine.log ++ Engine.endEvents s.engine.position
            (s.engine.active.length - scope.mark) s.engine.active := by
      rw [step_close hScopes]
      exact Engine.log_closeTo
    -- the scope reaches at least down to `a`, so its event is among those that are logged
    have hReached : above.length < s.engine.active.length - scope.mark := by
      rw [hActive, List.length_append, List.length_cons]
      omega
    rw [hLog, List.getElem?_append_right (Nat.le_add_right _ _), Nat.add_sub_cancel_left]
    rw [hActive] at hReached ⊢
    rw [Engine.getElem?_endEvents hReached, Engine.endEvent_of_covered hSound hActive hb hName]

/-- A macro with a parameter list keeps it while an outer rewrite is active. -/
example :
    (((ofBaseline ∅).run
      [.open "outer", .apply ⟨"INIT(x)", "x", [], .reinstate, .always⟩,
       .open "inner", .apply ⟨"INIT(x)", "x", [], .undefine, .always⟩,
       .close, .close]).engine.log.map fun ev => (ev.action, ev.symbol, ev.value)) =
    [(.apply, "INIT(x)", some "x"), (.apply, "INIT(x)", some "x"),
     (.restore, "INIT(x)", some "x"), (.restore, "INIT(x)", none)] := by
  decide +kernel

end Session

end DeclSurface
