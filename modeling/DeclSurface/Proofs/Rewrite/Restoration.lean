import DeclSurface.Proofs.Rewrite.Closing

/-!
# Closing gives back

A scope that is closed takes with it the rewrites that it began and no others, and leaves every
macro as it was when the scope was opened. The exception are macros that a rule of the scope was to
leave undefined; but such a rule only has its way when nothing else rewrites the macro.

The proof follows one value through a session: what a macro is left with once all rewrites of it
have ended. Ending a rewrite never changes that value, and beginning one changes it only in the
exceptional case.

* `Engine.leftover`      — the value followed; `leftover_begin_of_not_undefining`, `leftover_endLast`.
* `Session.Balanced`     — steps that close the scopes they open.
* `Session.Undefines`    — the exceptional case.
* `Session.GivesBack`    — what closing a scope promises.
* `closing_gives_back`   — every scope of every session keeps the promise.
-/

namespace DeclSurface

namespace Engine

variable {e e' : Engine} {a : ActiveRewrite} {above outer : List ActiveRewrite} {name : String}
  {rule : RewriteRule} {fragment : String}

/-! ## What a macro is left with -/

/-- The value of a macro once all its active rewrites have ended. -/
def leftover (e : Engine) (name : String) : Option String :=
  match e.outermost? name with
  | some a => if a.restore = .undefine then none else a.previous
  | none => e.symbols.get? name

theorem leftover_of_not_active (h : ∀ a ∈ e.active, a.name ≠ name) :
    e.leftover name = e.symbols.get? name := by
  unfold leftover
  rw [outermost?_eq_none_iff.mpr h]

/-- A rule leaves the macro undefined if it begins now, because no other rewrite of it is active. -/
def Undefining (e : Engine) (rule : RewriteRule) (name : String) : Prop :=
  macroName rule.symbol = name ∧ rule.restore = .undefine ∧ ∀ a ∈ e.active, a.name ≠ name

theorem outermost?_begin :
    (e.begin rule fragment).outermost? name
      = (e.outermost? name).or
          (if macroName rule.symbol = name then some (e.began rule fragment) else none) := by
  rw [outermost?_of_active_cons active_begin, ← outermost?, name_began]

theorem leftover_begin_of_undefining (h : e.Undefining rule name) :
    (e.begin rule fragment).leftover name = none := by
  obtain ⟨hName, hUndefine, hNone⟩ := h
  unfold leftover
  rw [outermost?_begin, outermost?_eq_none_iff.mpr hNone, Option.none_or, if_pos hName]
  show (if rule.restore = .undefine then none else (e.began rule fragment).previous) = none
  rw [if_pos hUndefine]

/-- Any other rule leaves the macro as it would have been left without it. -/
theorem leftover_begin_of_not_undefining (h : ¬ e.Undefining rule name) :
    (e.begin rule fragment).leftover name = e.leftover name := by
  unfold leftover
  rw [outermost?_begin]
  cases hFound : e.outermost? name with
  | some a =>
    -- the outermost rewrite decides, and it is the same as before
    rw [Option.some_or]
  | none =>
    rw [Option.none_or]
    by_cases hName : macroName rule.symbol = name
    · have hReinstate : ¬ rule.restore = .undefine := fun hUndefine =>
        h ⟨hName, hUndefine, outermost?_eq_none_iff.mp hFound⟩
      rw [if_pos hName]
      show (if rule.restore = .undefine then none else (e.began rule fragment).previous) = _
      rw [if_neg hReinstate, previous_began, hName]
    · rw [if_neg hName]
      show (e.begin rule fragment).symbols.get? name = _
      rw [get?_symbols_begin, if_neg (Ne.symm hName)]

theorem value_endEvent_of_uncovered {n : Nat} (h : ∀ b ∈ outer, b.name ≠ a.name) :
    (endEvent a outer n).value = if a.restore = .undefine then none else a.previous := by
  have hUncovered : outer.any (fun b => b.name == a.name) = false := by
    simpa using h
  simp [endEvent, hUncovered]

theorem leftover_endLast : e.endLast.leftover name = e.leftover name := by
  cases hActive : e.active with
  | nil => rw [endLast_of_nil hActive]
  | cons a outer =>
    have hOuter : e.endLast.outermost? name = outer.reverse.find? (·.name == name) := by
      unfold outermost?
      rw [active_endLast, hActive, List.tail_cons]
    unfold leftover
    rw [hOuter, outermost?_of_active_cons hActive]
    cases hFound : outer.reverse.find? (·.name == name) with
    | some b => rfl
    | none =>
      -- without an outer rewrite of the macro, its old value comes back now or is lost
      have hNone : ∀ b ∈ outer, b.name ≠ name := by
        simpa using hFound
      rw [Option.none_or, get?_symbols_endLast hActive]
      by_cases hName : a.name = name
      · subst hName
        rw [if_pos rfl, if_pos rfl]
        exact value_endEvent_of_uncovered hNone
      · rw [if_neg hName, if_neg (Ne.symm hName)]

theorem leftover_closeTo {mark : Nat} : (e.closeTo mark).leftover name = e.leftover name :=
  endMany_invariant (P := fun e' => e'.leftover name = e.leftover name)
    (fun _ h => leftover_endLast.trans h) rfl

end Engine

namespace Session

variable {s : Session} {step : Step} {steps rest body : List Step}
  {name fragment : String} {above : List ActiveRewrite}

/-! ## Balanced steps -/

/-- Steps that close every scope they open, and no other. -/
inductive Balanced : List Step → Prop
  | nil : Balanced []
  | apply (rule : RewriteRule) {steps : List Step} : Balanced steps → Balanced (.apply rule :: steps)
  | position (n : Nat) {steps : List Step} : Balanced steps → Balanced (.position n :: steps)
  | scope (fragment : String) {inner steps : List Step} :
      Balanced inner → Balanced steps → Balanced (.open fragment :: (inner ++ .close :: steps))

theorem Balanced.append (h : Balanced steps) (hRest : Balanced rest) :
    Balanced (steps ++ rest) := by
  induction h with
  | nil => exact hRest
  | apply rule _ ih => exact .apply rule ih
  | position n _ ih => exact .position n ih
  | scope fragment hInner _ _ ih =>
    rw [List.cons_append, List.append_assoc, List.cons_append]
    exact .scope fragment hInner ih

/-- The session with one more scope open. -/
def opened (s : Session) (fragment : String) : Session :=
  (s.step (.open fragment)).2

/-- The session after a scope has been opened, used and closed. -/
def after (s : Session) (fragment : String) (body : List Step) : Session :=
  (((s.opened fragment).run body).step .close).2

/-- Every open scope was opened by some step, and the steps since then are balanced. -/
theorem exists_opening (base : NameMap String) (steps : List Step) {scope : Scope}
    {scopes : List Scope} (h : ((ofBaseline base).run steps).scopes = scope :: scopes) :
    ∃ pre body, steps = pre ++ .open scope.fragment :: body ∧ Balanced body ∧
      ((ofBaseline base).run pre).scopes = scopes := by
  induction hLength : steps.length using Nat.strongRecOn generalizing steps scope scopes with
  | ind k ih =>
    obtain rfl | ⟨init, step, rfl⟩ := List.eq_nil_or_concat steps
    · simp [run, ofBaseline] at h
    rw [List.concat_eq_append, List.length_append, List.length_singleton] at hLength
    rw [List.concat_eq_append] at h ⊢
    rw [run_concat] at h
    set t := (ofBaseline base).run init
    -- a step that leaves the scopes as they are goes to the end of the body
    have hSame (hScopes : (t.step step).2.scopes = t.scopes) (hStep : Balanced [step]) :
        ∃ pre body, init ++ [step] = pre ++ .open scope.fragment :: body ∧ Balanced body ∧
          ((ofBaseline base).run pre).scopes = scopes := by
      rw [hScopes] at h
      obtain ⟨pre, body, rfl, hBody, hPre⟩ := ih init.length (by omega) init h rfl
      exact ⟨pre, body ++ [step], by simp, hBody.append hStep, hPre⟩
    cases step with
    | «open» fragment =>
      obtain ⟨rfl, rfl⟩ := List.cons.inj h
      exact ⟨init, [], rfl, .nil, rfl⟩
    | apply rule =>
      refine hSame ?_ (.apply rule .nil)
      rw [Session.step]
      split
      · rfl
      · split
        · rfl
        · rfl
    | position n => exact hSame rfl (.position n .nil)
    | close =>
      cases hScopes : t.scopes with
      | nil =>
        rw [Session.step, hScopes] at h
        simp [hScopes] at h
      | cons inner outer =>
        -- the scope that is closed was opened inside the one that is left
        rw [step_close hScopes] at h
        obtain ⟨pre, body, hInit, hBody, hPre⟩ := ih init.length (by omega) init hScopes rfl
        have hShorter : pre.length < k := by
          rw [hInit, List.length_append] at hLength
          omega
        obtain ⟨pre', body', rfl, hBody', hPre'⟩ :=
          ih pre.length hShorter pre (hPre.trans h) rfl
        refine ⟨pre', body' ++ .open inner.fragment :: (body ++ [.close]), ?_,
          hBody'.append (.scope inner.fragment hBody .nil), hPre'⟩
        rw [hInit]
        simp

/-! ## The rewrites of a scope -/

/-- A rule begins in the innermost scope, or nothing changes. -/
theorem step_apply_cases (s : Session) (rule : RewriteRule) :
    (∃ scope scopes, s.scopes = scope :: scopes ∧
      s.step (.apply rule) = (.done, { s with engine := s.engine.begin rule scope.fragment })) ∨
    ∃ o, o ≠ .done ∧ s.step (.apply rule) = (o, s) := by
  rw [Session.step]
  cases hScopes : s.scopes with
  | nil => exact Or.inr ⟨.noScope, by simp, rfl⟩
  | cons scope scopes =>
    dsimp only
    cases hApply : s.engine.apply rule scope.fragment with
    | ok engine =>
      obtain ⟨-, rfl⟩ := Engine.apply_eq_ok_iff.mp hApply
      exact Or.inl ⟨scope, scopes, rfl, rfl⟩
    | error e => exact Or.inr ⟨.refused e, by simp, rfl⟩

/-- The rewrite that a step begins, if it begins one. -/
def begins? (s : Session) : Step → Option ActiveRewrite
  | .apply rule =>
    match s.scopes with
    | [] => none
    | scope :: _ =>
      if (s.step (.apply rule)).1 = .done then some (s.engine.began rule scope.fragment) else none
  | .open _ => none
  | .position _ => none
  | .close => none

/-- The rewrites that steps begin while `depth` scopes are open, in the order of their steps. -/
def begunAt (depth : Nat) (s : Session) : List Step → List ActiveRewrite
  | [] => []
  | step :: steps =>
    (if s.scopes.length = depth then (s.begins? step).toList else [])
      ++ begunAt depth (s.step step).2 steps

theorem begunAt_cons_of_none (depth : Nat) (h : s.begins? step = none) :
    s.begunAt depth (step :: steps) = (s.step step).2.begunAt depth steps := by
  rw [begunAt, h, Option.toList_none, ite_self, List.nil_append]

theorem begunAt_append (depth : Nat) (s : Session) (steps rest : List Step) :
    s.begunAt depth (steps ++ rest)
      = s.begunAt depth steps ++ (s.run steps).begunAt depth rest := by
  induction steps generalizing s with
  | nil => rfl
  | cons step steps ih => rw [List.cons_append, begunAt, begunAt, ih, List.append_assoc, run_cons]

theorem scopes_step_apply (s : Session) (rule : RewriteRule) :
    (s.step (.apply rule)).2.scopes = s.scopes := by
  obtain ⟨_, _, _, hStep⟩ | ⟨_, _, hStep⟩ := step_apply_cases s rule
  · rw [hStep]
  · rw [hStep]

/-- A rule that begins is pushed onto the stack, and no other step of a scope changes it. -/
theorem active_step_apply (s : Session) (rule : RewriteRule) :
    (s.step (.apply rule)).2.engine.active
      = (s.begins? (.apply rule)).toList ++ s.engine.active := by
  obtain ⟨scope, scopes, hScopes, hStep⟩ | ⟨o, hOutcome, hStep⟩ := step_apply_cases s rule
  · have hBegins : s.begins? (.apply rule) = some (s.engine.began rule scope.fragment) := by
      rw [begins?, hScopes]
      dsimp only
      rw [hStep, if_pos rfl]
    rw [hStep, hBegins]
    rfl
  · have hNone : s.begins? (.apply rule) = none := by
      rw [begins?]
      split
      · rfl
      · rw [hStep, if_neg hOutcome]
    rw [hStep, hNone]
    rfl

/-- Closing a scope that was used in a balanced way gives back the stack. -/
theorem after_eq {scope : Scope} (hScopes : ((s.opened fragment).run body).scopes = scope :: s.scopes)
    (hMark : scope.mark = s.engine.active.length)
    (hActive : ((s.opened fragment).run body).engine.active = above ++ s.engine.active) :
    (s.after fragment body).scopes = s.scopes ∧
      (s.after fragment body).engine.active = s.engine.active := by
  unfold after
  rw [step_close hScopes]
  exact ⟨rfl, Engine.active_closeTo hActive hMark⟩

/--
Balanced steps keep the scopes. On the stack they leave what they begin outside inner scopes, and
they begin nothing in scopes further out.
-/
theorem run_balanced (h : Balanced steps) (s : Session) :
    (s.run steps).scopes = s.scopes ∧
      (s.run steps).engine.active
        = (s.begunAt s.scopes.length steps).reverse ++ s.engine.active ∧
      ∀ depth < s.scopes.length, s.begunAt depth steps = [] := by
  induction h generalizing s with
  | nil => exact ⟨rfl, rfl, fun _ _ => rfl⟩
  | apply rule _ ih =>
    obtain ⟨ihScopes, ihActive, ihOuter⟩ := ih (s.step (.apply rule)).2
    rw [scopes_step_apply] at ihScopes ihActive ihOuter
    refine ⟨ihScopes, ?_, ?_⟩
    · -- a step begins one rewrite at most
      have hOne : (s.begins? (.apply rule)).toList.reverse = (s.begins? (.apply rule)).toList := by
        cases s.begins? (.apply rule) with
        | none => rfl
        | some a => rfl
      rw [run_cons, ihActive, active_step_apply, begunAt, if_pos rfl, List.reverse_append, hOne,
        List.append_assoc]
    · intro depth hDepth
      rw [begunAt, if_neg (by omega), ihOuter depth hDepth, List.append_nil]
  | position n _ ih =>
    obtain ⟨ihScopes, ihActive, ihOuter⟩ := ih (s.step (.position n)).2
    refine ⟨ihScopes, ?_, ?_⟩
    · rw [run_cons, ihActive, begunAt_cons_of_none _ rfl]
      rfl
    · intro depth hDepth
      rw [begunAt_cons_of_none _ rfl]
      exact ihOuter depth hDepth
  | @scope fragment inner steps _ _ ihInner ihSteps =>
    obtain ⟨hScopes, hActive, hOuter⟩ := ihInner (s.opened fragment)
    obtain ⟨hAfterScopes, hAfterActive⟩ := after_eq hScopes rfl hActive
    have hRun : s.run (.open fragment :: (inner ++ .close :: steps))
        = (s.after fragment inner).run steps := by
      rw [run_cons, run_append, run_cons]
      rfl
    -- nothing in the inner scope counts for this one or for one further out
    have hBegun (depth : Nat) (hDepth : depth ≤ s.scopes.length) :
        s.begunAt depth (.open fragment :: (inner ++ .close :: steps))
          = (s.after fragment inner).begunAt depth steps := by
      have hInner : (s.opened fragment).begunAt depth inner = [] :=
        hOuter depth (Nat.lt_succ_of_le hDepth)
      rw [begunAt_cons_of_none _ rfl, ← opened, begunAt_append, hInner, List.nil_append,
        begunAt_cons_of_none _ rfl, ← after]
    obtain ⟨ihScopes, ihActive, ihOuter⟩ := ihSteps (s.after fragment inner)
    rw [hAfterScopes] at ihScopes ihActive ihOuter
    refine ⟨?_, ?_, ?_⟩
    · rw [hRun, ihScopes]
    · rw [hRun, ihActive, hAfterActive, hBegun _ (Nat.le_refl _)]
    · intro depth hDepth
      rw [hBegun depth (Nat.le_of_lt hDepth)]
      exact ihOuter depth hDepth

/-! ## Macros left undefined -/

/-- A step begins a rule that leaves the macro undefined. -/
def UndefinesNow (s : Session) (step : Step) (name : String) : Prop :=
  ∃ rule, step = .apply rule ∧ (s.step step).1 = .done ∧ s.engine.Undefining rule name

/-- One of some steps undefines the macro like that. -/
def Undefines (s : Session) (steps : List Step) (name : String) : Prop :=
  ∃ before step later, steps = before ++ step :: later ∧ (s.run before).UndefinesNow step name

theorem not_undefinesNow (h : ∀ rule, step ≠ .apply rule) : ¬ s.UndefinesNow step name := by
  rintro ⟨rule, hStep, -⟩
  exact h rule hStep

theorem not_undefines_nil : ¬ s.Undefines [] name := by
  rintro ⟨before, step, later, hSplit, -⟩
  simp at hSplit

theorem undefines_cons_iff :
    s.Undefines (step :: steps) name ↔
      s.UndefinesNow step name ∨ (s.step step).2.Undefines steps name := by
  constructor
  · rintro ⟨before, step', later, hSplit, hNow⟩
    cases before with
    | nil =>
      obtain ⟨rfl, rfl⟩ := List.cons.inj hSplit
      exact Or.inl hNow
    | cons first before =>
      obtain ⟨rfl, rfl⟩ := List.cons.inj hSplit
      exact Or.inr ⟨before, step', later, rfl, hNow⟩
  · rintro (hNow | ⟨before, step', later, rfl, hNow⟩)
    · exact ⟨[], step, steps, rfl, hNow⟩
    · exact ⟨step :: before, step', later, rfl, hNow⟩

theorem undefines_append_iff :
    s.Undefines (steps ++ rest) name ↔
      s.Undefines steps name ∨ (s.run steps).Undefines rest name := by
  induction steps generalizing s with
  | nil =>
    rw [List.nil_append, or_iff_right not_undefines_nil]
    rfl
  | cons step steps ih =>
    rw [List.cons_append, undefines_cons_iff, undefines_cons_iff, ih, or_assoc, run_cons]

/-- Balanced steps never undefine a macro that is rewritten all the while. -/
theorem not_undefines_of_active (h : Balanced steps) {a : ActiveRewrite}
    (ha : a ∈ s.engine.active) : ¬ s.Undefines steps a.name := by
  induction h generalizing s with
  | nil => exact not_undefines_nil
  | apply rule _ ih =>
    have hStill : a ∈ (s.step (.apply rule)).2.engine.active := by
      rw [active_step_apply]
      exact List.mem_append_right _ ha
    rw [undefines_cons_iff]
    rintro (⟨_, -, -, -, -, hNone⟩ | hLater)
    · exact hNone a ha rfl
    · exact ih hStill hLater
  | position n _ ih =>
    rw [undefines_cons_iff]
    rintro (hNow | hLater)
    · exact not_undefinesNow (by simp) hNow
    · exact ih (s := (s.step (.position n)).2) ha hLater
  | @scope fragment inner steps hInner _ ihInner ihSteps =>
    obtain ⟨hScopes, hActive, -⟩ := run_balanced hInner (s.opened fragment)
    have hStill : a ∈ (s.after fragment inner).engine.active := by
      rw [(after_eq hScopes rfl hActive).2]
      exact ha
    rw [undefines_cons_iff, undefines_append_iff, undefines_cons_iff]
    rintro (hNow | hLater | hNow | hLater)
    · exact not_undefinesNow (by simp) hNow
    · exact ihInner (s := s.opened fragment) ha hLater
    · exact not_undefinesNow (by simp) hNow
    · exact ihSteps hStill hLater

/-- A step changes what a macro is left with only if it undefines the macro. -/
theorem leftover_step (s : Session) (step : Step) (name : String) :
    (s.UndefinesNow step name → (s.step step).2.engine.leftover name = none) ∧
      (¬ s.UndefinesNow step name →
        (s.step step).2.engine.leftover name = s.engine.leftover name) := by
  cases step with
  | «open» fragment => exact ⟨fun h => (not_undefinesNow (by simp) h).elim, fun _ => rfl⟩
  | position n => exact ⟨fun h => (not_undefinesNow (by simp) h).elim, fun _ => rfl⟩
  | close =>
    refine ⟨fun h => (not_undefinesNow (by simp) h).elim, fun _ => ?_⟩
    rw [Session.step]
    split
    · rfl
    · exact Engine.leftover_closeTo
  | apply rule =>
    obtain ⟨scope, scopes, -, hStep⟩ | ⟨o, hOutcome, hStep⟩ := step_apply_cases s rule
    · have hNow : s.UndefinesNow (.apply rule) name ↔ s.engine.Undefining rule name := by
        constructor
        · rintro ⟨_, hRule, -, hCase⟩
          obtain rfl := Step.apply.inj hRule
          exact hCase
        · intro hCase
          exact ⟨rule, rfl, by rw [hStep], hCase⟩
      rw [hNow, hStep]
      exact ⟨Engine.leftover_begin_of_undefining, Engine.leftover_begin_of_not_undefining⟩
    · -- a rule that does not begin undefines nothing
      rw [hStep]
      refine ⟨?_, fun _ => rfl⟩
      rintro ⟨_, -, hDone, -⟩
      rw [hStep] at hDone
      exact absurd hDone hOutcome

theorem leftover_run (s : Session) (steps : List Step) (name : String) :
    (s.Undefines steps name → (s.run steps).engine.leftover name = none) ∧
      (¬ s.Undefines steps name →
        (s.run steps).engine.leftover name = s.engine.leftover name) := by
  induction steps generalizing s with
  | nil => exact ⟨fun h => (not_undefines_nil h).elim, fun _ => rfl⟩
  | cons step steps ih =>
    obtain ⟨ihYes, ihNo⟩ := ih (s.step step).2
    obtain ⟨hYes, hNo⟩ := leftover_step s step name
    rw [undefines_cons_iff, run_cons]
    refine ⟨?_, ?_⟩
    · intro h
      by_cases hLater : (s.step step).2.Undefines steps name
      · exact ihYes hLater
      · -- once undefined, the macro is left undefined
        rw [ihNo hLater]
        exact hYes (h.resolve_right hLater)
    · rintro h
      rw [not_or] at h
      rw [ihNo h.2, hNo h.1]

/-! ## Closing a scope -/

/--
What closing a scope promises, when the session `before` was the one in which it was opened and the
steps `body` were taken in it.
-/
structure GivesBack (before : Session) (fragment : String) (body : List Step) : Prop where
  /-- Just before, the stack holds what it held when the scope was opened, and what it began. -/
  began : ((before.opened fragment).run body).engine.active
    = ((before.opened fragment).begunAt (before.scopes.length + 1) body).reverse
        ++ before.engine.active
  /-- Closing ends just what the scope began. -/
  ended : (before.after fragment body).engine.active = before.engine.active
  scopes : (before.after fragment body).scopes = before.scopes
  /-- Each rewrite that ends is logged once, the one that began last before all others. -/
  logged : ∃ events,
    (before.after fragment body).engine.log
      = ((before.opened fragment).run body).engine.log ++ events ∧
    List.Forall₂ Engine.Ends
      ((before.opened fragment).begunAt (before.scopes.length + 1) body).reverse events
  /-- A macro that was undefined in the scope stays so. -/
  undefined : ∀ name, (before.opened fragment).Undefines body name →
    (before.after fragment body).engine.symbols.get? name = none
  /-- Any other macro is as it was when the scope was opened. -/
  restored : ∀ name, ¬ (before.opened fragment).Undefines body name →
    (before.after fragment body).engine.symbols.get? name = before.engine.symbols.get? name

theorem givesBack (hSound : s.engine.Sound) (hBody : Balanced body) :
    s.GivesBack fragment body := by
  obtain ⟨hScopes, hActive, -⟩ := run_balanced hBody (s.opened fragment)
  obtain ⟨hAfterScopes, hAfterActive⟩ := after_eq hScopes rfl hActive
  have hAfter : s.after fragment body
      = { engine := ((s.opened fragment).run body).engine.closeTo s.engine.active.length
          scopes := s.scopes } := by
    unfold after
    rw [step_close hScopes]
  have hLeftover (name : String) : (s.after fragment body).engine.leftover name
      = ((s.opened fragment).run body).engine.leftover name := by
    rw [hAfter]
    exact Engine.leftover_closeTo
  have hAfterSound : (s.after fragment body).engine.Sound := by
    rw [hAfter]
    exact Engine.sound_endMany (sound_run hSound)
  -- what is not rewritten around the scope shows what it is left with, before and after
  have hBefore {name : String} (hNone : ∀ a ∈ s.engine.active, a.name ≠ name) :
      (s.opened fragment).engine.leftover name = s.engine.symbols.get? name :=
    Engine.leftover_of_not_active hNone
  have hShown {name : String} (hNone : ∀ a ∈ s.engine.active, a.name ≠ name) :
      (s.after fragment body).engine.symbols.get? name
        = ((s.opened fragment).run body).engine.leftover name := by
    rw [← hAfterActive] at hNone
    rw [← Engine.leftover_of_not_active hNone, hLeftover]
  refine
    { began := hActive, ended := hAfterActive, scopes := hAfterScopes
      logged := ?logged, undefined := ?undefined, restored := ?restored }
  case logged =>
    have hCount : ((s.opened fragment).run body).engine.active.length - s.engine.active.length
        = ((s.opened fragment).begunAt (s.scopes.length + 1) body).reverse.length := by
      rw [hActive, List.length_append]
      exact Nat.add_sub_cancel _ _
    have hLog : (s.after fragment body).engine.log
        = ((s.opened fragment).run body).engine.log
          ++ Engine.endEvents ((s.opened fragment).run body).engine.position
            ((s.opened fragment).begunAt (s.scopes.length + 1) body).reverse.length
            (((s.opened fragment).begunAt (s.scopes.length + 1) body).reverse
              ++ s.engine.active) := by
      rw [hAfter]
      show (Engine.closeTo _ _).log = _
      rw [Engine.log_closeTo, hCount, hActive]
      rfl
    exact ⟨_, hLog, Engine.forall₂_ends_endEvents _⟩
  case undefined =>
    intro name hUndefines
    have hNone : ∀ a ∈ s.engine.active, a.name ≠ name := by
      rintro a ha rfl
      exact not_undefines_of_active (s := s.opened fragment) hBody ha hUndefines
    rw [hShown hNone]
    exact (leftover_run _ _ name).1 hUndefines
  case restored =>
    intro name hNot
    by_cases hSome : ∃ a ∈ s.engine.active, a.name = name
    · -- a rewrite around the scope gives the macro its value, before and after
      obtain ⟨a, ha, rfl⟩ := hSome
      rw [hSound.current a ha]
      exact hAfterSound.current a (hAfterActive ▸ ha)
    · have hNone : ∀ a ∈ s.engine.active, a.name ≠ name := fun a ha hName =>
        hSome ⟨a, ha, hName⟩
      rw [hShown hNone, (leftover_run _ _ name).2 hNot, hBefore hNone]

/--
Closing the innermost scope of a session gives back what there was before the step that opened it;
the steps since then are balanced, so this step is the one that belongs to it. A rule that is
refused changes nothing.
-/
theorem closing_gives_back (base : NameMap String) (steps : List Step) :
    (∀ scope scopes, ((ofBaseline base).run steps).scopes = scope :: scopes →
      ∃ pre body, steps = pre ++ .open scope.fragment :: body ∧ Balanced body ∧
        (((ofBaseline base).run steps).step .close).2
          = ((ofBaseline base).run pre).after scope.fragment body ∧
        ((ofBaseline base).run pre).GivesBack scope.fragment body) ∧
    (∀ rule e, (((ofBaseline base).run steps).step (.apply rule)).1 = .refused e →
      (((ofBaseline base).run steps).step (.apply rule)).2 = (ofBaseline base).run steps) := by
  refine ⟨?_, ?_⟩
  · intro scope scopes hScopes
    obtain ⟨pre, body, rfl, hBody, -⟩ := exists_opening base steps hScopes
    refine ⟨pre, body, rfl, hBody, ?_, givesBack (sound_run_ofBaseline base pre) hBody⟩
    rw [run_append, run_cons]
    rfl
  · intro rule e hRefused
    obtain ⟨_, _, -, hStep⟩ | ⟨_, _, hStep⟩ := step_apply_cases ((ofBaseline base).run steps) rule
    · rw [hStep] at hRefused
      simp at hRefused
    · rw [hStep]

/-- A rule that would leave its macro undefined does not while another rewrites the macro. -/
example :
    let s := (ofBaseline (NameMap.ofList [("BOARD", "native")])).run
      [.open "board", .apply ⟨"BOARD", "stub", [], .reinstate, .always⟩,
       .apply ⟨"BOARD", "stub", [], .undefine, .always⟩, .close]
    s.engine.symbols.get? "BOARD" = some "native" ∧ s.engine.log.length = 4 := by
  decide +kernel

end Session

end DeclSurface
