import DeclSurface.Proofs.Rewrite.Closing

/-!
# Engines that are alike

Two engines with different macros, told the same, do not drift apart: they take and refuse the same
rules, and their logs differ only in what a restoration gives back and in how it spells the macro.
For whether a rule can begin is a matter of the rewrites in effect, and so is what is logged for it.

* `RewriteEvent.Alike` — events that differ in no more than that.
* `Engine.Alike`       — engines with the same rewrites in effect and logs of such events.
* `alike_applyAll`, `alike_endMany` — what is told to both keeps them alike.
-/

namespace DeclSurface

/-- Two events that are the same, or end a rewrite of one macro in the same place. -/
structure RewriteEvent.Alike (a b : RewriteEvent) : Prop where
  action : a.action = b.action
  name : macroName a.symbol = macroName b.symbol
  fragment : a.fragment = b.fragment
  position : a.position = b.position
  applied : a.action = .apply → a = b

theorem RewriteEvent.Alike.refl (a : RewriteEvent) : a.Alike a :=
  ⟨rfl, rfl, rfl, rfl, fun _ => rfl⟩

namespace Engine

/-- Two engines with the same rewrites in effect, whatever values these have found. -/
structure Alike (e e' : Engine) : Prop where
  stack : e.stack = e'.stack
  position : e.position = e'.position
  log : List.Forall₂ RewriteEvent.Alike e.log e'.log

variable {e e' : Engine} {fragment : String} {rule : RewriteRule} {rules : List RewriteRule}
  {n : Nat}

theorem alike_ofBaseline (symbols symbols' : NameMap String) :
    Alike (.ofBaseline symbols) (.ofBaseline symbols') :=
  ⟨rfl, rfl, .nil⟩

theorem Alike.setPosition (h : e.Alike e') : (e.setPosition n).Alike (e'.setPosition n) :=
  ⟨h.stack, rfl, h.log⟩

theorem map_outermost? (e : Engine) (name : String) :
    (e.outermost? name).map (·.substitution) = e.stack.reverse.find? (·.name == name) := by
  rw [stack, ← List.map_reverse, List.find?_map]
  rfl

theorem Alike.begin (h : e.Alike e') : (e.begin rule fragment).Alike (e'.begin rule fragment) where
  stack := by rw [stack_begin, stack_begin, h.stack]
  position := h.position
  log := by
    refine List.rel_append h.log (.cons ?_ .nil)
    rw [h.position]
    exact RewriteEvent.Alike.refl _

/-- A rule begins in both engines, or contradicts the same rewrite in both. -/
theorem Alike.apply (h : e.Alike e') :
    SameOutcome Alike (e.apply rule fragment) (e'.apply rule fragment) := by
  -- what decides is the outermost rewrite of the macro, and that is read off the stack
  have hOutermost : (e.outermost? (macroName rule.symbol)).map (·.substitution)
      = (e'.outermost? (macroName rule.symbol)).map (·.substitution) := by
    rw [map_outermost?, map_outermost?, h.stack]
  unfold Engine.apply
  cases ha : e.outermost? (macroName rule.symbol) with
  | none =>
    rw [ha, Option.map_none, eq_comm, Option.map_eq_none_iff] at hOutermost
    rw [hOutermost]
    exact .ok h.begin
  | some a =>
    rw [ha, Option.map_some, eq_comm, Option.map_eq_some_iff] at hOutermost
    obtain ⟨a', ha', hSame⟩ := hOutermost
    obtain ⟨hFragment, hSymbol, hValue, -⟩ := Substitution.mk.inj hSame
    rw [ha']
    dsimp only
    rw [hFragment, hSymbol, hValue]
    split
    · exact .ok h.begin
    · exact .error _

theorem Alike.applyAll (h : e.Alike e') :
    SameOutcome Alike (e.applyAll fragment rules) (e'.applyAll fragment rules) := by
  induction rules generalizing e e' with
  | nil => exact .ok h
  | cons r rs ih =>
    rw [Engine.applyAll, Engine.applyAll]
    exact h.apply.bind fun _ _ h' => ih h'

theorem alike_endEvent {a a' : ActiveRewrite} {outer outer' : List ActiveRewrite}
    (h : a.substitution = a'.substitution) :
    (endEvent a outer n).Alike (endEvent a' outer' n) := by
  obtain ⟨hFragment, hSymbol, -, -⟩ := Substitution.mk.inj h
  refine ⟨rfl, ?_, hFragment, rfl, fun hApply => ?_⟩
  · rw [macroName_endEvent, macroName_endEvent, ActiveRewrite.name, ActiveRewrite.name, hSymbol]
  · -- what ends a rewrite begins none
    exact absurd hApply (by simp [endEvent])

theorem Alike.endLast (h : e.Alike e') : e.endLast.Alike e'.endLast := by
  have hStack := h.stack
  cases hActive : e.active with
  | nil =>
    rw [Engine.stack, Engine.stack, hActive, List.map_nil, eq_comm, List.map_eq_nil_iff] at hStack
    rw [endLast_of_nil hActive, endLast_of_nil hStack]
    exact h
  | cons a outer =>
    rw [Engine.stack, Engine.stack, hActive, List.map_cons, eq_comm, List.map_eq_cons_iff] at hStack
    obtain ⟨a', outer', hActive', hSame, hOuter⟩ := hStack
    refine ⟨?_, ?_, ?_⟩
    · rw [Engine.stack, Engine.stack, active_endLast, active_endLast, hActive, hActive']
      exact hOuter.symm
    · rw [position_endLast, position_endLast, h.position]
    · rw [log_endLast hActive, log_endLast hActive', h.position]
      exact List.rel_append h.log (.cons (alike_endEvent hSame.symm) .nil)

theorem Alike.endMany (h : e.Alike e') : (endMany n e).Alike (endMany n e') := by
  induction n generalizing e e' with
  | zero => exact h
  | succ n ih => exact ih h.endLast

end Engine

end DeclSurface
