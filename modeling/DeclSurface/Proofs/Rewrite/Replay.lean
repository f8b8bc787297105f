import DeclSurface.Proofs.Rewrite.Sound
import Mathlib.Data.List.DropRight

/-!
# Replaying the log

The log of an engine tells everything that happened to its macros: replaying it on the macros that
the engine started from gives those that it has.

* `macroName_macroName`  — a macro's own name is a symbol for it.
* `faithful_begin`, `faithful_endLast` — every step is logged as it happens.
* `LogsHere`             — what a scope logs when it opens or closes stands at one position.
-/

namespace DeclSurface

/-! ## Names of macros -/

namespace Text

theorem toList_trimBlank (s : String) :
    (trimBlank s).toList = (s.toList.dropWhile isBlank).rdropWhile isBlank := by
  rw [trimBlank, String.toList_ofList]
  rfl

/-- What starts like a text without leading blanks has none either. -/
theorem dropWhile_eq_self_of_prefix {p : Char → Bool} {cs ds : List Char} (h : cs <+: ds)
    (hds : ds.dropWhile p = ds) : cs.dropWhile p = cs := by
  obtain ⟨rest, rfl⟩ := h
  cases cs with
  | nil => rfl
  | cons c cs =>
    rw [List.dropWhile_eq_self_iff] at hds ⊢
    intro _
    exact hds (Nat.zero_lt_succ _)

theorem trimBlank_trimBlank (s : String) : trimBlank (trimBlank s) = trimBlank s := by
  apply String.toList_injective
  have hFirst := dropWhile_eq_self_of_prefix (List.rdropWhile_prefix isBlank _)
    (List.dropWhile_idempotent (p := isBlank) s.toList)
  rw [toList_trimBlank, toList_trimBlank, hFirst, List.rdropWhile_idempotent]

end Text

/-- A macro's own name is a symbol for it. -/
theorem macroName_macroName (symbol : String) :
    macroName (macroName symbol) = macroName symbol := by
  -- a name has no parameter list to cut off
  have hNoParameters :
      (macroName symbol).toList.takeWhile (· != '(') = (macroName symbol).toList := by
    rw [List.takeWhile_eq_self_iff]
    intro c hc
    rw [macroName, Text.toList_trimBlank, String.toList_ofList] at hc
    have hDrop := (List.dropWhile_sublist _).subset ((List.rdropWhile_prefix _ _).subset hc)
    exact List.mem_takeWhile_imp (p := (· != '(')) hDrop
  rw [macroName, hNoParameters, String.ofList_toList, macroName, Text.trimBlank_trimBlank]

/-! ## Logs -/

theorem replay_append (base : NameMap String) (log log' : List RewriteEvent) :
    replay base (log ++ log') = replay (replay base log) log' :=
  List.foldl_append

namespace Engine

variable {e e' : Engine} {fragment : String} {rule : RewriteRule} {base : NameMap String}

/-- Replaying the log on the macros in `base` gives those that are defined now. -/
def Faithful (base : NameMap String) (e : Engine) : Prop :=
  replay base e.log = e.symbols

theorem faithful_ofBaseline (base : NameMap String) : Faithful base (.ofBaseline base) :=
  rfl

theorem faithful_begin (h : e.Faithful base) : (e.begin rule fragment).Faithful base := by
  show replay base (e.log ++ _) = _
  rw [replay_append, h]
  rfl

theorem macroName_name (a : ActiveRewrite) : macroName a.name = a.name := by
  rw [ActiveRewrite.name, macroName_macroName]

/-- However an event is spelled that ends a rewrite, it is about the macro of the rewrite. -/
theorem macroName_endEvent {a : ActiveRewrite} {outer : List ActiveRewrite} {n : Nat} :
    macroName (endEvent a outer n).symbol = a.name := by
  have hBoth (c : Bool) : macroName (if c then a.name else a.symbol) = a.name := by
    cases c with
    | true => exact macroName_name a
    | false => rfl
  exact hBoth _

theorem log_endLast {a : ActiveRewrite} {outer : List ActiveRewrite}
    (hActive : e.active = a :: outer) :
    e.endLast.log = e.log ++ [endEvent a outer e.position] := by
  unfold endLast
  rw [hActive]

theorem symbols_endLast {a : ActiveRewrite} {outer : List ActiveRewrite}
    (hActive : e.active = a :: outer) :
    e.endLast.symbols = (endEvent a outer e.position).effect e.symbols := by
  rw [RewriteEvent.effect, macroName_endEvent]
  cases hValue : (endEvent a outer e.position).value with
  | none => simp only [endLast, hActive, hValue]
  | some value => simp only [endLast, hActive, hValue]

theorem endLast_of_nil (hActive : e.active = []) : e.endLast = e := by
  unfold endLast
  rw [hActive]

theorem faithful_endLast (h : e.Faithful base) : e.endLast.Faithful base := by
  cases hActive : e.active with
  | nil =>
    rw [endLast_of_nil hActive]
    exact h
  | cons a outer =>
    unfold Faithful
    rw [log_endLast hActive, replay_append, h, symbols_endLast hActive]
    rfl

theorem keeps_faithful (base : NameMap String) : Keeps (Faithful base) where
  setPosition _ _ h := h
  apply e e' rule fragment h hApply := by
    obtain ⟨-, rfl⟩ := apply_eq_ok_iff.mp hApply
    exact faithful_begin h
  endLast _ := faithful_endLast

/-! ## Positions -/

/-- From `e` to `e'` only events at the position of `e` are logged. -/
structure LogsHere (e e' : Engine) : Prop where
  position : e'.position = e.position
  log : ∃ events, e'.log = e.log ++ events ∧ ∀ ev ∈ events, ev.position = e.position

theorem LogsHere.refl (e : Engine) : LogsHere e e :=
  ⟨rfl, [], (List.append_nil _).symm, by simp⟩

theorem LogsHere.trans {e₁ e₂ e₃ : Engine} (h : LogsHere e₁ e₂) (h' : LogsHere e₂ e₃) :
    LogsHere e₁ e₃ := by
  obtain ⟨events, hLog, hAt⟩ := h.log
  obtain ⟨events', hLog', hAt'⟩ := h'.log
  refine ⟨h'.position.trans h.position, events ++ events', ?_, ?_⟩
  · rw [hLog', hLog, List.append_assoc]
  · intro ev hev
    rcases List.mem_append.mp hev with hev | hev
    · exact hAt ev hev
    · exact (hAt' ev hev).trans h.position

theorem logsHere_begin : LogsHere e (e.begin rule fragment) :=
  ⟨rfl, _, rfl, by simp⟩

theorem logsHere_endLast : LogsHere e e.endLast := by
  cases hActive : e.active with
  | nil =>
    rw [endLast_of_nil hActive]
    exact LogsHere.refl e
  | cons a outer =>
    refine ⟨?_, _, log_endLast hActive, ?_⟩
    · unfold endLast
      rw [hActive]
    · intro ev hev
      rw [List.mem_singleton.mp hev]
      rfl

theorem logsHere_endMany {n : Nat} : LogsHere e (endMany n e) :=
  endMany_invariant (fun _ h => h.trans logsHere_endLast) (LogsHere.refl e)

theorem logsHere_apply (h : e.apply rule fragment = .ok e') : LogsHere e e' := by
  obtain ⟨-, rfl⟩ := apply_eq_ok_iff.mp h
  exact logsHere_begin

theorem logsHere_applyAll {rules : List RewriteRule} (h : e.applyAll fragment rules = .ok e') :
    LogsHere e e' :=
  applyAll_invariant (fun _ _ _ _ hLogs hApply => hLogs.trans (logsHere_apply hApply))
    (LogsHere.refl e) h

end Engine

end DeclSurface
