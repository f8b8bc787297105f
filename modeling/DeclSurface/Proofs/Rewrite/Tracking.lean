import DeclSurface.Proofs.Rewrite.Replay

/-!
# Macros over a baseline

What the macros of an engine are, compared with those it started from: a macro that is rewritten
has the value of its rewrites, and one that is not has its old value, provided that no rewrite of
it leaves it undefined. `given` says for which macros this is known.

* `Shows`           — a table with some rewrites in effect, over a baseline.
* `Engine.Tracks`   — the engine is sound, its log complete, and nothing given back is lost.
* `Tracks.shows`    — in such an engine the macros show the active rewrites.
* `tracks_applyAll`, `tracks_endMany` — scopes keep this.
-/

namespace DeclSurface

/-- The macros in `table` are those in `base`, but for the rewrites in effect. -/
structure Shows (base : NameMap String) (given : String → Prop) (stack : List Substitution)
    (table : NameMap String) : Prop where
  /-- A macro that is rewritten has the value that each rewrite gives it. -/
  current : ∀ x ∈ stack, table.get? x.name = some x.value
  /-- Any other macro has the value it started with. -/
  untouched : ∀ n, given n → (∀ x ∈ stack, x.name ≠ n) → table.get? n = base.get? n

namespace Engine

variable {base : NameMap String} {given : String → Prop} {e e' : Engine} {fragment : String}
  {rule : RewriteRule} {rules : List RewriteRule}

/-- The engine remembers what its macros were in `base`. -/
structure Tracks (base : NameMap String) (given : String → Prop) (e : Engine) : Prop where
  sound : e.Sound
  faithful : e.Faithful base
  /-- Below all rewrites the macros are as they were. -/
  settled : ∀ n, given n → e.underlying n = base.get? n
  restoring : ∀ a ∈ e.active, given a.name → a.restore ≠ .undefine

theorem tracks_ofBaseline (base : NameMap String) (given : String → Prop) :
    Tracks base given (.ofBaseline base) where
  sound := sound_of_active_eq_nil rfl
  faithful := faithful_ofBaseline base
  settled _ _ := rfl
  restoring _ ha := absurd ha List.not_mem_nil

theorem Tracks.setPosition (h : e.Tracks base given) (n : Nat) :
    (e.setPosition n).Tracks base given where
  sound := h.sound.setPosition n
  faithful := h.faithful
  settled := h.settled
  restoring := h.restoring

theorem Tracks.shows (h : e.Tracks base given) : Shows base given e.stack e.symbols where
  current x hx := by
    obtain ⟨a, ha, rfl⟩ := List.mem_map.mp hx
    exact h.sound.current a ha
  untouched n hn hStack := by
    have hActive : ∀ a ∈ e.active, a.name ≠ n := fun a ha =>
      hStack a.substitution (List.mem_map_of_mem ha)
    rw [← underlying_of_not_active hActive]
    exact h.settled n hn

/-! ## Scopes -/

theorem tracks_apply (h : e.Tracks base given)
    (hGiven : given (macroName rule.symbol) → rule.restore ≠ .undefine)
    (hApply : e.apply rule fragment = .ok e') : e'.Tracks base given := by
  obtain ⟨hAgree, rfl⟩ := (apply_eq_ok_iff_agree h.sound).mp hApply
  refine ⟨sound_begin h.sound hAgree, faithful_begin h.faithful, ?_, ?_⟩
  · intro n hn
    rw [underlying_begin]
    exact h.settled n hn
  · intro a ha hName
    rw [active_begin] at ha
    rcases List.mem_cons.mp ha with rfl | ha
    · exact hGiven hName
    · exact h.restoring a ha hName

theorem tracks_applyAll (h : e.Tracks base given)
    (hGiven : ∀ r ∈ rules, given (macroName r.symbol) → r.restore ≠ .undefine)
    (hApply : e.applyAll fragment rules = .ok e') : e'.Tracks base given :=
  applyAll_invariant (fun r hr _ _ hTracks => tracks_apply hTracks (hGiven r hr)) h hApply

theorem tracks_endLast (h : e.Tracks base given) : e.endLast.Tracks base given := by
  refine ⟨sound_endLast h.sound, faithful_endLast h.faithful, ?_, ?_⟩
  · intro n hn
    have hRestoring : ∀ a ∈ e.active, a.name = n → a.restore ≠ .undefine := by
      rintro a ha rfl
      exact h.restoring a ha hn
    rw [underlying_endLast hRestoring]
    exact h.settled n hn
  · intro a ha
    rw [active_endLast] at ha
    exact h.restoring a (List.mem_of_mem_tail ha)

theorem tracks_endMany {n : Nat} (h : e.Tracks base given) : (endMany n e).Tracks base given :=
  endMany_invariant (fun _ => tracks_endLast) h

end Engine

end DeclSurface
