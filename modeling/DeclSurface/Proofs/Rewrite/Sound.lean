import DeclSurface.Proofs.Rewrite.Stack
import Mathlib.Data.List.Pairwise

/-!
# Sound engines

What holds between the macros of an engine and its active rewrites, however it was reached: the
active rewrites of a macro agree, the macro has their value, and each inner one found that value.

* `Engine.Sound`          — the invariant.
* `sound_begin`, `sound_endLast` — every step keeps it.
* `apply_eq_ok_iff_agree` — in a sound engine a rule can begin unless an active rewrite differs.
* `exists_applyAll_iff`   — rules can begin when all rewrites in effect then agree.
* `Engine.underlying`     — the value of a macro below all rewrites, which only `undefine` changes.
-/

namespace DeclSurface

/-- Rewrites of one macro spell it alike and give it the same value. -/
def Agreeing (stack : List Substitution) : Prop :=
  ∀ x ∈ stack, ∀ y ∈ stack, x.name = y.name → x.symbol = y.symbol ∧ x.value = y.value

namespace Engine

variable {e e' : Engine} {fragment name : String} {rule : RewriteRule} {a : ActiveRewrite}
  {outer : List ActiveRewrite}

/-- The macros fit the active rewrites. -/
structure Sound (e : Engine) : Prop where
  /-- A macro has the value that each active rewrite gives it. -/
  current : ∀ a ∈ e.active, e.symbols.get? a.name = some a.value
  /-- An inner rewrite spells its macro as the outer ones do, and found their value. -/
  covered : e.active.Pairwise fun a b =>
    a.name = b.name → a.symbol = b.symbol ∧ a.previous = some b.value

/-- The active rewrites of one macro agree. -/
theorem Sound.agree (h : e.Sound) {a b : ActiveRewrite} (ha : a ∈ e.active) (hb : b ∈ e.active)
    (hName : a.name = b.name) : a.symbol = b.symbol ∧ a.value = b.value := by
  have hSymm : Std.Symm fun a b : ActiveRewrite => a.name = b.name → a.symbol = b.symbol :=
    ⟨fun a b hab hEq => (hab hEq.symm).symm⟩
  have hAll : ∀ a ∈ e.active, ∀ b ∈ e.active, a.name = b.name → a.symbol = b.symbol := by
    refine List.Pairwise.forall_of_forall ?_ (h.covered.imp fun hab hEq => (hab hEq).1)
    intros
    rfl
  have hValue := h.current a ha
  rw [hName, h.current b hb] at hValue
  exact ⟨hAll a ha b hb hName, (Option.some.inj hValue).symm⟩

theorem Sound.agreeing (h : e.Sound) : Agreeing e.stack := by
  intro x hx y hy hName
  obtain ⟨a, ha, rfl⟩ := List.mem_map.mp hx
  obtain ⟨b, hb, rfl⟩ := List.mem_map.mp hy
  exact h.agree ha hb hName

theorem Sound.setPosition (h : e.Sound) (n : Nat) : (e.setPosition n).Sound :=
  ⟨h.current, h.covered⟩

theorem sound_of_active_eq_nil (h : e.active = []) : e.Sound := by
  refine ⟨?_, ?_⟩
  · simp [h]
  · simp [h]

/-! ## Beginning -/

theorem mem_active_of_outermost? (h : e.outermost? name = some a) :
    a ∈ e.active ∧ a.name = name := by
  refine ⟨List.mem_reverse.mp (List.mem_of_find?_eq_some h), ?_⟩
  simpa using List.find?_some h

theorem outermost?_eq_none_iff : e.outermost? name = none ↔ ∀ a ∈ e.active, a.name ≠ name := by
  unfold outermost?
  rw [List.find?_eq_none]
  simp

/-- A rule can begin unless an active rewrite of its macro differs from it. -/
theorem apply_eq_ok_iff_agree (h : e.Sound) :
    e.apply rule fragment = .ok e' ↔
      (∀ a ∈ e.active, a.name = macroName rule.symbol →
        a.symbol = rule.symbol ∧ a.value = rule.value) ∧ e.begin rule fragment = e' := by
  rw [apply_eq_ok_iff]
  refine and_congr_left fun _ => ?_
  constructor
  · intro hOutermost a ha hName
    cases hFound : e.outermost? (macroName rule.symbol) with
    | none => exact absurd hName (outermost?_eq_none_iff.mp hFound a ha)
    -- active rewrites agree, so the outermost stands for all of them
    | some b =>
      obtain ⟨hb, hbName⟩ := mem_active_of_outermost? hFound
      obtain ⟨hSymbol, hValue⟩ := h.agree ha hb (hName.trans hbName.symm)
      obtain ⟨hbValue, hbSymbol⟩ := hOutermost b hFound
      exact ⟨hSymbol.trans hbSymbol, hValue.trans hbValue⟩
  · intro hAll a hFound
    obtain ⟨ha, hName⟩ := mem_active_of_outermost? hFound
    exact (hAll a ha hName).symm

theorem get?_symbols_begin (n : String) :
    (e.begin rule fragment).symbols.get? n
      = if n = macroName rule.symbol then some rule.value else e.symbols.get? n :=
  NameMap.get?_insert _ _ _ _

theorem sound_begin (h : e.Sound)
    (hAgree : ∀ a ∈ e.active, a.name = macroName rule.symbol →
      a.symbol = rule.symbol ∧ a.value = rule.value) :
    (e.begin rule fragment).Sound := by
  refine ⟨?_, ?_⟩
  · intro a ha
    rw [get?_symbols_begin]
    rcases List.mem_cons.mp ha with rfl | ha
    · exact if_pos rfl
    · split
      · rename_i hName
        rw [(hAgree a ha hName).2]
      · exact h.current a ha
  · refine List.pairwise_cons.mpr ⟨?_, h.covered⟩
    intro b hb hName
    have hCurrent := h.current b hb
    rw [← hName] at hCurrent
    exact ⟨(hAgree b hb hName.symm).1.symm, hCurrent⟩

theorem sound_apply (h : e.Sound) (hApply : e.apply rule fragment = .ok e') : e'.Sound := by
  obtain ⟨hAgree, rfl⟩ := (apply_eq_ok_iff_agree h).mp hApply
  exact sound_begin h hAgree

theorem sound_applyAll {rules : List RewriteRule} (h : e.Sound)
    (hApply : e.applyAll fragment rules = .ok e') : e'.Sound :=
  applyAll_invariant (fun _ _ _ _ hSound => sound_apply hSound) h hApply

/-- Rules can begin for a fragment exactly when all rewrites in effect then agree. -/
theorem exists_applyAll_iff {rules : List RewriteRule} (h : e.Sound) :
    (∃ e', e.applyAll fragment rules = .ok e') ↔
      Agreeing ((rules.map (·.substitution fragment)).reverse ++ e.stack) := by
  constructor
  · rintro ⟨e', hApply⟩
    rw [← stack_of_applyAll hApply]
    exact (sound_applyAll h hApply).agreeing
  · intro hAgreeing
    induction rules generalizing e with
    | nil => exact ⟨e, rfl⟩
    | cons r rs ih =>
      rw [List.map_cons, List.reverse_cons, List.append_assoc, List.singleton_append] at hAgreeing
      have hFirst : e.apply r fragment = .ok (e.begin r fragment) := by
        refine (apply_eq_ok_iff_agree h).mpr ⟨fun a ha hName => ?_, rfl⟩
        exact hAgreeing a.substitution
          (List.mem_append_right _ (List.mem_cons_of_mem _ (List.mem_map_of_mem ha)))
          (r.substitution fragment) (List.mem_append_right _ List.mem_cons_self) hName
      obtain ⟨e', hRest⟩ := ih (sound_apply h hFirst) hAgreeing
      exact ⟨e', bind_eq_ok_iff.mpr ⟨_, hFirst, hRest⟩⟩

/-! ## Ending -/

theorem value_endEvent_of_covered {n : Nat} (h : ∃ b ∈ outer, b.name = a.name) :
    (endEvent a outer n).value = a.previous := by
  have hAny : outer.any (fun b => b.name == a.name) = true := by
    simpa using h
  simp [endEvent, hAny]

theorem value_endEvent_of_reinstate {n : Nat} (h : a.restore ≠ .undefine) :
    (endEvent a outer n).value = a.previous := by
  simp [endEvent, h]

theorem get?_symbols_endLast (hActive : e.active = a :: outer) (n : String) :
    e.endLast.symbols.get? n
      = if n = a.name then (endEvent a outer e.position).value else e.symbols.get? n := by
  unfold endLast
  rw [hActive]
  dsimp only
  cases (endEvent a outer e.position).value with
  | none => exact NameMap.get?_erase _ _ _
  | some value => exact NameMap.get?_insert _ _ _ _

theorem sound_endLast (h : e.Sound) : e.endLast.Sound := by
  cases hActive : e.active with
  | nil =>
    refine sound_of_active_eq_nil ?_
    rw [active_endLast, hActive, List.tail_nil]
  | cons a outer =>
    have hOuter : e.endLast.active = outer := by
      rw [active_endLast, hActive, List.tail_cons]
    have hCovered := h.covered
    rw [hActive, List.pairwise_cons] at hCovered
    refine ⟨?_, ?_⟩
    · intro b hb
      rw [hOuter] at hb
      rw [get?_symbols_endLast hActive]
      split
      · -- the macro is still active, and the rewrite that ends found the value it still has
        rename_i hName
        rw [value_endEvent_of_covered ⟨b, hb, hName⟩]
        exact (hCovered.1 b hb hName.symm).2
      · exact h.current b (hActive ▸ List.mem_cons_of_mem _ hb)
    · rw [hOuter]
      exact hCovered.2

theorem keeps_sound : Keeps Sound where
  setPosition _ n h := h.setPosition n
  apply _ _ _ _ := sound_apply
  endLast _ := sound_endLast

theorem sound_endMany {n : Nat} (h : e.Sound) : (endMany n e).Sound :=
  endMany_invariant (fun _ => sound_endLast) h

/-! ## Below all rewrites -/

/-- The value of a macro below all active rewrites of it. -/
def underlying (e : Engine) (name : String) : Option String :=
  match e.outermost? name with
  | some a => a.previous
  | none => e.symbols.get? name

theorem underlying_of_not_active (h : ∀ a ∈ e.active, a.name ≠ name) :
    e.underlying name = e.symbols.get? name := by
  unfold underlying
  rw [outermost?_eq_none_iff.mpr h]

theorem outermost?_of_active_cons (hActive : e.active = a :: outer) :
    e.outermost? name
      = (outer.reverse.find? (·.name == name)).or (if a.name = name then some a else none) := by
  unfold outermost?
  rw [hActive, List.reverse_cons, List.find?_append]
  by_cases h : a.name = name
  · simp [h]
  · simp [h]

/-- The rewrite that a rule begins; it remembers the value it found. -/
def began (e : Engine) (rule : RewriteRule) (fragment : String) : ActiveRewrite :=
  { symbol := rule.symbol, value := rule.value, fragment, restore := rule.restore
    previous := e.valueOf rule.symbol }

theorem active_begin : (e.begin rule fragment).active = e.began rule fragment :: e.active :=
  rfl

theorem name_began : (e.began rule fragment).name = macroName rule.symbol :=
  rfl

theorem previous_began :
    (e.began rule fragment).previous = e.symbols.get? (macroName rule.symbol) :=
  rfl

theorem underlying_begin : (e.begin rule fragment).underlying name = e.underlying name := by
  unfold underlying
  rw [outermost?_of_active_cons active_begin, ← outermost?, name_began]
  cases e.outermost? name with
  | some a => rfl
  -- without another rewrite of the macro, this one found the value below them all
  | none =>
    rw [Option.none_or, get?_symbols_begin]
    by_cases hName : macroName rule.symbol = name
    · rw [if_pos hName]
      exact previous_began.trans (congrArg _ hName)
    · rw [if_neg hName, if_neg (Ne.symm hName)]

/-- Ending a rewrite changes the value below only when it leaves its macro undefined. -/
theorem underlying_endLast (h : ∀ a ∈ e.active, a.name = name → a.restore ≠ .undefine) :
    e.endLast.underlying name = e.underlying name := by
  cases hActive : e.active with
  | nil =>
    have hSame : e.endLast = e := by
      unfold endLast
      rw [hActive]
    rw [hSame]
  | cons a outer =>
    have hOuter : e.endLast.outermost? name = outer.reverse.find? (·.name == name) := by
      unfold outermost?
      rw [active_endLast, hActive, List.tail_cons]
    unfold underlying
    rw [hOuter, outermost?_of_active_cons hActive]
    cases outer.reverse.find? (·.name == name) with
    -- an outer rewrite of the macro stays the outermost; without one, its old value comes back
    | some b => rfl
    | none =>
      rw [Option.none_or, get?_symbols_endLast hActive]
      by_cases hName : a.name = name
      · rw [if_pos hName, if_pos hName.symm]
        exact value_endEvent_of_reinstate (h a (hActive ▸ List.mem_cons_self) hName)
      · rw [if_neg hName, if_neg (Ne.symm hName)]

end Engine

end DeclSurface
