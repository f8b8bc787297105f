import DeclSurface.Proofs.Rewrite.Closing

/-!
# Pairs in the log

The log of an engine is a word in which beginnings of rewrites are opening brackets and their ends
are closing ones. The stack of active rewrites is the stack on which such a word is read: what is
on it are the brackets that are still open, so an end always belongs to the innermost of them.

* `WellBracketed`    — a log in which every event has its partner.
* `Pairing`          — the same for a log with some rewrites still active.
* `pairing_begin`, `pairing_endLast` — every step of the engine keeps this.
* `wellBracketed_of_active_eq_nil`   — with no rewrite active, every event has its partner.
-/

namespace DeclSurface

/-- The events at two places of a log begin and end a rewrite of one macro for one fragment. -/
def Partners (log : List RewriteEvent) (i j : Nat) : Prop :=
  i < j ∧ ∃ a r, log[i]? = some a ∧ log[j]? = some r ∧ a.action = .apply ∧ r.action = .restore ∧
    macroName a.symbol = macroName r.symbol ∧ a.fragment = r.fragment

/-- Every event of a log is one of a pair, and pairs lie inside one another or apart. -/
structure WellBracketed (log : List RewriteEvent) (pair : Nat → Nat → Prop) : Prop where
  partners : ∀ i j, pair i j → Partners log i j
  applied : ∀ i a, log[i]? = some a → a.action = .apply → ∃! j, pair i j
  restored : ∀ j r, log[j]? = some r → r.action = .restore → ∃! i, pair i j
  nested : ∀ i j i' j', pair i j → pair i' j' → i < i' → i' < j → j' < j

theorem Partners.lt_length {log : List RewriteEvent} {i j : Nat} (h : Partners log i j) :
    i < log.length ∧ j < log.length := by
  obtain ⟨-, a, r, hi, hj, -⟩ := h
  exact ⟨(List.getElem?_eq_some_iff.mp hi).1, (List.getElem?_eq_some_iff.mp hj).1⟩

theorem Partners.append {log : List RewriteEvent} {i j : Nat} (h : Partners log i j)
    (events : List RewriteEvent) : Partners (log ++ events) i j := by
  obtain ⟨hi, hj⟩ := h.lt_length
  obtain ⟨hLt, hEvents⟩ := h
  refine ⟨hLt, ?_⟩
  rw [List.getElem?_append_left hi, List.getElem?_append_left hj]
  exact hEvents

/-- What stands in a log with one more event is the new event or was there before. -/
theorem getElem?_concat_cases {log : List RewriteEvent} {event ev : RewriteEvent} {i : Nat}
    (h : (log ++ [event])[i]? = some ev) :
    (i < log.length ∧ log[i]? = some ev) ∨ (i = log.length ∧ event = ev) := by
  rcases Nat.lt_or_ge i log.length with hLt | hGe
  · rw [List.getElem?_append_left hLt] at h
    exact Or.inl ⟨hLt, h⟩
  · rw [List.getElem?_append_right hGe, List.getElem?_singleton] at h
    obtain ⟨hZero, hEvent⟩ := Option.ite_none_right_eq_some.mp h
    exact Or.inr ⟨by omega, Option.some.inj hEvent⟩

namespace Engine

/-- An event begins a rewrite. -/
def Begins (a : ActiveRewrite) (event : RewriteEvent) : Prop :=
  event.action = .apply ∧ macroName event.symbol = a.name ∧ event.fragment = a.fragment

variable {e e' : Engine} {rule : RewriteRule} {fragment : String} {a : ActiveRewrite}
  {outer : List ActiveRewrite} {opens : List Nat} {k : Nat} {pair : Nat → Nat → Prop}

/-- Active rewrites begin at the places `opens` of a log. -/
def BegunAt (log : List RewriteEvent) (active : List ActiveRewrite) (opens : List Nat) : Prop :=
  List.Forall₂ (fun a k => ∃ ev, log[k]? = some ev ∧ Begins a ev) active opens

theorem BegunAt.lt_length {log : List RewriteEvent} {active : List ActiveRewrite}
    (h : BegunAt log active opens) (hk : k ∈ opens) : k < log.length := by
  induction h with
  | nil => exact absurd hk List.not_mem_nil
  | cons hHead _ ih =>
    rcases List.mem_cons.mp hk with rfl | hk
    · obtain ⟨ev, hev, -⟩ := hHead
      exact (List.getElem?_eq_some_iff.mp hev).1
    · exact ih hk

theorem BegunAt.append {log : List RewriteEvent} {active : List ActiveRewrite}
    (h : BegunAt log active opens) (events : List RewriteEvent) :
    BegunAt (log ++ events) active opens := by
  refine List.Forall₂.imp ?_ h
  rintro a k ⟨ev, hev, hBegins⟩
  have hk := (List.getElem?_eq_some_iff.mp hev).1
  exact ⟨ev, by rw [List.getElem?_append_left hk, hev], hBegins⟩

/--
Every event of the log is one of a pair, but for the beginnings of the active rewrites: these stand
at the places `opens`, that of the innermost first.
-/
structure Pairing (e : Engine) (opens : List Nat) (pair : Nat → Nat → Prop) : Prop where
  partners : ∀ i j, pair i j → Partners e.log i j
  applied : ∀ i a, e.log[i]? = some a → a.action = .apply → i ∉ opens → ∃! j, pair i j
  restored : ∀ j r, e.log[j]? = some r → r.action = .restore → ∃! i, pair i j
  nested : ∀ i j i' j', pair i j → pair i' j' → i < i' → i' < j → j' < j
  /-- An open beginning stands at its place, and has no partner. -/
  begun : BegunAt e.log e.active opens
  single : ∀ i j, pair i j → i ∉ opens
  /-- Inner rewrites begin later than outer ones. -/
  inner : opens.Pairwise (· > ·)
  /-- No pair has an open beginning inside it. -/
  apart : ∀ i j, pair i j → ∀ k ∈ opens, i < k → j < k

theorem pairing_ofBaseline (base : NameMap String) :
    (ofBaseline base).Pairing [] fun _ _ => False where
  partners _ _ h := h.elim
  applied _ _ h := by simp [ofBaseline] at h
  restored _ _ h := by simp [ofBaseline] at h
  nested _ _ _ _ h := h.elim
  begun := List.Forall₂.nil
  single _ _ h := h.elim
  inner := List.Pairwise.nil
  apart _ _ h := h.elim

theorem Pairing.setPosition (h : e.Pairing opens pair) (n : Nat) :
    (e.setPosition n).Pairing opens pair :=
  ⟨h.partners, h.applied, h.restored, h.nested, h.begun, h.single, h.inner, h.apart⟩

/-- A rule that begins opens a bracket inside all that are open. -/
theorem pairing_begin (h : e.Pairing opens pair) :
    (e.begin rule fragment).Pairing (e.log.length :: opens) pair := by
  set event : RewriteEvent :=
    { action := .apply, symbol := rule.symbol, value := some rule.value, fragment
      position := e.position } with hEvent
  have hLog : (e.begin rule fragment).log = e.log ++ [event] := rfl
  have hOld (i j : Nat) (hPair : pair i j) : i < e.log.length ∧ j < e.log.length :=
    (h.partners i j hPair).lt_length
  refine
    { partners := ?partners, applied := ?applied, restored := ?restored, nested := h.nested
      begun := ?begun, single := ?single, inner := ?inner, apart := ?apart }
  case partners =>
    intro i j hPair
    exact (h.partners i j hPair).append _
  case applied =>
    intro i a hi hApply hFree
    rw [List.mem_cons, not_or] at hFree
    rw [hLog] at hi
    rcases getElem?_concat_cases hi with ⟨-, hi⟩ | ⟨rfl, -⟩
    · exact h.applied i a hi hApply hFree.2
    · -- the new event is one of the open beginnings
      exact absurd rfl hFree.1
  case restored =>
    intro j r hj hRestore
    rw [hLog] at hj
    rcases getElem?_concat_cases hj with ⟨-, hj⟩ | ⟨-, rfl⟩
    · exact h.restored j r hj hRestore
    · -- the new event is no end
      exact absurd hRestore (by simp [hEvent])
  case begun =>
    refine List.Forall₂.cons ⟨event, ?_, rfl, rfl, rfl⟩ (h.begun.append _)
    rw [hLog]
    exact List.getElem?_concat_length
  case single =>
    intro i j hPair hMem
    rcases List.mem_cons.mp hMem with rfl | hMem
    · exact absurd (hOld _ j hPair).1 (Nat.lt_irrefl _)
    · exact h.single i j hPair hMem
  case inner => exact List.pairwise_cons.mpr ⟨fun k hk => h.begun.lt_length hk, h.inner⟩
  case apart =>
    intro i j hPair k hk hLt
    rcases List.mem_cons.mp hk with rfl | hk
    · -- every pair so far stands before the new event
      exact (hOld i j hPair).2
    · exact h.apart i j hPair k hk hLt

/-- Ending the innermost rewrite closes the innermost bracket. -/
theorem pairing_endLast (hActive : e.active = a :: outer) (h : e.Pairing (k :: opens) pair) :
    e.endLast.Pairing opens fun i j => pair i j ∨ (i = k ∧ j = e.log.length) := by
  have hLog : e.endLast.log = e.log ++ [endEvent a outer e.position] := log_endLast hActive
  have hBegun := h.begun
  rw [hActive] at hBegun
  obtain ⟨⟨ev, hev, hApply, hName, hFragment⟩, hOuter⟩ := List.forall₂_cons.mp hBegun
  obtain ⟨hInner, hRest⟩ := List.pairwise_cons.mp h.inner
  have hk : k < e.log.length := h.begun.lt_length List.mem_cons_self
  have hOld (i j : Nat) (hPair : pair i j) : i < e.log.length ∧ j < e.log.length :=
    (h.partners i j hPair).lt_length
  have hNotOld (j : Nat) : ¬ pair k j := fun hPair => h.single k j hPair List.mem_cons_self
  refine
    { partners := ?partners, applied := ?applied, restored := ?restored, nested := ?nested
      begun := ?begun, single := ?single, inner := hRest, apart := ?apart }
  case partners =>
    rw [hLog]
    rintro i j (hPair | ⟨rfl, rfl⟩)
    · exact (h.partners i j hPair).append _
    · refine ⟨hk, ev, endEvent a outer e.position, ?_, List.getElem?_concat_length, hApply, rfl, ?_,
        hFragment⟩
      · rw [List.getElem?_append_left hk, hev]
      · rw [hName, macroName_endEvent]
  case applied =>
    intro i b hi hBegins hFree
    rw [hLog] at hi
    rcases getElem?_concat_cases hi with ⟨hLt, hi⟩ | ⟨-, rfl⟩
    · by_cases hik : i = k
      · -- the beginning that was open until now has the new event as its only partner
        subst hik
        refine ⟨e.log.length, Or.inr ⟨rfl, rfl⟩, ?_⟩
        rintro j (hPair | ⟨-, rfl⟩)
        · exact absurd hPair (hNotOld j)
        · rfl
      · have hStill : i ∉ k :: opens := by
          rw [List.mem_cons, not_or]
          exact ⟨hik, hFree⟩
        obtain ⟨j, hPair, hUnique⟩ := h.applied i b hi hBegins hStill
        refine ⟨j, Or.inl hPair, ?_⟩
        rintro j' (hPair' | ⟨hEq, -⟩)
        · exact hUnique j' hPair'
        · exact absurd hEq hik
    · -- the new event begins nothing
      simp [endEvent] at hBegins
  case restored =>
    intro j r hj hEnds
    rw [hLog] at hj
    rcases getElem?_concat_cases hj with ⟨hLt, hj⟩ | ⟨rfl, -⟩
    · obtain ⟨i, hPair, hUnique⟩ := h.restored j r hj hEnds
      refine ⟨i, Or.inl hPair, ?_⟩
      rintro i' (hPair' | ⟨-, hEq⟩)
      · exact hUnique i' hPair'
      · omega
    · refine ⟨k, Or.inr ⟨rfl, rfl⟩, ?_⟩
      rintro i (hPair | ⟨rfl, -⟩)
      · exact absurd (hOld i _ hPair).2 (Nat.lt_irrefl _)
      · rfl
  case nested =>
    rintro i j i' j' (hPair | ⟨rfl, rfl⟩) (hPair' | ⟨rfl, rfl⟩) hLt hInside
    · exact h.nested i j i' j' hPair hPair' hLt hInside
    · -- no old pair has the bracket inside it that is closed now
      have hBefore := h.apart i j hPair i' List.mem_cons_self hLt
      omega
    · exact (hOld i' j' hPair').2
    · omega
  case begun =>
    rw [active_endLast, hActive, hLog]
    exact BegunAt.append hOuter _
  case single =>
    rintro i j (hPair | ⟨rfl, -⟩) hMem
    · exact h.single i j hPair (List.mem_cons_of_mem _ hMem)
    · exact absurd (hInner i hMem) (Nat.lt_irrefl _)
  case apart =>
    rintro i j (hPair | ⟨rfl, -⟩) k' hk' hLt
    · exact h.apart i j hPair k' (List.mem_cons_of_mem _ hk') hLt
    · -- brackets that are still open were opened before the one that is closed now
      have hLater := hInner k' hk'
      omega

/-- In every engine that began without active rewrites, the log can be paired. -/
def Paired (e : Engine) : Prop :=
  ∃ opens pair, e.Pairing opens pair

theorem paired_apply (h : e.Paired) (hApply : e.apply rule fragment = .ok e') : e'.Paired := by
  obtain ⟨opens, pair, hPairing⟩ := h
  obtain ⟨-, rfl⟩ := apply_eq_ok_iff.mp hApply
  exact ⟨_, _, pairing_begin hPairing⟩

theorem paired_endLast (h : e.Paired) : e.endLast.Paired := by
  obtain ⟨opens, pair, hPairing⟩ := h
  cases hActive : e.active with
  | nil =>
    rw [endLast_of_nil hActive]
    exact ⟨opens, pair, hPairing⟩
  | cons a outer =>
    have hBegun := hPairing.begun
    rw [hActive] at hBegun
    obtain ⟨k, rest, -, -, rfl⟩ := List.forall₂_cons_left_iff.mp hBegun
    exact ⟨_, _, pairing_endLast hActive hPairing⟩

theorem keeps_paired : Keeps Paired where
  setPosition e n h := by
    obtain ⟨opens, pair, hPairing⟩ := h
    exact ⟨opens, pair, hPairing.setPosition n⟩
  apply _ _ _ _ := paired_apply
  endLast _ := paired_endLast

/-- With no bracket open, every event has its partner. -/
theorem Pairing.wellBracketed (h : e.Pairing [] pair) : WellBracketed e.log pair :=
  ⟨h.partners, fun i a hi hApply => h.applied i a hi hApply List.not_mem_nil, h.restored, h.nested⟩

theorem wellBracketed_of_active_eq_nil (h : e.Paired) (hActive : e.active = []) :
    ∃ pair, WellBracketed e.log pair := by
  obtain ⟨opens, pair, hPairing⟩ := h
  have hBegun := hPairing.begun
  rw [hActive] at hBegun
  obtain rfl := List.forall₂_nil_left_iff.mp hBegun
  exact ⟨pair, hPairing.wellBracketed⟩

end Engine

end DeclSurface
