import DeclSurface.Proofs.Composition.Order
import DeclSurface.Proofs.Composition.Scope
import DeclSurface.Proofs.Rewrite.Tracking

/-!
# Isolation of rewrites

Between the events of a manifest stand its items. An item sees the macros as the events up to it
leave them: those rewritten around its fragment have the values of the rules, and all others are as
the flags define them. No rewrite leaks out of its scope, and none ends before it.

* `Manifest.macrosAt`     — the macros that an item sees.
* `Progress.Isolated`     — the invariant of a run.
* `isolated_act`          — every action keeps it.
* `Isolation`             — what is promised about a manifest.
* `compose_isolation`     — every composed manifest keeps the promise.
-/

namespace DeclSurface

/-- The macros at the item of a position, from those defined before composition. -/
def Manifest.macrosAt (m : Manifest) (base : NameMap String) (position : Nat) : NameMap String :=
  replay base (m.rewrites.filter (·.position ≤ position))

namespace Plan

/-- No rule of a run leaves a macro undefined, so what the macro was before is given back. -/
def GivenBack (plan : Plan) (flags : FlagSet) (name : String) : Prop :=
  ∀ r ∈ plan.rules, r.gate.holds flags = true → macroName r.symbol = name → r.restore ≠ .undefine

/-- What a manifest promises about the macros that its items see. -/
structure Isolation (plan : Plan) (store : FragmentStore) (flags : FlagSet) (m : Manifest) :
    Prop where
  /-- At an item, a macro has the value of every rule in force there. -/
  inside : ∀ (i : Nat) (item : ManifestItem), m.items[i]? = some item →
    ∀ r, plan.InForce store flags r item.fragment →
      (m.macrosAt flags.baseline i).get? (macroName r.symbol) = some r.value
  /-- A macro without a rule in force there is as the flags define it. -/
  outside : ∀ (i : Nat) (item : ManifestItem), m.items[i]? = some item →
    ∀ n, plan.GivenBack flags n →
      (∀ r, plan.InForce store flags r item.fragment → macroName r.symbol ≠ n) →
      (m.macrosAt flags.baseline i).get? n = flags.baseline.get? n
  /-- After all events the macros are as the flags define them. -/
  after : ∀ n, plan.GivenBack flags n →
    (replay flags.baseline m.rewrites).get? n = flags.baseline.get? n

end Plan

/-! ## The invariant of a run -/

namespace Progress

variable {base : NameMap String} {given : String → Prop}
  {scopes : List (String × List Substitution)} {p q : Progress} {a : Action} {as : List Action}

/-- Items collected so far saw the rewrites of their scopes, and no event stands after them all. -/
structure Isolated (base : NameMap String) (given : String → Prop)
    (scopes : List (String × List Substitution)) (p : Progress) : Prop where
  tracks : p.engine.Tracks base given
  positions : ∀ ev ∈ p.engine.log, ev.position ≤ p.collected.items.length
  seen : ∀ (i : Nat) (item : ManifestItem), p.collected.items[i]? = some item →
    ∃ stack, (item.fragment, stack) ∈ scopes ∧
      Shows base given stack (replay base (p.engine.log.filter (·.position ≤ i)))

/-- What happens after the last item changes nothing for the items so far. -/
theorem Isolated.of_logsHere (h : p.Isolated base given scopes)
    (hTracks : q.engine.Tracks base given) (hLogs : p.stamp.engine.LogsHere q.engine)
    (hItems : q.collected.items = p.collected.items) : q.Isolated base given scopes := by
  obtain ⟨events, hLog, hAt⟩ := hLogs.log
  refine ⟨hTracks, ?_, ?_⟩
  · intro ev hev
    rw [hLog] at hev
    rw [hItems]
    rcases List.mem_append.mp hev with hev | hev
    · exact h.positions ev hev
    · exact Nat.le_of_eq (hAt ev hev)
  · intro i item hi
    rw [hItems] at hi
    have hLt := (List.getElem?_eq_some_iff.mp hi).1
    -- the new events stand after every item so far
    have hNone : events.filter (·.position ≤ i) = [] := by
      rw [List.filter_eq_nil_iff]
      intro ev hev
      have hPosition : ev.position = p.collected.items.length := hAt ev hev
      rw [hPosition, decide_eq_true_eq]
      omega
    rw [hLog, List.filter_append, hNone, List.append_nil]
    exact h.seen i item hi

/-- A new item sees the macros of the engine. -/
theorem Isolated.of_concat {i : ManifestItem} (h : p.Isolated base given scopes)
    (hScope : (i.fragment, p.engine.stack) ∈ scopes) (hEngine : q.engine = p.engine)
    (hItems : q.collected.items = p.collected.items ++ [i]) : q.Isolated base given scopes := by
  refine ⟨hEngine ▸ h.tracks, ?_, ?_⟩
  · intro ev hev
    rw [hEngine] at hev
    have hLe := h.positions ev hev
    rw [hItems, List.length_append]
    omega
  · intro n it hi
    rw [hItems] at hi
    rw [hEngine]
    rcases Nat.lt_or_ge n p.collected.items.length with hLt | hGe
    · rw [List.getElem?_append_left hLt] at hi
      exact h.seen n it hi
    · rw [List.getElem?_append_right hGe, List.getElem?_singleton] at hi
      obtain ⟨-, hItem⟩ := Option.ite_none_right_eq_some.mp hi
      obtain rfl := Option.some.inj hItem
      -- all events so far stand before the new item
      have hAll : p.engine.log.filter (·.position ≤ n) = p.engine.log := by
        rw [List.filter_eq_self]
        intro ev hev
        exact decide_eq_true (Nat.le_trans (h.positions ev hev) hGe)
      refine ⟨_, hScope, ?_⟩
      rw [hAll, h.tracks.faithful]
      exact h.tracks.shows

/-- Every action keeps the invariant, if `scopes` has its moments. -/
theorem isolated_act (h : p.Isolated base given scopes)
    (hGiven : ∀ s ∈ scopes, ∀ x ∈ s.2, given x.name → x.restore ≠ .undefine)
    (hScopes : moments p.engine.stack [a] ⊆ scopes) (hAct : p.act a = .ok q) :
    q.Isolated base given scopes := by
  cases a with
  | enter fragment rules =>
    obtain ⟨hEngine, hCollected⟩ := act_enter_eq_ok_iff.mp hAct
    have hRules := restore_of_moments hGiven hScopes
    have hTracks := Engine.tracks_applyAll (h.tracks.setPosition _) hRules hEngine
    refine h.of_logsHere hTracks (Engine.logsHere_applyAll hEngine) ?_
    rw [hCollected]
    rfl
  | collect fragment item =>
    obtain ⟨hAdd, hEngine⟩ := act_collect_eq_ok_iff.mp hAct
    rcases Collected.add_eq_ok_iff.mp hAdd with ⟨-, hNew⟩ | ⟨_, -, -, -, hOld⟩
    · refine h.of_concat (i := ⟨fragment, item⟩) (hScopes List.mem_cons_self) hEngine ?_
      rw [hNew]
    · -- the item repeats an earlier one and is dropped
      refine ⟨?_, ?_, ?_⟩
      · rw [hEngine]
        exact h.tracks
      · rw [hEngine, hOld]
        exact h.positions
      · rw [hEngine, hOld]
        exact h.seen
  | leave count =>
    obtain rfl := act_leave_eq_ok_iff.mp hAct
    exact h.of_logsHere (Engine.tracks_endMany (h.tracks.setPosition _)) Engine.logsHere_endMany
      rfl

theorem isolated_perform (h : p.Isolated base given scopes)
    (hGiven : ∀ s ∈ scopes, ∀ x ∈ s.2, given x.name → x.restore ≠ .undefine)
    (hScopes : moments p.engine.stack as ⊆ scopes) (hPerform : p.perform as = .ok q) :
    q.Isolated base given scopes :=
  perform_invariant_of_moments (fun _ _ _ h => isolated_act h hGiven) h hScopes hPerform

theorem isolated_start (flags : FlagSet) :
    Isolated flags.baseline given scopes (start flags) where
  tracks := Engine.tracks_ofBaseline _ _
  positions _ hev := absurd hev List.not_mem_nil
  seen _ _ hi := by simp [start] at hi

end Progress

namespace Plan

variable {plan : Plan} {store : FragmentStore} {flags : FlagSet} {m : Manifest}

/-- No rewrite in effect leaves a macro undefined that all rules of the run give back. -/
theorem restore_of_givenBack {order : List Fragment} (hStore : order ⊆ store.fragments) :
    ∀ s ∈ moments [] (plan.scriptAll flags order), ∀ x ∈ s.2,
      plan.GivenBack flags x.name → x.restore ≠ .undefine := by
  rintro ⟨n, stack⟩ hs x hx hBack
  obtain ⟨r, g, -, hr, -, hGate, rfl⟩ := (mem_stack_iff hStore hs).mp hx
  exact hBack r hr hGate rfl

theorem isolated_of_compose (h : plan.compose store flags = .ok m) :
    ∃ order p, order ⊆ store.fragments ∧
      Progress.Isolated (plan.effectiveFlags flags).baseline
        (plan.GivenBack (plan.effectiveFlags flags))
        (moments [] (plan.scriptAll (plan.effectiveFlags flags) order)) p ∧
      p.engine.stack = [] ∧ plan.manifest (plan.effectiveFlags flags) p = m := by
  obtain ⟨-, order, hOrder, p, hPerform, hManifest⟩ := compose_eq_ok_iff.mp h
  have hStore := subset_fragments_of_ordered hOrder
  have hStack := Progress.stack_of_perform hPerform
  refine ⟨order, p, hStore, ?_, hStack.trans stackAfter_scriptAll, hManifest⟩
  exact Progress.isolated_perform (Progress.isolated_start _) (restore_of_givenBack hStore)
    (List.Subset.refl _) hPerform

/-- In every composed manifest rewrites are isolated. -/
theorem compose_isolation (h : plan.compose store flags = .ok m) :
    plan.Isolation store (plan.effectiveFlags flags) m := by
  obtain ⟨order, p, hStore, hRun, hStack, rfl⟩ := isolated_of_compose h
  refine ⟨?_, ?_, ?_⟩
  · rintro i item hi r ⟨hr, hGate, g, hg, hApplies⟩
    obtain ⟨stack, hs, hShows⟩ := hRun.seen i item hi
    exact hShows.current (r.substitution g.name)
      ((mem_stack_iff hStore hs).mpr ⟨r, g, hg, hr, hApplies, hGate, rfl⟩)
  · intro i item hi n hBack hNone
    obtain ⟨stack, hs, hShows⟩ := hRun.seen i item hi
    refine hShows.untouched n hBack ?_
    intro x hx
    obtain ⟨r, g, hg, hr, hApplies, hGate, rfl⟩ := (mem_stack_iff hStore hs).mp hx
    exact hNone r ⟨hr, hGate, g, hg, hApplies⟩
  · intro n hBack
    -- after the last scope no rewrite is in effect, so the macros of the engine are the old ones
    have hReplay := hRun.tracks.faithful
    have hAfter := hRun.tracks.shows.untouched n hBack (by simp [hStack])
    rw [← hReplay] at hAfter
    exact hAfter

theorem compose_isolation_sample :
    ∃ m, Sample.plan.compose Sample.store .empty = .ok m ∧
      m.items.map (·.fragment) = ["early", "open", "open"] ∧
      Sample.plan.Isolation Sample.store (Sample.plan.effectiveFlags .empty) m :=
  ⟨_, rfl, rfl, compose_isolation rfl⟩

end Plan

end DeclSurface
