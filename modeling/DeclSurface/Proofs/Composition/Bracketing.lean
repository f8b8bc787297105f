import DeclSurface.Proofs.Composition.Enclosure
import DeclSurface.Proofs.Composition.Order
import DeclSurface.Proofs.Rewrite.Reinstating

/-!
# The brackets of a manifest

The rewrites of a manifest are a well-bracketed word. Its events stand in the order of the items,
so listing them item by item gives all of them, and every pair stands around the items of its
fragment and of those nested in it.

Which end belongs to a beginning is told by how the pairs are nested. The names alone do not tell
it: a fragment may rewrite one macro by several rules, and then its beginnings are followed by
several ends of that macro for that fragment.

* `Progress.Stamped`   — the events of a run stand in order, and not behind its last item.
* `flatMap_filter_position` — a log in order, listed position by position.
* `BegunOnce`          — a rewrite that a fragment begins only once.
* `Bracketed`          — what is promised about the rewrites of a manifest.
* `compose_bracketed`  — every composed manifest keeps the promise.
* `partner_not_by_name` — two rules of a fragment for one macro.
-/

namespace DeclSurface

/-- No other event of a log begins a rewrite of the macro for the fragment. -/
def BegunOnce (log : List RewriteEvent) (i : Nat) (a : RewriteEvent) : Prop :=
  ∀ i' a', log[i']? = some a' → a'.action = .apply →
    macroName a'.symbol = macroName a.symbol → a'.fragment = a.fragment → i' = i

/--
The rewrites of a manifest are well bracketed, and stand around the items of their fragments. The
partner of a beginning is found by the nesting of pairs: a fragment may rewrite a macro by several
rules, each with an end of its own.
-/
structure Bracketed (store : FragmentStore) (m : Manifest) : Prop where
  /-- There is one way of putting every event in exactly one pair such that the pairs are nested. -/
  paired : ∃! pair : Nat → Nat → Prop, WellBracketed m.rewrites pair
  /-- The names alone tell an end from all others where the fragment begins the macro only once. -/
  unique : ∀ i a, m.rewrites[i]? = some a → a.action = .apply →
    ((∃! j, Partners m.rewrites i j) ↔ BegunOnce m.rewrites i a)
  ordered : m.rewrites.Pairwise fun a b => a.position ≤ b.position
  bounded : ∀ ev ∈ m.rewrites, ev.position ≤ m.items.length
  listed : (List.range (m.items.length + 1)).flatMap m.eventsAt = m.rewrites
  /-- A pair of a fragment encloses the items of the fragment and of those nested in it. -/
  enclosed : ∀ i it, m.items[i]? = some it → ∀ g ∈ Fragment.around store.fragments it.fragment,
    ∀ a ∈ m.rewrites, ∀ r ∈ m.rewrites, a.action = .apply → r.action = .restore →
      a.fragment = g.name → r.fragment = g.name → a.position ≤ i ∧ i < r.position

/-! ## Pairs -/

section Pairs

variable {log : List RewriteEvent} {pair : Nat → Nat → Prop} {i j : Nat}
  {a r : RewriteEvent}

/-- Where a rewrite begins only once, its partner is the only end that could be one. -/
theorem WellBracketed.existsUnique_partners (h : WellBracketed log pair) (hi : log[i]? = some a)
    (hApply : a.action = .apply) (hOnce : BegunOnce log i a) : ∃! j, Partners log i j := by
  obtain ⟨j, hPair, hUnique⟩ := h.applied i a hi hApply
  refine ⟨j, h.partners i j hPair, ?_⟩
  rintro j' ⟨-, b, r, hb, hr, -, hRestore, hName, hFragment⟩
  obtain rfl : b = a := Option.some.inj (hb.symm.trans hi)
  -- the end at `j'` has a partner, which begins the same rewrite and so stands at `i`
  obtain ⟨i', hPair', -⟩ := h.restored j' r hr hRestore
  obtain ⟨-, a', r', ha', hr', hApply', -, hName', hFragment'⟩ := h.partners i' j' hPair'
  obtain rfl : r' = r := Option.some.inj (hr'.symm.trans hr)
  obtain rfl : i' = i :=
    hOnce i' a' ha' hApply' (hName'.trans hName.symm) (hFragment'.trans hFragment.symm)
  exact hUnique j' hPair'

/-- All ends of a fragment stand behind each of its beginnings. -/
theorem EndsLast.lt (h : EndsLast log) (hi : log[i]? = some a) (hApply : a.action = .apply)
    (hj : log[j]? = some r) (hRestore : r.action = .restore) (hFragment : a.fragment = r.fragment) :
    i < j := by
  obtain ⟨hiLt, hiEq⟩ := List.getElem?_eq_some_iff.mp hi
  obtain ⟨hjLt, hjEq⟩ := List.getElem?_eq_some_iff.mp hj
  rcases Nat.lt_trichotomy i j with hLt | rfl | hGt
  · exact hLt
  · rw [← hiEq, hjEq, hRestore] at hApply
    exact absurd hApply (by simp)
  · -- then `a` would begin behind the end `r`
    have hBehind := List.pairwise_iff_getElem.mp h j i hjLt hiLt hGt
    rw [hiEq, hjEq] at hBehind
    rw [hBehind hFragment.symm hRestore] at hApply
    exact absurd hApply (by simp)

/-- Two rewrites of a macro for a fragment have two ends, and both stand behind each beginning. -/
theorem WellBracketed.begunOnce_of_existsUnique (h : WellBracketed log pair) (hEnds : EndsLast log)
    (hi : log[i]? = some a) (hApply : a.action = .apply) (hOnly : ∃! j, Partners log i j) :
    BegunOnce log i a := by
  intro i' a' hi' hApply' hName hFragment
  obtain ⟨j, hPair, -⟩ := h.applied i a hi hApply
  obtain ⟨j', hPair', -⟩ := h.applied i' a' hi' hApply'
  obtain ⟨-, b, r, hb, hr, -, hRestore, hEndName, hEndFragment⟩ := h.partners i' j' hPair'
  obtain rfl : b = a' := Option.some.inj (hb.symm.trans hi')
  have hBehind : i < j' := hEnds.lt hi hApply hr hRestore (hFragment.symm.trans hEndFragment)
  have hOther : Partners log i j' := ⟨hBehind, a, r, hi, hr, hApply, hRestore,
    hName.symm.trans hEndName, hFragment.symm.trans hEndFragment⟩
  obtain rfl : j' = j := hOnly.unique hOther (h.partners i j hPair)
  exact (h.restored j' r hr hRestore).unique hPair' hPair

end Pairs

/-! ## Positions -/

theorem filter_position_succ {log : List RewriteEvent} (n : Nat)
    (hOrdered : log.Pairwise fun a b => a.position ≤ b.position) :
    log.filter (·.position < n) ++ log.filter (·.position == n)
      = log.filter (·.position < n + 1) := by
  induction log with
  | nil => rfl
  | cons ev log ih =>
    obtain ⟨hLater, hRest⟩ := List.pairwise_cons.mp hOrdered
    have hTail := ih hRest
    simp only [List.filter_cons, decide_eq_true_eq, beq_iff_eq]
    rcases Nat.lt_trichotomy ev.position n with hLt | hEq | hGt
    · have hNe : ¬ ev.position = n := by omega
      have hSucc : ev.position < n + 1 := by omega
      rw [if_pos hLt, if_neg hNe, if_pos hSucc, List.cons_append, hTail]
    · -- no event behind this one stands before `n`
      have hNone : log.filter (·.position < n) = [] := by
        rw [List.filter_eq_nil_iff]
        intro ev' hev'
        have hLe := hLater ev' hev'
        rw [decide_eq_true_eq]
        omega
      have hNot : ¬ ev.position < n := by omega
      have hSucc : ev.position < n + 1 := by omega
      rw [hNone, List.nil_append] at hTail
      rw [if_neg hNot, if_pos hEq, if_pos hSucc, hNone, List.nil_append, hTail]
    · have hNot : ¬ ev.position < n := by omega
      have hNe : ¬ ev.position = n := by omega
      have hSucc : ¬ ev.position < n + 1 := by omega
      rw [if_neg hNot, if_neg hNe, if_neg hSucc, hTail]

/-- Events in order, listed position by position, are all events before the last position. -/
theorem flatMap_filter_position {log : List RewriteEvent} (n : Nat)
    (hOrdered : log.Pairwise fun a b => a.position ≤ b.position) :
    (List.range n).flatMap (fun k => log.filter (·.position == k))
      = log.filter (·.position < n) := by
  induction n with
  | zero => simp
  | succ n ih =>
    rw [List.range_succ, List.flatMap_append, ih, List.flatMap_singleton]
    exact filter_position_succ n hOrdered

namespace Manifest

variable {m : Manifest}

theorem flatMap_eventsAt (hOrdered : m.rewrites.Pairwise fun a b => a.position ≤ b.position)
    (hBounded : ∀ ev ∈ m.rewrites, ev.position ≤ m.items.length) :
    (List.range (m.items.length + 1)).flatMap m.eventsAt = m.rewrites := by
  have hListed := flatMap_filter_position (m.items.length + 1) hOrdered
  have hAll : m.rewrites.filter (·.position < m.items.length + 1) = m.rewrites := by
    rw [List.filter_eq_self]
    intro ev hev
    exact decide_eq_true (Nat.lt_succ_of_le (hBounded ev hev))
  rw [hAll] at hListed
  exact hListed

end Manifest

namespace Progress

variable {p q : Progress} {a : Action} {as : List Action}

/-- The events of a run stand in order, and not behind its last item. -/
structure Stamped (p : Progress) : Prop where
  ordered : p.engine.log.Pairwise fun a b => a.position ≤ b.position
  bounded : ∀ ev ∈ p.engine.log, ev.position ≤ p.collected.items.length

/-- New events stand behind all items so far, and so behind all events so far. -/
theorem Stamped.of_logsHere (h : p.Stamped) (hLogs : p.stamp.engine.LogsHere q.engine)
    (hItems : q.collected.items = p.collected.items) : q.Stamped := by
  obtain ⟨events, hLog, hAt⟩ := hLogs.log
  have hHere (ev : RewriteEvent) (hev : ev ∈ events) :
      ev.position = p.collected.items.length := hAt ev hev
  have hOld : p.stamp.engine.log = p.engine.log := rfl
  rw [hOld] at hLog
  refine ⟨?_, ?_⟩
  · rw [hLog, List.pairwise_append]
    refine ⟨h.ordered, ?_, ?_⟩
    · refine List.pairwise_of_forall_mem_list fun ev hev ev' hev' => ?_
      rw [hHere ev hev, hHere ev' hev']
    · intro ev hev ev' hev'
      rw [hHere ev' hev']
      exact h.bounded ev hev
  · intro ev hev
    rw [hLog] at hev
    rw [hItems]
    rcases List.mem_append.mp hev with hev | hev
    · exact h.bounded ev hev
    · exact Nat.le_of_eq (hHere ev hev)

theorem stamped_act (h : p.Stamped) (hAct : p.act a = .ok q) : q.Stamped := by
  cases a with
  | enter fragment rules =>
    obtain ⟨hEngine, hCollected⟩ := act_enter_eq_ok_iff.mp hAct
    refine h.of_logsHere (Engine.logsHere_applyAll hEngine) ?_
    rw [hCollected]
    rfl
  | collect fragment item =>
    obtain ⟨hAdd, hEngine⟩ := act_collect_eq_ok_iff.mp hAct
    have hGrown : p.collected.items.length ≤ q.collected.items.length := by
      rcases Collected.add_eq_ok_iff.mp hAdd with ⟨-, hNew⟩ | ⟨_, -, -, -, hOld⟩
      · rw [hNew, List.length_append]
        exact Nat.le_add_right _ _
      · rw [hOld]
    refine ⟨?_, ?_⟩
    · rw [hEngine]
      exact h.ordered
    · intro ev hev
      rw [hEngine] at hev
      exact Nat.le_trans (h.bounded ev hev) hGrown
  | leave count =>
    obtain rfl := act_leave_eq_ok_iff.mp hAct
    exact h.of_logsHere Engine.logsHere_endMany rfl

theorem stamped_perform (hPerform : (start flags).perform as = .ok q) : q.Stamped := by
  refine perform_invariant (fun p q a => stamped_act) ⟨List.Pairwise.nil, ?_⟩ hPerform
  exact fun ev hev => absurd hev List.not_mem_nil

theorem paired_perform (hPerform : (start flags).perform as = .ok q) : q.engine.Paired := by
  have hStart : (start flags).engine.Paired :=
    ⟨_, _, Engine.pairing_ofBaseline flags.baseline⟩
  have hStep (p q : Progress) (a : Action) (h : p.engine.Paired) (hAct : p.act a = .ok q) :
      q.engine.Paired := engine_act_invariant Engine.keeps_paired h hAct
  exact perform_invariant (P := fun p => p.engine.Paired) hStep hStart hPerform

end Progress

namespace Plan

variable {plan : Plan} {store : FragmentStore} {flags : FlagSet} {m : Manifest}

/-- In a whole run every event of a fragment encloses the items of what is nested in it. -/
theorem encloses_of_perform {order : List Fragment} {p : Progress} {i : Nat} {it : ManifestItem}
    {g : Fragment} {ev : RewriteEvent} (hOrder : ordered (plan.included store flags) = .ok order)
    (hPerform : (Progress.start flags).perform (plan.scriptAll flags order) = .ok p)
    (hi : p.collected.items[i]? = some it) (hg : g ∈ Fragment.around store.fragments it.fragment)
    (hev : ev ∈ p.engine.log) (hName : ev.fragment = g.name) : ev.Encloses i := by
  have hNodup := nodup_namesOf_ordered hOrder
  obtain ⟨events, items, hLog, hItems, hStretch⟩ := walked_scriptAll hNodup hPerform
  -- the walk began with neither events nor items
  have hEvents : p.engine.log = events := hLog
  have hAll : p.collected.items = items := hItems
  have hIn : it ∈ items := hAll ▸ List.mem_of_getElem? hi
  rw [Fragment.around_eq_of_subset store.distinct (subset_fragments_of_ordered hOrder) hNodup
    (hStretch.itemNames it hIn)] at hg
  have hPlace := hStretch.enclosed i it (hAll ▸ hi) g hg ev (hEvents ▸ hev) hName
  have hZero : (Progress.start flags).collected.items.length + i = i := Nat.zero_add i
  rwa [hZero] at hPlace

theorem endsLast_of_perform {order : List Fragment} {p : Progress}
    (hOrder : ordered (plan.included store flags) = .ok order)
    (hPerform : (Progress.start flags).perform (plan.scriptAll flags order) = .ok p) :
    EndsLast p.engine.log := by
  obtain ⟨events, _, hLog, -, hStretch⟩ :=
    walked_scriptAll (nodup_namesOf_ordered hOrder) hPerform
  have hEvents : p.engine.log = events := hLog
  rw [hEvents]
  exact hStretch.ended

theorem active_eq_nil_of_perform {order : List Fragment} {p : Progress}
    (hPerform : (Progress.start flags).perform (plan.scriptAll flags order) = .ok p) :
    p.engine.active = [] := by
  have hStack := Progress.stack_of_perform hPerform
  rw [stackAfter_scriptAll] at hStack
  exact List.map_eq_nil_iff.mp hStack

/-- The walk ends every rewrite that it begins, so no bracket is open behind it. -/
theorem exists_wellBracketed (h : plan.compose store flags = .ok m) :
    ∃ pair, WellBracketed m.rewrites pair := by
  obtain ⟨-, order, -, p, hPerform, rfl⟩ := compose_eq_ok_iff.mp h
  exact Engine.wellBracketed_of_active_eq_nil (Progress.paired_perform hPerform)
    (active_eq_nil_of_perform hPerform)

/-- In every composed manifest the rewrites are well bracketed. -/
theorem compose_bracketed (h : plan.compose store flags = .ok m) : Bracketed store m := by
  obtain ⟨-, order, hOrder, p, hPerform, rfl⟩ := compose_eq_ok_iff.mp h
  obtain ⟨pair, hPair⟩ := exists_wellBracketed h
  have hStamped := Progress.stamped_perform hPerform
  refine
    { paired := ⟨pair, hPair, fun _ hOther => hOther.unique hPair⟩, unique := ?unique
      ordered := hStamped.ordered, bounded := hStamped.bounded
      listed := ?listed, enclosed := ?enclosed }
  case unique =>
    intro i a hi hApply
    exact ⟨hPair.begunOnce_of_existsUnique (endsLast_of_perform hOrder hPerform) hi hApply,
      hPair.existsUnique_partners hi hApply⟩
  case listed => exact Manifest.flatMap_eventsAt hStamped.ordered hStamped.bounded
  case enclosed =>
    intro i it hi g hg a ha r hr hApply hRestore haName hrName
    exact ⟨(encloses_of_perform hOrder hPerform hi hg ha haName).1 hApply,
      (encloses_of_perform hOrder hPerform hi hg hr hrName).2 hRestore⟩

theorem compose_bracketed_sample :
    ∃ m, Sample.plan.compose Sample.store .empty = .ok m ∧
      m.rewrites.map (·.position) = [0, 1, 1, 3, 3, 3] ∧ Bracketed Sample.store m :=
  ⟨_, rfl, rfl, @compose_bracketed Sample.plan Sample.store .empty _ rfl⟩

/-- A fragment that two rules give the same macro. -/
def Sample.doubling : Plan :=
  let rule : RewriteRule :=
    { symbol := "X", value := "1", fragments := ["alone"], restore := .undefine, gate := .always }
  { rules := [rule, rule] }

/-- The fragment itself, with nothing to declare. -/
def Sample.alone : FragmentStore :=
  ⟨[{ name := "alone", gate := .always, constraints := [], items := [], children := [] }],
    by decide⟩

/-- An end of the same macro for the same fragment need not be the partner of a beginning. -/
theorem partner_not_by_name :
    ¬ ∀ (plan : Plan) (store : FragmentStore) (flags : FlagSet) (m : Manifest),
      plan.compose store flags = .ok m → ∀ i a, m.rewrites[i]? = some a → a.action = .apply →
        ∃! j, Partners m.rewrites i j := by
  intro hAll
  obtain ⟨m, hCompose, hLog⟩ : ∃ m, Sample.doubling.compose Sample.alone .empty = .ok m ∧
      m.rewrites = [⟨.apply, "X", some "1", "alone", 0⟩, ⟨.apply, "X", some "1", "alone", 0⟩,
        ⟨.restore, "X", some "1", "alone", 0⟩, ⟨.restore, "X", none, "alone", 0⟩] :=
    ⟨_, rfl, rfl⟩
  have hOnly : ∃! j, Partners m.rewrites 0 j :=
    hAll _ _ _ m hCompose 0 ⟨.apply, "X", some "1", "alone", 0⟩ (by rw [hLog]; rfl) rfl
  -- both ends stand behind the first beginning and bear its names
  have hInner : Partners m.rewrites 0 2 := by
    rw [hLog]
    exact ⟨by omega, _, _, rfl, rfl, rfl, rfl, rfl, rfl⟩
  have hOuter : Partners m.rewrites 0 3 := by
    rw [hLog]
    exact ⟨by omega, _, _, rfl, rfl, rfl, rfl, rfl, rfl⟩
  have hSame : 2 = 3 := hOnly.unique hInner hOuter
  omega

end Plan

end DeclSurface
