import DeclSurface.Proofs.Composition.Scope
import DeclSurface.Proofs.Rewrite.Closing

/-!
# Events around items

The rewrites of a fragment begin when the walk reaches it and end when the walk has left the last
fragment nested in it. So whatever is collected in between stands behind all beginnings and before
all ends, even where a fragment adds no item of its own or a repeated one is dropped.

* `Engine.log_applyAll`, `endEvents_origin` — what a scope logs when it opens and when it closes.
* `EndsLast`           — a fragment begins all its rewrites before it ends the first of them.
* `Stretch`            — what a walk through some fragments adds to log and items.
* `Stretch.append`, `stretch_around` — stretches behind one another and inside a fragment.
* `walked_script`, `walked_scriptAll` — the walk of a composition adds such a stretch.
-/

namespace DeclSurface

/-! ## The events of one scope -/

namespace Engine

variable {e e' : Engine} {fragment : String} {rules : List RewriteRule}

/-- Rules that begin for a fragment are logged for it, one by one. -/
theorem log_applyAll (h : e.applyAll fragment rules = .ok e') :
    ∃ events, e'.log = e.log ++ events ∧
      ∀ ev ∈ events, ev.action = .apply ∧ ev.fragment = fragment ∧ ev.position = e.position := by
  induction rules generalizing e with
  | nil =>
    obtain rfl := Except.ok.inj h
    exact ⟨[], (List.append_nil _).symm, by simp⟩
  | cons r rs ih =>
    rw [applyAll, bind_eq_ok_iff] at h
    obtain ⟨e₁, hFirst, hRest⟩ := h
    obtain ⟨-, rfl⟩ := apply_eq_ok_iff.mp hFirst
    obtain ⟨events, hLog, hEvents⟩ := ih hRest
    refine ⟨_, by rw [hLog]; exact List.append_assoc _ _ _, ?_⟩
    intro ev hev
    rcases List.mem_append.mp hev with hev | hev
    · rw [List.mem_singleton.mp hev]
      exact ⟨rfl, rfl, rfl⟩
    · exact hEvents ev hev

/-- What ends rewrites is logged for the fragments that began them. -/
theorem endEvents_origin {position n : Nat} {active : List ActiveRewrite} {ev : RewriteEvent}
    (h : ev ∈ endEvents position n active) :
    ev.action = .restore ∧ ev.position = position ∧
      ∃ x ∈ (active.map (·.substitution)).take n, ev.fragment = x.fragment := by
  induction n generalizing active with
  | zero => exact absurd h List.not_mem_nil
  | succ n ih =>
    cases active with
    | nil => exact absurd h List.not_mem_nil
    | cons a outer =>
      rw [List.map_cons, List.take_succ_cons]
      rcases List.mem_cons.mp h with rfl | h
      · exact ⟨rfl, rfl, a.substitution, List.mem_cons_self, rfl⟩
      · obtain ⟨hAction, hPosition, x, hx, hFragment⟩ := ih h
        exact ⟨hAction, hPosition, x, List.mem_cons_of_mem _ hx, hFragment⟩

end Engine

/-! ## Stretches -/

/-- The item at a place stands behind an event that begins a rewrite, or before one that ends it. -/
def RewriteEvent.Encloses (ev : RewriteEvent) (i : Nat) : Prop :=
  (ev.action = .apply → ev.position ≤ i) ∧ (ev.action = .restore → i < ev.position)

/-- Once a rewrite of a fragment has ended, none begins for it any more. -/
def EndsLast (events : List RewriteEvent) : Prop :=
  events.Pairwise fun a b => a.fragment = b.fragment → a.action = .restore → b.action = .restore

/-- What a walk through the fragments `fs` adds, if `start` items were there before. -/
structure Stretch (fs : List Fragment) (start : Nat) (events : List RewriteEvent)
    (items : List ManifestItem) : Prop where
  eventNames : ∀ ev ∈ events, ev.fragment ∈ Fragment.namesOf fs
  itemNames : ∀ it ∈ items, it.fragment ∈ Fragment.namesOf fs
  /-- The events of every fragment around an item enclose it. -/
  enclosed : ∀ i it, items[i]? = some it → ∀ g ∈ Fragment.around fs it.fragment, ∀ ev ∈ events,
    ev.fragment = g.name → ev.Encloses (start + i)
  ended : EndsLast events

variable {fs gs : List Fragment} {f : Fragment} {start : Nat}
  {events events' begins ends : List RewriteEvent} {items items' own : List ManifestItem}

namespace Fragment

theorem name_mem_namesOf_of_mem_around {g : Fragment} {n : String} (h : g ∈ around fs n) :
    g.name ∈ namesOf fs := by
  have hAll : g ∈ allOf fs := (List.mem_filter.mp h).1
  rw [← map_name_allOf]
  exact List.mem_map_of_mem hAll

end Fragment

theorem stretch_empty (fs : List Fragment) (start : Nat) : Stretch fs start [] [] where
  eventNames _ h := absurd h List.not_mem_nil
  itemNames _ h := absurd h List.not_mem_nil
  enclosed _ _ h := by simp at h
  ended := List.Pairwise.nil

theorem EndsLast.append (h : EndsLast events) (h' : EndsLast events')
    (hApart : ∀ a ∈ events, ∀ b ∈ events', a.fragment ≠ b.fragment) :
    EndsLast (events ++ events') := by
  refine List.pairwise_append.mpr ⟨h, h', ?_⟩
  intro a ha b hb hSame
  exact absurd hSame (hApart a ha b hb)

/-- Beginnings in front and ends behind leave it so, whatever fragment they belong to. -/
theorem EndsLast.around (h : EndsLast events) (hBegins : ∀ ev ∈ begins, ev.action = .apply)
    (hEnds : ∀ ev ∈ ends, ev.action = .restore) : EndsLast (begins ++ (events ++ ends)) := by
  have hFront {a b : RewriteEvent} (ha : a ∈ begins) (hEnd : a.action = .restore) :
      b.action = .restore := by
    rw [hBegins a ha] at hEnd
    exact absurd hEnd (by simp)
  -- an event in front is no end, and one behind is an end anyway
  refine List.pairwise_append.mpr ⟨?_, List.pairwise_append.mpr ⟨h, ?_, ?_⟩, ?_⟩
  · exact List.pairwise_of_forall_mem_list fun a ha b _ _ hEnd => hFront ha hEnd
  · exact List.pairwise_of_forall_mem_list fun a _ b hb _ _ => hEnds b hb
  · exact fun a _ b hb _ _ => hEnds b hb
  · exact fun a ha b _ _ hEnd => hFront ha hEnd

/-- Stretches behind one another make one, because no name belongs to both. -/
theorem Stretch.append (h : Stretch fs start events items)
    (h' : Stretch gs (start + items.length) events' items')
    (hNodup : (Fragment.namesOf (fs ++ gs)).Nodup) :
    Stretch (fs ++ gs) start (events ++ events') (items ++ items') := by
  rw [FragmentStore.namesOf_append, List.nodup_append] at hNodup
  obtain ⟨-, -, hDisjoint⟩ := hNodup
  refine
    { eventNames := ?eventNames, itemNames := ?itemNames, enclosed := ?enclosed, ended := ?ended }
  case eventNames =>
    intro ev hev
    rw [FragmentStore.namesOf_append]
    rcases List.mem_append.mp hev with hev | hev
    · exact List.mem_append_left _ (h.eventNames ev hev)
    · exact List.mem_append_right _ (h'.eventNames ev hev)
  case itemNames =>
    intro it hit
    rw [FragmentStore.namesOf_append]
    rcases List.mem_append.mp hit with hit | hit
    · exact List.mem_append_left _ (h.itemNames it hit)
    · exact List.mem_append_right _ (h'.itemNames it hit)
  case enclosed =>
    intro i it hi g hg ev hev hName
    rw [Fragment.around_append] at hg
    rcases Nat.lt_or_ge i items.length with hLt | hGe
    · -- around an item of the first stretch stand only fragments of the first list
      rw [List.getElem?_append_left hLt] at hi
      have hIn := h.itemNames it (List.mem_of_getElem? hi)
      have hNotIn : it.fragment ∉ Fragment.namesOf gs := fun hOther =>
        hDisjoint _ hIn _ hOther rfl
      rw [Fragment.around_eq_nil hNotIn, List.append_nil] at hg
      rcases List.mem_append.mp hev with hev | hev
      · exact h.enclosed i it hi g hg ev hev hName
      · -- an event of the second stretch belongs to none of these
        have hFirst := Fragment.name_mem_namesOf_of_mem_around hg
        exact absurd hName.symm (hDisjoint _ hFirst _ (h'.eventNames ev hev))
    · rw [List.getElem?_append_right hGe] at hi
      have hIn := h'.itemNames it (List.mem_of_getElem? hi)
      have hNotIn : it.fragment ∉ Fragment.namesOf fs := fun hOther =>
        hDisjoint _ hOther _ hIn rfl
      rw [Fragment.around_eq_nil hNotIn, List.nil_append] at hg
      rcases List.mem_append.mp hev with hev | hev
      · have hSecond := Fragment.name_mem_namesOf_of_mem_around hg
        exact absurd hName (hDisjoint _ (h.eventNames ev hev) _ hSecond)
      · have hPlace : start + i = start + items.length + (i - items.length) := by omega
        rw [hPlace]
        exact h'.enclosed _ it hi g hg ev hev hName
  case ended =>
    refine h.ended.append h'.ended fun a ha b hb => ?_
    exact hDisjoint _ (h.eventNames a ha) _ (h'.eventNames b hb)

/-- What begins in front of some items, and what ends behind them, encloses each of them. -/
theorem encloses_of_between {stop i : Nat} {ev : RewriteEvent}
    (hBegins : ∀ ev ∈ begins, ev.action = .apply ∧ ev.fragment = f.name ∧ ev.position = start)
    (hEnds : ∀ ev ∈ ends, ev.action = .restore ∧ ev.fragment = f.name ∧ ev.position = stop)
    (hev : ev ∈ begins ∨ ev ∈ ends) (hStart : start ≤ i) (hStop : i < stop) : ev.Encloses i := by
  rcases hev with hev | hev
  · obtain ⟨hAction, -, hPosition⟩ := hBegins ev hev
    refine ⟨fun _ => by omega, fun hRestore => ?_⟩
    rw [hAction] at hRestore
    exact absurd hRestore (by simp)
  · obtain ⟨hAction, -, hPosition⟩ := hEnds ev hev
    refine ⟨fun hApply => ?_, fun _ => by omega⟩
    rw [hAction] at hApply
    exact absurd hApply (by simp)

/-- A fragment begins its rewrites before its own items, and ends them behind the nested ones. -/
theorem stretch_around (hNodup : f.names.Nodup)
    (hBegins : ∀ ev ∈ begins, ev.action = .apply ∧ ev.fragment = f.name ∧ ev.position = start)
    (hOwn : ∀ it ∈ own, it.fragment = f.name)
    (h : Stretch f.children (start + own.length) events items)
    (hEnds : ∀ ev ∈ ends, ev.action = .restore ∧ ev.fragment = f.name ∧
      ev.position = start + own.length + items.length) :
    Stretch [f] start (begins ++ (events ++ ends)) (own ++ items) := by
  have hNames : Fragment.namesOf [f] = f.name :: Fragment.namesOf f.children := by
    rw [Fragment.namesOf, Fragment.namesOf, List.append_nil]
    cases f
    rw [Fragment.names]
  have hNot : f.name ∉ Fragment.namesOf f.children := by
    cases f
    rw [Fragment.names, List.nodup_cons] at hNodup
    exact hNodup.1
  refine
    { eventNames := ?eventNames, itemNames := ?itemNames, enclosed := ?enclosed, ended := ?ended }
  case eventNames =>
    intro ev hev
    rw [hNames]
    simp only [List.mem_append] at hev
    rcases hev with hev | hev | hev
    · rw [(hBegins ev hev).2.1]
      exact List.mem_cons_self
    · exact List.mem_cons_of_mem _ (h.eventNames ev hev)
    · rw [(hEnds ev hev).2.1]
      exact List.mem_cons_self
  case itemNames =>
    intro it hit
    rw [hNames]
    rcases List.mem_append.mp hit with hit | hit
    · rw [hOwn it hit]
      exact List.mem_cons_self
    · exact List.mem_cons_of_mem _ (h.itemNames it hit)
  case enclosed =>
    intro i it hi g hg ev hev hName
    have hTotal : i < own.length + items.length := by
      have hLt := (List.getElem?_eq_some_iff.mp hi).1
      rwa [List.length_append] at hLt
    -- the events of the fragment itself stand around everything
    have hOuter (hSelf : ev.fragment = f.name) : ev.Encloses (start + i) := by
      have hOwnEvent : ev ∈ begins ∨ ev ∈ ends := by
        simp only [List.mem_append] at hev
        rcases hev with hev | hev | hev
        · exact Or.inl hev
        · exact absurd (hSelf ▸ h.eventNames ev hev) hNot
        · exact Or.inr hev
      exact encloses_of_between hBegins hEnds hOwnEvent (by omega) (by omega)
    rcases Nat.lt_or_ge i own.length with hLt | hGe
    · -- around an item of its own there is nothing nested
      rw [List.getElem?_append_left hLt] at hi
      have hSelf : it.fragment = f.name := hOwn it (List.mem_of_getElem? hi)
      rw [hSelf, Fragment.around_self (Fragment.name_mem_names f), Fragment.around_eq_nil hNot,
        List.mem_singleton] at hg
      rw [hg] at hName
      exact hOuter hName
    · rw [List.getElem?_append_right hGe] at hi
      have hInner := h.itemNames it (List.mem_of_getElem? hi)
      have hIn : it.fragment ∈ f.names := by
        have hMem : it.fragment ∈ Fragment.namesOf [f] := hNames ▸ List.mem_cons_of_mem _ hInner
        rwa [Fragment.namesOf, Fragment.namesOf, List.append_nil] at hMem
      rw [Fragment.around_self hIn] at hg
      rcases List.mem_cons.mp hg with rfl | hg
      · exact hOuter hName
      · -- a nested fragment has only the events of the nested stretch
        have hNested := Fragment.name_mem_namesOf_of_mem_around hg
        simp only [List.mem_append] at hev
        rcases hev with hev | hev | hev
        · exact absurd ((hBegins ev hev).2.1 ▸ hName ▸ hNested) hNot
        · have hPlace : start + i = start + own.length + (i - own.length) := by omega
          rw [hPlace]
          exact h.enclosed _ it hi g hg ev hev hName
        · exact absurd ((hEnds ev hev).2.1 ▸ hName ▸ hNested) hNot
  case ended =>
    exact h.ended.around (fun ev hev => (hBegins ev hev).1) fun ev hev => (hEnds ev hev).1

/-! ## The walk -/

namespace Progress

variable {p q r : Progress}

/-- From `p` to `q` a walk through the fragments `fs` has added its stretch. -/
def Walked (fs : List Fragment) (p q : Progress) : Prop :=
  ∃ events items, q.engine.log = p.engine.log ++ events ∧
    q.collected.items = p.collected.items ++ items ∧
    Stretch fs p.collected.items.length events items

theorem walked_self (fs : List Fragment) (p : Progress) : p.Walked fs p :=
  ⟨[], [], (List.append_nil _).symm, (List.append_nil _).symm, stretch_empty _ _⟩

theorem Walked.trans (h : p.Walked fs q) (h' : q.Walked gs r)
    (hNodup : (Fragment.namesOf (fs ++ gs)).Nodup) : p.Walked (fs ++ gs) r := by
  obtain ⟨events, items, hLog, hItems, hStretch⟩ := h
  obtain ⟨events', items', hLog', hItems', hStretch'⟩ := h'
  rw [hItems, List.length_append] at hStretch'
  refine ⟨events ++ events', items ++ items', ?_, ?_, hStretch.append hStretch' hNodup⟩
  · rw [hLog', hLog, List.append_assoc]
  · rw [hItems', hItems, List.append_assoc]

/-- Collecting the items of one fragment does nothing else. -/
theorem perform_collect_eq_ok {fragment : String} {is : List Item}
    (h : p.perform (is.map (.collect fragment)) = .ok q) :
    q.engine = p.engine ∧ ∃ own, q.collected.items = p.collected.items ++ own ∧
      ∀ it ∈ own, it.fragment = fragment := by
  have hEngine : q.engine = p.engine := by
    rw [perform_collect, bind_eq_ok_iff] at h
    obtain ⟨c, -, hq⟩ := h
    rw [← Except.ok.inj hq]
  obtain ⟨own, hSub, hOwn⟩ := items_of_perform h
  refine ⟨hEngine, own, hOwn, ?_⟩
  intro it hit
  have hMem := hSub.subset hit
  rw [declarations_collect, List.mem_map] at hMem
  obtain ⟨item, -, rfl⟩ := hMem
  rfl

/-- The last action of a script logs the ends of the rewrites that its fragment has begun. -/
theorem act_leave_eq_ok {fragment : String} {rules : List RewriteRule} {stack : List Substitution}
    (hStack : p.engine.stack = (rules.map (·.substitution fragment)).reverse ++ stack)
    (h : p.act (.leave rules.length) = .ok q) :
    q.collected = p.collected ∧ ∃ ends, q.engine.log = p.engine.log ++ ends ∧
      ∀ ev ∈ ends, ev.action = .restore ∧ ev.fragment = fragment ∧
        ev.position = p.collected.items.length := by
  obtain rfl := act_leave_eq_ok_iff.mp h
  refine ⟨rfl, _, Engine.log_endMany, ?_⟩
  intro ev hev
  obtain ⟨hAction, hPosition, x, hx, hFragment⟩ := Engine.endEvents_origin hev
  have hTop : x ∈ (rules.map (·.substitution fragment)).reverse := by
    have hTake : (p.engine.active.map (·.substitution)).take rules.length
        = (rules.map (·.substitution fragment)).reverse := by
      show p.engine.stack.take _ = _
      rw [hStack]
      exact List.take_left' (by simp)
    rw [← hTake]
    exact hx
  obtain ⟨rule, -, rfl⟩ := List.mem_map.mp (List.mem_reverse.mp hTop)
  exact ⟨hAction, hFragment, hPosition⟩

end Progress

namespace Plan

variable {p q : Progress}

mutual
/-- Placing a fragment adds a stretch. -/
theorem walked_script (plan : Plan) (flags : FlagSet) :
    ∀ (f : Fragment) (p q : Progress), f.names.Nodup →
      p.perform (plan.script flags f) = .ok q → p.Walked [f] q
  | ⟨name, gate, items, constraints, children⟩, p, q, hNodup, h => by
    rw [script, Progress.perform, bind_eq_ok_iff] at h
    obtain ⟨p₁, hEnter, h⟩ := h
    rw [Progress.perform_append, bind_eq_ok_iff] at h
    obtain ⟨p₂, hCollect, h⟩ := h
    rw [Progress.perform_append, bind_eq_ok_iff] at h
    obtain ⟨p₃, hOpen, h⟩ := h
    rw [Progress.perform, bind_eq_ok_iff] at h
    obtain ⟨q', hLeave, hq⟩ := h
    obtain rfl := Except.ok.inj hq
    -- what each of the four parts adds
    obtain ⟨hEngine, hCollected⟩ := Progress.act_enter_eq_ok_iff.mp hEnter
    obtain ⟨begins, hBeginLog, hBegins⟩ := Engine.log_applyAll hEngine
    obtain ⟨hSame, own, hOwnItems, hOwn⟩ := Progress.perform_collect_eq_ok hCollect
    have hChildren : (Fragment.namesOf children).Nodup := by
      rw [Fragment.names, List.nodup_cons] at hNodup
      exact hNodup.2
    obtain ⟨events, nested, hEventLog, hNestedItems, hStretch⟩ :=
      walked_scriptOpen plan flags children p₂ p₃ hChildren hOpen
    have hStack : p₃.engine.stack
        = ((plan.rulesFor flags name).map (·.substitution name)).reverse ++ p.engine.stack := by
      rw [Progress.stack_of_perform hOpen, stackAfter_scriptOpen, hSame,
        Engine.stack_of_applyAll hEngine]
      rfl
    obtain ⟨hKept, ends, hEndLog, hEnds⟩ := Progress.act_leave_eq_ok hStack hLeave
    have hStart : p₁.collected.items = p.collected.items := by
      rw [hCollected]
      rfl
    rw [hStart] at hOwnItems
    rw [hOwnItems, List.length_append] at hStretch
    rw [hNestedItems, hOwnItems, List.length_append, List.length_append] at hEnds
    refine ⟨begins ++ (events ++ ends), own ++ nested, ?_, ?_,
      stretch_around hNodup hBegins hOwn hStretch hEnds⟩
    · show q'.engine.log = p.stamp.engine.log ++ _
      rw [hEndLog, hEventLog, hSame, hBeginLog, List.append_assoc, List.append_assoc]
    · rw [hKept, hNestedItems, hOwnItems, List.append_assoc]

theorem walked_scriptOpen (plan : Plan) (flags : FlagSet) :
    ∀ (fs : List Fragment) (p q : Progress), (Fragment.namesOf fs).Nodup →
      p.perform (plan.scriptOpen flags fs) = .ok q → p.Walked fs q
  | [], p, q, _, h => by
    obtain rfl := Except.ok.inj h
    exact p.walked_self []
  | f :: fs, p, q, hNodup, h => by
    have hParts := hNodup
    rw [Fragment.namesOf, List.nodup_append] at hParts
    rw [scriptOpen] at h
    split at h
    · rw [Progress.perform_append, bind_eq_ok_iff] at h
      obtain ⟨p₁, hFirst, hRest⟩ := h
      exact (walked_script plan flags f p p₁ hParts.1 hFirst).trans
        (walked_scriptOpen plan flags fs p₁ q hParts.2.1 hRest) hNodup
    · -- a closed fragment adds nothing
      exact (p.walked_self [f]).trans
        (walked_scriptOpen plan flags fs p q hParts.2.1 h) hNodup
end

variable {plan : Plan} {flags : FlagSet}

theorem walked_scriptAll (hNodup : (Fragment.namesOf fs).Nodup)
    (h : p.perform (plan.scriptAll flags fs) = .ok q) : p.Walked fs q := by
  induction fs generalizing p with
  | nil =>
    obtain rfl := Except.ok.inj h
    exact p.walked_self []
  | cons f fs ih =>
    have hParts := hNodup
    rw [Fragment.namesOf, List.nodup_append] at hParts
    rw [scriptAll, List.flatMap_cons, ← scriptAll, Progress.perform_append, bind_eq_ok_iff] at h
    obtain ⟨p₁, hFirst, hRest⟩ := h
    exact (walked_script plan flags f p p₁ hParts.1 hFirst).trans (ih hParts.2.1 hRest) hNodup

end Plan

end DeclSurface
