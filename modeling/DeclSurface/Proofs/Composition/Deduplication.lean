import DeclSurface.Proofs.Composition.Success

/-!
# Deduplication

The items of a manifest are those of its fragments without the repetitions, and a repetition that
may do harm ends the composition. Which item came first, and which one does harm, is said here of
all items that are processed, the dropped ones included; collecting remembers only those it keeps.

* `ItemKind.Same`        — two payloads that are one declaration; `identity_eq_iff`.
* `processed`            — all items of fragments that are placed, in order.
* `withoutRepeats`       — the items whose identity has not occurred before them.
* `EarliestClash`        — the earliest item whose repetition of another may do harm.
* `items_eq_withoutRepeats`, `earliestClash_of_perform` — what a script collects and how it fails.
* `compose_deduplicates` — the same of manifests and failed compositions.
-/

namespace DeclSurface

/-! ## Identities -/

/-- Two payloads are one declaration: an included path, the key of a text or a macro. -/
def ItemKind.Same : ItemKind → ItemKind → Prop
  | .header path _, .header path' _ => path = path'
  | .text t id, .text t' id' => id.getD t = id'.getD t'
  | .initializer macroName _, .initializer macroName' _ => macroName = macroName'
  | _, _ => False

/-- The word in front of an identity. -/
def ItemKind.tag : ItemKind → String
  | .header _ _ => "include:"
  | .text _ _ => "text:"
  | .initializer _ _ => "initializer:"

/-- What is identified among the items of a sort. -/
def ItemKind.key : ItemKind → String
  | .header path _ => path
  | .text t id => id.getD t
  | .initializer macroName _ => macroName

theorem Item.identity_eq (i : Item) : i.identity = i.kind.tag ++ i.kind.key := by
  obtain ⟨kind, _⟩ := i
  cases kind with
  | header | initializer => rfl
  | text t id => cases id <;> rfl

/-- An identity tells which sort of declaration it belongs to, whatever its key contains. -/
theorem Item.identity_eq_iff (i j : Item) : i.identity = j.identity ↔ i.kind.Same j.kind := by
  rw [identity_eq, identity_eq, ← String.toList_inj, String.toList_append, String.toList_append]
  cases i.kind <;> cases j.kind <;>
    simp [ItemKind.tag, ItemKind.key, ItemKind.Same, String.toList_inj]

/-! ## First occurrences -/

variable {is js before : List ManifestItem} {i first : ManifestItem} {identity : String}

/-- The first item with an identity. -/
def firstOf (is : List ManifestItem) (identity : String) : Option ManifestItem :=
  is.find? (·.item.identity == identity)

/-- The items whose identity has not occurred before them, be it in `before` or in the list. -/
def withoutRepeats (before : List ManifestItem) : List ManifestItem → List ManifestItem
  | [] => []
  | i :: is =>
    if firstOf before i.item.identity = none then i :: withoutRepeats (before ++ [i]) is
    else withoutRepeats (before ++ [i]) is

/-- The item repeats `first`, the first of its identity, and one of the two is not harmless. -/
def Clashes (before : List ManifestItem) (first i : ManifestItem) : Prop :=
  firstOf before i.item.identity = some first ∧
    ¬ (first.item.idempotent = true ∧ i.item.idempotent = true)

/-- `i` is the first item of the list that clashes, and it clashes with `first`. -/
def EarliestClash (is : List ManifestItem) (first i : ManifestItem) : Prop :=
  ∃ before after, is = before ++ i :: after ∧ Clashes before first i ∧
    ∀ pre j post, before = pre ++ j :: post → ∀ k, ¬ Clashes pre k j

theorem firstOf_append (is js : List ManifestItem) (identity : String) :
    firstOf (is ++ js) identity = (firstOf is identity).or (firstOf js identity) :=
  List.find?_append

theorem withoutRepeats_append (before is js : List ManifestItem) :
    withoutRepeats before (is ++ js)
      = withoutRepeats before is ++ withoutRepeats (before ++ is) js := by
  induction is generalizing before with
  | nil => simp [withoutRepeats]
  | cons i is ih =>
    have hRest := ih (before ++ [i])
    rw [List.append_assoc, List.singleton_append] at hRest
    rw [List.cons_append, withoutRepeats, withoutRepeats, hRest]
    split <;> simp

/-- What is dropped is never the first of its identity. -/
theorem firstOf_withoutRepeats (before is : List ManifestItem) (identity : String) :
    firstOf (before ++ withoutRepeats before is) identity = firstOf (before ++ is) identity := by
  induction is generalizing before with
  | nil => rfl
  | cons i is ih =>
    have hRest := ih (before ++ [i])
    rw [List.append_assoc, List.append_assoc, List.singleton_append, List.singleton_append] at hRest
    rw [withoutRepeats, ← hRest]
    split
    · rfl
    -- a dropped item has an earlier one of its identity, so it is no first
    · rename_i hOld
      obtain ⟨k, hk⟩ := Option.ne_none_iff_exists'.mp hOld
      have hCons := firstOf_append [i] (withoutRepeats (before ++ [i]) is) identity
      rw [List.singleton_append] at hCons
      rw [firstOf_append, firstOf_append, hCons]
      by_cases hSame : i.item.identity = identity
      · -- the identity has been found before the item
        rw [← hSame, hk, Option.some_or, Option.some_or]
      · have hOther : firstOf [i] identity = none := by simp [firstOf, hSame]
        rw [hOther, Option.none_or]

theorem isSome_firstOf_iff :
    (firstOf is identity).isSome ↔ identity ∈ is.map (·.item.identity) := by
  simp [firstOf, List.find?_isSome]

/-- No identity is lost. -/
theorem mem_map_identity_withoutRepeats :
    identity ∈ (withoutRepeats [] is).map (·.item.identity) ↔
      identity ∈ is.map (·.item.identity) := by
  have hFirst := firstOf_withoutRepeats [] is identity
  rw [List.nil_append, List.nil_append] at hFirst
  rw [← isSome_firstOf_iff, ← isSome_firstOf_iff, hFirst]

theorem withoutRepeats_new (h : i ∈ withoutRepeats before is) :
    firstOf before i.item.identity = none := by
  induction is generalizing before with
  | nil => simp [withoutRepeats] at h
  | cons j is ih =>
    have hRest : i ∈ withoutRepeats (before ++ [j]) is → firstOf before i.item.identity = none := by
      intro hi
      have hNone := ih hi
      rw [firstOf_append, Option.or_eq_none_iff] at hNone
      exact hNone.1
    rw [withoutRepeats] at h
    split at h
    · rename_i hNew
      rcases List.mem_cons.mp h with rfl | hi
      · exact hNew
      · exact hRest hi
    · exact hRest h

/-- No identity is kept twice. -/
theorem nodup_withoutRepeats : ((withoutRepeats before is).map (·.item.identity)).Nodup := by
  induction is generalizing before with
  | nil => exact List.nodup_nil
  | cons i is ih =>
    rw [withoutRepeats]
    split
    · rw [List.map_cons, List.nodup_cons]
      refine ⟨?_, ih⟩
      -- behind the item its identity counts as seen
      intro hMem
      obtain ⟨j, hj, hSame⟩ := List.mem_map.mp hMem
      have hNone := withoutRepeats_new hj
      rw [firstOf_append, hSame, Option.or_eq_none_iff] at hNone
      simp [firstOf] at hNone
    · exact ih

/-- Among items that are harmless to each other nothing clashes. -/
theorem not_clashes_of_pairwise (h : is.Pairwise HarmlessPair) {pre post : List ManifestItem}
    (hSplit : is = pre ++ i :: post) : ¬ Clashes pre first i := by
  rintro ⟨hFirst, hHarmful⟩
  have hMem : first ∈ pre := List.mem_of_find?_eq_some hFirst
  have hSame : first.item.identity = i.item.identity := by
    simpa using List.find?_some hFirst
  rw [hSplit, List.pairwise_append] at h
  exact hHarmful (h.2.2 first hMem i List.mem_cons_self hSame)

/-! ## Collecting -/

namespace Collected

variable {c : Collected} {fragment : String} {item : Item} {e : ComposeError}

theorem add_eq_error_iff :
    c.add fragment item = .error e ↔
      ∃ first, Clashes c.items first ⟨fragment, item⟩ ∧
        e = .duplicateDeclaration item.identity first.fragment fragment := by
  have hFind : c.find? item.identity = firstOf c.items item.identity := rfl
  rw [add, hFind]
  simp only [Clashes]
  cases firstOf c.items item.identity with
  | none => simp
  | some first =>
    have hSwap := eq_comm (a := e)
      (b := .duplicateDeclaration item.identity first.fragment fragment)
    cases hFirst : first.item.idempotent <;> cases hItem : item.idempotent <;>
      simp [hFirst, hSwap]

end Collected

namespace Progress

variable {p q : Progress} {a : Action} {as : List Action} {flags : FlagSet} {e : ComposeError}

theorem items_of_act (hItems : p.collected.items = withoutRepeats [] before)
    (h : p.act a = .ok q) :
    q.collected.items = withoutRepeats [] (before ++ a.item?.toList) := by
  cases a with
  | enter fragment rules =>
    rw [(act_enter_eq_ok_iff.mp h).2]
    simpa [Action.item?, Collected.enter] using hItems
  | leave count =>
    obtain rfl := act_leave_eq_ok_iff.mp h
    simpa [Action.item?] using hItems
  | collect fragment item =>
    obtain ⟨hAdd, -⟩ := act_collect_eq_ok_iff.mp h
    -- the first of an identity is the same among the items kept and among all
    have hFind : p.collected.find? item.identity = firstOf before item.identity := by
      have hFirst := firstOf_withoutRepeats [] before item.identity
      rw [List.nil_append, List.nil_append, ← hItems] at hFirst
      exact hFirst
    rw [Action.item?, Option.toList_some, withoutRepeats_append, List.nil_append, withoutRepeats,
      withoutRepeats, ← hItems]
    rcases Collected.add_eq_ok_iff.mp hAdd with ⟨hNone, hEq⟩ | ⟨first, hSome, -, -, hEq⟩
    · rw [hFind] at hNone
      rw [hEq, if_pos hNone]
    · rw [hFind] at hSome
      rw [hEq, if_neg (by simp [hSome]), List.append_nil]

/-- The items that a script collects are those it goes through, without the repetitions. -/
theorem items_eq_withoutRepeats (hItems : p.collected.items = withoutRepeats [] before)
    (h : p.perform as = .ok q) :
    q.collected.items = withoutRepeats [] (before ++ as.filterMap Action.item?) := by
  induction as generalizing p before with
  | nil =>
    obtain rfl := Except.ok.inj h
    simpa using hItems
  | cons a as ih =>
    rw [perform, bind_eq_ok_iff] at h
    obtain ⟨p₁, hAct, hRest⟩ := h
    rw [item?_cons, ← List.append_assoc]
    exact ih (items_of_act hItems hAct) hRest

theorem items_of_perform_start (h : (start flags).perform as = .ok q) :
    q.collected.items = withoutRepeats [] (as.filterMap Action.item?) := by
  have hStart : (start flags).collected.items = withoutRepeats [] [] := rfl
  exact items_eq_withoutRepeats hStart h

/-- A script that fails does so at one of its actions, after the others before it. -/
theorem perform_eq_error_iff :
    p.perform as = .error e ↔
      ∃ bs a cs q, as = bs ++ a :: cs ∧ p.perform bs = .ok q ∧ q.act a = .error e := by
  induction as generalizing p with
  | nil => simp [perform]
  | cons a as ih =>
    rw [perform, bind_eq_error_iff]
    constructor
    · rintro (hAct | ⟨p₁, hAct, hRest⟩)
      · exact ⟨[], a, as, p, rfl, rfl, hAct⟩
      · obtain ⟨bs, b, cs, q, rfl, hBefore, hError⟩ := ih.mp hRest
        refine ⟨a :: bs, b, cs, q, rfl, ?_, hError⟩
        rw [perform, hAct, ok_bind, hBefore]
    · rintro ⟨bs, b, cs, q, hSplit, hBefore, hError⟩
      cases bs with
      | nil =>
        obtain ⟨rfl, rfl⟩ := List.cons.inj hSplit
        obtain rfl := Except.ok.inj hBefore
        exact Or.inl hError
      | cons b' bs =>
        obtain ⟨rfl, rfl⟩ := List.cons.inj hSplit
        rw [perform, bind_eq_ok_iff] at hBefore
        obtain ⟨p₁, hAct, hBefore⟩ := hBefore
        exact Or.inr ⟨p₁, hAct, ih.mpr ⟨bs, b, cs, q, rfl, hBefore, hError⟩⟩

end Progress

/-! ## Repetitions that do harm -/

/-- Rewrites are begun without a look at the items. -/
theorem Engine.applyAll_ne_duplicateDeclaration {engine : Engine} {rules : List RewriteRule}
    {fragment first second : String} :
    engine.applyAll fragment rules ≠ .error (.duplicateDeclaration identity first second) := by
  induction rules generalizing engine with
  | nil => simp [applyAll]
  | cons r rs ih =>
    intro h
    rw [applyAll, bind_eq_error_iff] at h
    rcases h with h | ⟨engine₁, -, h⟩
    · unfold apply at h
      split at h
      · split at h <;> simp at h
      · simp at h
    · exact ih h

namespace Progress

variable {p : Progress} {a : Action} {as : List Action} {flags : FlagSet}

theorem act_eq_duplicateDeclaration {first second : String}
    (h : p.act a = .error (.duplicateDeclaration identity first second)) :
    ∃ k i, a.item? = some i ∧ Clashes p.collected.items k i ∧ identity = i.item.identity ∧
      first = k.fragment ∧ second = i.fragment := by
  cases a with
  | enter fragment rules =>
    rcases bind_eq_error_iff.mp h with h | ⟨engine, -, h⟩
    · exact (Engine.applyAll_ne_duplicateDeclaration h).elim
    · simp at h
  | collect fragment item =>
    rcases bind_eq_error_iff.mp h with h | ⟨collected, -, h⟩
    · obtain ⟨k, hClashes, hError⟩ := Collected.add_eq_error_iff.mp h
      obtain ⟨hIdentity, hFirst, hSecond⟩ := ComposeError.duplicateDeclaration.inj hError
      exact ⟨k, ⟨fragment, item⟩, rfl, hClashes, hIdentity, hFirst, hSecond⟩
    · simp at h
  | leave count => simp [act] at h

/-- A script that finds a repetition has found the earliest of those that do harm. -/
theorem earliestClash_of_perform {first second : String}
    (h : (start flags).perform as = .error (.duplicateDeclaration identity first second)) :
    ∃ k i, EarliestClash (as.filterMap Action.item?) k i ∧ identity = i.item.identity ∧
      first = k.fragment ∧ second = i.fragment := by
  obtain ⟨bs, a, cs, q, rfl, hBefore, hAct⟩ := perform_eq_error_iff.mp h
  obtain ⟨k, i, hItem, ⟨hFirst, hHarmful⟩, hIdentity, hNames⟩ := act_eq_duplicateDeclaration hAct
  refine ⟨k, i, ⟨bs.filterMap Action.item?, cs.filterMap Action.item?, ?_, ⟨?_, hHarmful⟩, ?_⟩,
    hIdentity, hNames⟩
  · rw [List.filterMap_append, item?_cons, hItem, Option.toList_some, List.singleton_append]
  · -- the first among the items kept is the first among all
    have hSame := firstOf_withoutRepeats [] (bs.filterMap Action.item?) i.item.identity
    rw [List.nil_append, List.nil_append] at hSame
    rwa [items_of_perform_start hBefore, hSame] at hFirst
  · -- the actions before went through, so their items are harmless to each other
    have hAccepts := ((exists_perform_iff (Engine.sound_of_active_eq_nil rfl)).mp ⟨q, hBefore⟩).2
    intro pre j post hSplit k
    exact not_clashes_of_pairwise (Collected.accepts_empty_iff.mp hAccepts) hSplit

end Progress

/-! ## Compositions -/

/-- All items that fragments bring along, their own before those nested in them. -/
def Fragment.processed (flags : FlagSet) (fs : List Fragment) : List ManifestItem :=
  (fs.flatMap (Fragment.reached flags)).flatMap Fragment.declared

namespace Plan

variable {plan : Plan} {store : FragmentStore} {flags : FlagSet} {order : List Fragment}
  {m : Manifest}

/-- No item that is reached lacks its identity in what the fragments bring along. -/
theorem identity_mem_processed (hPerm : order.Perm (plan.included store flags)) {f : Fragment}
    (hf : f ∈ plan.reached store flags) {item : Item} (hItem : item ∈ f.items) :
    item.identity ∈ (Fragment.processed flags order).map (·.item.identity) := by
  have hReached : f ∈ order.flatMap (Fragment.reached flags) :=
    (hPerm.flatMap_right _).mem_iff.mpr hf
  have hDeclared : (⟨f.name, item⟩ : ManifestItem) ∈ f.declared := List.mem_map_of_mem hItem
  exact List.mem_map_of_mem (List.mem_flatMap.mpr ⟨f, hReached, hDeclared⟩)

theorem items_of_compose (h : plan.compose store flags = .ok m) :
    ∃ order, ordered (plan.included store (plan.effectiveFlags flags)) = .ok order ∧
      m.items = withoutRepeats [] (Fragment.processed (plan.effectiveFlags flags) order) := by
  obtain ⟨-, order, hOrder, p, hPerform, rfl⟩ := compose_eq_ok_iff.mp h
  have hItems := Progress.items_of_perform_start hPerform
  rw [declarations_scriptAll] at hItems
  exact ⟨order, hOrder, hItems⟩

theorem earliestClash_of_compose {identity first second : String}
    (h : plan.compose store flags = .error (.duplicateDeclaration identity first second)) :
    ∃ order, ordered (plan.included store (plan.effectiveFlags flags)) = .ok order ∧
      ∃ k i, EarliestClash (Fragment.processed (plan.effectiveFlags flags) order) k i ∧
        identity = i.item.identity ∧ first = k.fragment ∧ second = i.fragment := by
  rw [compose_eq_perform] at h
  rcases check_bind_eq_error_iff.mp h with h | ⟨-, h⟩
  · exact (isStatic_of_validate h).elim
  rcases bind_eq_error_iff.mp h with h | ⟨order, hOrder, h⟩
  · obtain ⟨names, hCycle⟩ := error_of_ordered h
    simp at hCycle
  rcases bind_eq_error_iff.mp h with h | ⟨_, -, h⟩
  · have hClash := Progress.earliestClash_of_perform h
    rw [declarations_scriptAll] at hClash
    exact ⟨order, hOrder, hClash⟩
  · simp at h

/--
The items of a manifest are those of its fragments, in the order in which these are placed, less
every item whose identity has occurred before. A composition that fails over a repetition names
the earliest one that does harm and what it repeats.
-/
theorem compose_deduplicates (plan : Plan) (store : FragmentStore) (flags : FlagSet) :
    (∀ m, plan.compose store flags = .ok m →
      (∃ order, ordered (plan.included store (plan.effectiveFlags flags)) = .ok order ∧
        m.items = withoutRepeats [] (Fragment.processed (plan.effectiveFlags flags) order)) ∧
      (m.items.map (·.item.identity)).Nodup ∧
      ∀ f ∈ plan.reached store (plan.effectiveFlags flags), ∀ item ∈ f.items,
        item.identity ∈ m.items.map (·.item.identity)) ∧
    (∀ identity first second,
      plan.compose store flags = .error (.duplicateDeclaration identity first second) →
      ∃ order, ordered (plan.included store (plan.effectiveFlags flags)) = .ok order ∧
        ∃ k i, EarliestClash (Fragment.processed (plan.effectiveFlags flags) order) k i ∧
          identity = i.item.identity ∧ first = k.fragment ∧ second = i.fragment) ∧
    ∀ i j : Item, i.identity = j.identity ↔ i.kind.Same j.kind := by
  refine ⟨?_, fun _ _ _ => earliestClash_of_compose, Item.identity_eq_iff⟩
  intro m h
  obtain ⟨order, hOrder, hItems⟩ := items_of_compose h
  refine ⟨⟨order, hOrder, hItems⟩, ?_, ?_⟩
  · rw [hItems]
    exact nodup_withoutRepeats
  · intro f hf item hItem
    have hPerm := (stableOrder_of_ordered nodup_included_names hOrder).perm
    rw [hItems, mem_map_identity_withoutRepeats]
    exact identity_mem_processed hPerm hf hItem

/-- A header that a nested fragment declares again, first harmlessly and then not. -/
def Sample.repeating : FragmentStore :=
  ⟨[{ name := "outer", gate := .always, constraints := []
      items := [⟨.header "a.h" false, true⟩]
      children :=
       [{ name := "inner", gate := .always, constraints := [], children := []
          items := [⟨.header "a.h" true, true⟩, ⟨.header "a.h" false, false⟩] }] }], by decide⟩

theorem compose_deduplicates_sample :
    (∃ m, Sample.plan.compose Sample.store .empty = .ok m ∧
      m.items.map (·.fragment) = ["early", "open", "open"] ∧
      (m.items.map (·.item.identity)).Nodup) ∧
    ∃ order, ordered (Plan.included {} Sample.repeating .empty) = .ok order ∧
      ∃ k i, EarliestClash (Fragment.processed .empty order) k i ∧
        "include:a.h" = i.item.identity ∧ "outer" = k.fragment ∧ "inner" = i.fragment :=
  ⟨⟨_, rfl, rfl, ((compose_deduplicates Sample.plan Sample.store .empty).1 _ rfl).2.1⟩,
    (compose_deduplicates {} Sample.repeating .empty).2.1 _ _ _ rfl⟩

end Plan

end DeclSurface
