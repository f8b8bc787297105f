import DeclSurface.Proofs.Composition.Script

/-!
# What a script collects

The fragments that a script enters are entered in the manifest one for one; of the items that it
collects, those that repeat an earlier one may be dropped.

* `Fragment.declared`       — the items of a fragment, tagged with its name.
* `fragments_of_perform`, `items_of_perform` — what a script adds.
* `names_script`, `declarations_script`      — what the script of a fragment enters and collects.
-/

namespace DeclSurface

/-- The fragment that an action enters. -/
def Action.name? : Action → Option String
  | .enter fragment _ => some fragment
  | .collect _ _ => none
  | .leave _ => none

/-- The item that an action collects, with its fragment. -/
def Action.item? : Action → Option ManifestItem
  | .enter _ _ => none
  | .collect fragment item => some ⟨fragment, item⟩
  | .leave _ => none

/-- The items of a fragment, tagged with its name. -/
def Fragment.declared (f : Fragment) : List ManifestItem :=
  f.items.map fun item => ⟨f.name, item⟩

namespace Collected

variable {c c' : Collected} {fragment : String} {item : Item}

/-- An item is collected when it is new, and dropped when both it and the first are harmless. -/
theorem add_eq_ok_iff :
    c.add fragment item = .ok c' ↔
      (c.find? item.identity = none ∧ c' = { c with items := c.items ++ [⟨fragment, item⟩] }) ∨
      ∃ first, c.find? item.identity = some first ∧
        first.item.idempotent = true ∧ item.idempotent = true ∧ c' = c := by
  unfold add
  cases c.find? item.identity with
  | none =>
    simp only [true_and, reduceCtorEq, false_and, exists_false, or_false, Except.ok.injEq]
    exact eq_comm
  | some first =>
    by_cases hIdempotent : (first.item.idempotent && item.idempotent) = true
    · obtain ⟨hFirst, hItem⟩ := Bool.and_eq_true_iff.mp hIdempotent
      simp only [hFirst, hItem, Bool.and_self, if_true, reduceCtorEq, false_and, false_or,
        Option.some.injEq, exists_eq_left', true_and, Except.ok.injEq]
      exact eq_comm
    · simp only [if_neg hIdempotent]
      rw [Bool.and_eq_true] at hIdempotent
      constructor
      · simp
      · rintro (⟨hNone, -⟩ | ⟨_, hSome, hFirst, hItem, -⟩)
        · simp at hNone
        · obtain rfl := Option.some.inj hSome
          exact absurd ⟨hFirst, hItem⟩ hIdempotent

end Collected

namespace Progress

variable {p q : Progress} {as : List Action}

theorem fragments_of_perform (h : p.perform as = .ok q) :
    q.collected.fragments = p.collected.fragments ++ as.filterMap Action.name? := by
  induction as generalizing p with
  | nil =>
    obtain rfl := Except.ok.inj h
    simp
  | cons a as ih =>
    rw [perform, bind_eq_ok_iff] at h
    obtain ⟨p₁, hAct, hRest⟩ := h
    rw [ih hRest]
    cases a with
    | enter fragment rules =>
      obtain ⟨-, hCollected⟩ := act_enter_eq_ok_iff.mp hAct
      rw [hCollected, Collected.enter, List.append_assoc]
      rfl
    | collect fragment item =>
      obtain ⟨hAdd, -⟩ := act_collect_eq_ok_iff.mp hAct
      rcases Collected.add_eq_ok_iff.mp hAdd with ⟨-, hCollected⟩ | ⟨_, -, -, -, hCollected⟩
      · rw [hCollected]
        rfl
      · rw [hCollected]
        rfl
    | leave count =>
      obtain rfl := act_leave_eq_ok_iff.mp hAct
      rfl

/-- New items are among those that the actions collect, in the same order. -/
theorem items_of_perform (h : p.perform as = .ok q) :
    ∃ items, items.Sublist (as.filterMap Action.item?) ∧
      q.collected.items = p.collected.items ++ items := by
  induction as generalizing p with
  | nil =>
    obtain rfl := Except.ok.inj h
    exact ⟨[], List.nil_sublist _, (List.append_nil _).symm⟩
  | cons a as ih =>
    rw [perform, bind_eq_ok_iff] at h
    obtain ⟨p₁, hAct, hRest⟩ := h
    obtain ⟨items, hSub, hItems⟩ := ih hRest
    cases a with
    | enter fragment rules =>
      obtain ⟨-, hCollected⟩ := act_enter_eq_ok_iff.mp hAct
      rw [hCollected] at hItems
      exact ⟨items, hSub, hItems⟩
    | collect fragment item =>
      obtain ⟨hAdd, -⟩ := act_collect_eq_ok_iff.mp hAct
      rcases Collected.add_eq_ok_iff.mp hAdd with ⟨-, hCollected⟩ | ⟨_, -, -, -, hCollected⟩
      · rw [hCollected, List.append_assoc] at hItems
        exact ⟨⟨fragment, item⟩ :: items, hSub.cons_cons _, hItems⟩
      · rw [hCollected] at hItems
        exact ⟨items, hSub.cons _, hItems⟩
    | leave count =>
      obtain rfl := act_leave_eq_ok_iff.mp hAct
      exact ⟨items, hSub, hItems⟩

end Progress

/-! ## Scripts of fragments -/

theorem names_collect (fragment : String) (items : List Item) :
    (items.map (Action.collect fragment)).filterMap Action.name? = [] := by
  induction items with
  | nil => rfl
  | cons i is ih => exact ih

theorem declarations_collect (fragment : String) (items : List Item) :
    (items.map (Action.collect fragment)).filterMap Action.item?
      = items.map fun item => ⟨fragment, item⟩ := by
  rw [List.filterMap_map]
  exact congrFun List.filterMap_eq_map' items

namespace Plan

mutual
theorem names_script (plan : Plan) (flags : FlagSet) :
    ∀ f : Fragment, (plan.script flags f).filterMap Action.name? = f.block flags
  | ⟨name, _, items, _, children⟩ => by
    rw [script, List.filterMap_cons, Action.name?, List.filterMap_append, names_collect,
      List.filterMap_append, names_scriptOpen plan flags children, Fragment.block,
      Fragment.reached, List.map_cons]
    simp [Action.name?]

theorem names_scriptOpen (plan : Plan) (flags : FlagSet) :
    ∀ fs : List Fragment,
      (plan.scriptOpen flags fs).filterMap Action.name?
        = (Fragment.reachedOf flags fs).map (·.name)
  | [] => rfl
  | f :: fs => by
    rw [scriptOpen, Fragment.reachedOf]
    split
    · rw [List.filterMap_append, List.map_append, names_script plan flags f,
        names_scriptOpen plan flags fs, Fragment.block]
    · exact names_scriptOpen plan flags fs
end

mutual
theorem declarations_script (plan : Plan) (flags : FlagSet) :
    ∀ f : Fragment,
      (plan.script flags f).filterMap Action.item? = (f.reached flags).flatMap Fragment.declared
  | ⟨name, _, items, _, children⟩ => by
    rw [script, List.filterMap_cons, Action.item?, List.filterMap_append, declarations_collect,
      List.filterMap_append, declarations_scriptOpen plan flags children, Fragment.reached,
      List.flatMap_cons]
    simp [Action.item?, Fragment.declared]

theorem declarations_scriptOpen (plan : Plan) (flags : FlagSet) :
    ∀ fs : List Fragment,
      (plan.scriptOpen flags fs).filterMap Action.item?
        = (Fragment.reachedOf flags fs).flatMap Fragment.declared
  | [] => rfl
  | f :: fs => by
    rw [scriptOpen, Fragment.reachedOf]
    split
    · rw [List.filterMap_append, List.flatMap_append, declarations_script plan flags f,
        declarations_scriptOpen plan flags fs]
    · exact declarations_scriptOpen plan flags fs
end

variable {plan : Plan} {flags : FlagSet} {fs : List Fragment}

theorem names_scriptAll :
    (plan.scriptAll flags fs).filterMap Action.name? = fs.flatMap (Fragment.block flags) := by
  rw [scriptAll, List.filterMap_flatMap]
  simp only [names_script]

theorem declarations_scriptAll :
    (plan.scriptAll flags fs).filterMap Action.item?
      = (fs.flatMap (Fragment.reached flags)).flatMap Fragment.declared := by
  rw [scriptAll, List.filterMap_flatMap, List.flatMap_assoc]
  simp only [declarations_script]

end Plan

end DeclSurface
