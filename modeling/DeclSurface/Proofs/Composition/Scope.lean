import DeclSurface.Proofs.Composition.Collection

/-!
# Rules in force

Which rules apply while a fragment's items are collected: those scoped to it or to a fragment
around it. The walk keeps them on a stack, and along every script the stack holds just these.

* `Fragment.around`       — a fragment's place in its tree, outermost first.
* `Plan.InForce`          — the rules that apply to a fragment.
* `moments`               — the stack of a script, fragment by fragment.
* `reverse_of_mem_moments_scriptAll` — the stack of a fragment is read off its place in the tree.
-/

namespace DeclSurface

namespace Fragment

variable {fs gs : List Fragment} {f t : Fragment} {n : String}

/-- The fragment of a name with those around it, outermost first. -/
def around (fs : List Fragment) (n : String) : List Fragment :=
  (allOf fs).filter (·.names.contains n)

/-- A fragment is one of its own scopes. -/
theorem mem_around_self (hf : f ∈ allOf fs) : f ∈ around fs f.name :=
  List.mem_filter.mpr ⟨hf, List.contains_iff_mem.mpr f.name_mem_names⟩

theorem around_eq_nil (h : n ∉ namesOf fs) : around fs n = [] := by
  unfold around
  rw [List.filter_eq_nil_iff]
  intro f hf
  rw [List.contains_iff_mem]
  exact fun hn => h (names_subset_of_mem_allOf hf hn)

theorem around_cons (f : Fragment) (fs : List Fragment) (n : String) :
    around (f :: fs) n = around [f] n ++ around fs n := by
  unfold around
  rw [allOf, List.filter_append, allOf, allOf, List.append_nil]

theorem around_self (hn : n ∈ names t) : around [t] n = t :: around t.children n := by
  have hContains : t.names.contains n = true := List.contains_iff_mem.mpr hn
  rw [around, allOf, allOf, List.append_nil, all_eq_cons, List.filter_cons, if_pos hContains,
    around]

theorem around_append (fs gs : List Fragment) (n : String) :
    around (fs ++ gs) n = around fs n ++ around gs n := by
  rw [around, allOf_eq_flatMap, List.flatMap_append, List.filter_append, ← allOf_eq_flatMap,
    ← allOf_eq_flatMap, around, around]

/-- What is around a name is found in the one tree that holds it. -/
theorem around_eq_of_mem (hNodup : (namesOf fs).Nodup) (ht : t ∈ fs) (hn : n ∈ names t) :
    around fs n = around [t] n := by
  obtain ⟨pre, post, rfl⟩ := List.append_of_mem ht
  rw [namesOf_eq_flatMap, List.flatMap_append, List.flatMap_cons, ← namesOf_eq_flatMap,
    ← namesOf_eq_flatMap, List.nodup_append, List.nodup_append] at hNodup
  obtain ⟨-, ⟨-, -, hPost⟩, hPre⟩ := hNodup
  have hNotPre : n ∉ namesOf pre := fun h =>
    hPre n h n (List.mem_append_left _ hn) rfl
  have hNotPost : n ∉ namesOf post := fun h => hPost n hn n h rfl
  rw [around_append, around_cons, around_eq_nil hNotPre, around_eq_nil hNotPost,
    List.nil_append, List.append_nil]

/-- What is around a name is the same among all trees and among some of them that hold it. -/
theorem around_eq_of_subset (hNodup : (namesOf fs).Nodup) (hSub : gs ⊆ fs)
    (hNodup' : (namesOf gs).Nodup) (hn : n ∈ namesOf gs) : around fs n = around gs n := by
  obtain ⟨t, ht, hnt⟩ := mem_namesOf.mp hn
  rw [around_eq_of_mem hNodup (hSub ht) hnt, around_eq_of_mem hNodup' ht hnt]

end Fragment

/-! ## Stacks along a script -/

/-- The fragments that actions enter or collect for, each with the rewrites then in effect. -/
def moments (stack : List Substitution) : List Action → List (String × List Substitution)
  | [] => []
  | .enter fragment rules :: as =>
    (fragment, (rules.map (·.substitution fragment)).reverse ++ stack) ::
      moments ((rules.map (·.substitution fragment)).reverse ++ stack) as
  | .collect fragment _ :: as => (fragment, stack) :: moments stack as
  | .leave count :: as => moments (stack.drop count) as

theorem moments_append (stack : List Substitution) (as bs : List Action) :
    moments stack (as ++ bs) = moments stack as ++ moments (stackAfter stack as) bs := by
  induction as generalizing stack with
  | nil => rfl
  | cons a as ih => cases a <;> simp [moments, stackAfter, ih]

theorem moments_collect {stack s : List Substitution} {fragment n : String} {items : List Item}
    (h : (n, s) ∈ moments stack (items.map (.collect fragment))) : n = fragment ∧ s = stack := by
  induction items with
  | nil => simp [moments] at h
  | cons i is ih =>
    rw [List.map_cons, moments] at h
    rcases List.mem_cons.mp h with h | h
    · exact Prod.mk.inj h
    · exact ih h

/-- Every fragment that is entered has its moment. -/
theorem exists_mem_moments (stack : List Substitution) {as : List Action} {n : String}
    (h : n ∈ as.filterMap Action.name?) : ∃ s, (n, s) ∈ moments stack as := by
  induction as generalizing stack with
  | nil => simp at h
  | cons a as ih =>
    cases a with
    | enter fragment rules =>
      rw [List.filterMap_cons, Action.name?] at h
      rcases List.mem_cons.mp h with rfl | h
      · exact ⟨_, List.mem_cons_self⟩
      · obtain ⟨s, hs⟩ := ih _ h
        exact ⟨s, List.mem_cons_of_mem _ hs⟩
    | collect fragment item =>
      rw [List.filterMap_cons, Action.name?] at h
      obtain ⟨s, hs⟩ := ih stack h
      exact ⟨s, List.mem_cons_of_mem _ hs⟩
    | leave count =>
      rw [List.filterMap_cons, Action.name?] at h
      exact ih _ h

namespace Progress

variable {p q : Progress} {as : List Action} {scopes : List (String × List Substitution)}

/-- What every action keeps in which only moments of `scopes` occur, a script of such actions keeps. -/
theorem perform_invariant_of_moments {P : Progress → Prop}
    (hStep : ∀ (p q : Progress) (a : Action), P p → moments p.engine.stack [a] ⊆ scopes →
      p.act a = .ok q → P q)
    (h : P p) (hScopes : moments p.engine.stack as ⊆ scopes) (hPerform : p.perform as = .ok q) :
    P q := by
  induction as generalizing p with
  | nil =>
    obtain rfl := Except.ok.inj hPerform
    exact h
  | cons a as ih =>
    rw [perform, bind_eq_ok_iff] at hPerform
    obtain ⟨p₁, hAct, hRest⟩ := hPerform
    rw [← List.singleton_append, moments_append, List.append_subset, ← stack_of_act hAct]
      at hScopes
    exact ih (hStep p p₁ a h hScopes.1 hAct) hScopes.2 hRest

end Progress

/-- The rules that begin at a moment are among the rewrites that are in effect then. -/
theorem restore_of_moments {scopes : List (String × List Substitution)}
    {stack : List Substitution} {fragment : String} {rules : List RewriteRule}
    {given : String → Prop} (hGiven : ∀ s ∈ scopes, ∀ x ∈ s.2, given x.name → x.restore ≠ .undefine)
    (hScopes : moments stack [.enter fragment rules] ⊆ scopes) :
    ∀ r ∈ rules, given (macroName r.symbol) → r.restore ≠ .undefine := by
  intro r hr
  refine hGiven _ (hScopes List.mem_cons_self) (r.substitution fragment) (List.mem_append_left _ ?_)
  exact List.mem_reverse.mpr (List.mem_map_of_mem hr)

namespace Plan

/-- What the rules of a fragment do while it is placed, in the order in which they begin. -/
def substitutions (plan : Plan) (flags : FlagSet) (f : Fragment) : List Substitution :=
  (plan.rulesFor flags f.name).map (·.substitution f.name)

variable {plan : Plan} {store : FragmentStore} {flags : FlagSet} {fs : List Fragment}
  {stack s : List Substitution} {n : String}

/-- A script is about its own fragment first, and then about those nested in it. -/
theorem mem_moments_script {t : Fragment} :
    (n, s) ∈ moments stack (plan.script flags t) ↔
      (n = t.name ∧ s = (plan.substitutions flags t).reverse ++ stack) ∨
        (n, s) ∈ moments ((plan.substitutions flags t).reverse ++ stack)
          (plan.scriptOpen flags t.children) := by
  cases t
  rw [script, moments, List.mem_cons, moments_append, stackAfter_collect, moments_append,
    List.mem_append, List.mem_append, Prod.mk.injEq]
  constructor
  · rintro (h | h | h | h)
    · exact Or.inl h
    · exact Or.inl (moments_collect h)
    · exact Or.inr h
    · -- ending the rules is no moment of its own
      simp [moments] at h
  · rintro (h | h)
    · exact Or.inl h
    · exact Or.inr (Or.inr (Or.inl h))

theorem mem_moments_scriptOpen_cons {f : Fragment} :
    (n, s) ∈ moments stack (plan.scriptOpen flags (f :: fs)) ↔
      (f.gate.holds flags = true ∧ (n, s) ∈ moments stack (plan.script flags f)) ∨
        (n, s) ∈ moments stack (plan.scriptOpen flags fs) := by
  rw [scriptOpen]
  split
  · rename_i hOpen
    rw [moments_append, stackAfter_script, List.mem_append, and_iff_right hOpen]
  · rename_i hClosed
    rw [or_iff_right (fun h => hClosed h.1)]

mutual
/-- A script is only about fragments that are reached. -/
theorem mem_block_of_mem_moments : ∀ {t : Fragment} {stack : List Substitution},
    (n, s) ∈ moments stack (plan.script flags t) → n ∈ t.block flags
  | ⟨_, _, _, _, _⟩, _, h => by
    unfold Fragment.block
    rw [Fragment.reached, List.map_cons]
    rcases mem_moments_script.mp h with ⟨rfl, -⟩ | h
    · exact List.mem_cons_self
    · exact List.mem_cons_of_mem _ (mem_reachedOf_of_mem_moments h)

theorem mem_reachedOf_of_mem_moments : ∀ {fs : List Fragment} {stack : List Substitution},
    (n, s) ∈ moments stack (plan.scriptOpen flags fs) →
      n ∈ (Fragment.reachedOf flags fs).map (·.name)
  | [], _, h => by simp [scriptOpen, moments] at h
  | f :: fs, _, h => by
    rw [Fragment.reachedOf]
    rcases mem_moments_scriptOpen_cons.mp h with ⟨hOpen, h⟩ | h
    · rw [if_pos hOpen, List.map_append]
      exact List.mem_append_left _ (mem_block_of_mem_moments h)
    · have hRest := mem_reachedOf_of_mem_moments h
      split
      · rw [List.map_append]
        exact List.mem_append_right _ hRest
      · exact hRest
end

theorem mem_namesOf_of_mem_moments (h : (n, s) ∈ moments stack (plan.scriptOpen flags fs)) :
    n ∈ Fragment.namesOf fs := by
  rw [← Fragment.map_name_allOf]
  exact ((Fragment.reachedOf_sublist_allOf flags fs).map _).subset
    (mem_reachedOf_of_mem_moments h)

theorem mem_names_of_mem_moments {t : Fragment}
    (h : (n, s) ∈ moments stack (plan.script flags t)) : n ∈ t.names :=
  (Fragment.block_sublist_names flags t).subset (mem_block_of_mem_moments h)

mutual
/-- While a script is about a fragment, the stack holds what is in force around it. -/
theorem reverse_of_mem_moments_script : ∀ {t : Fragment} {stack : List Substitution},
    t.names.Nodup → (n, s) ∈ moments stack (plan.script flags t) →
    s.reverse = stack.reverse ++ (Fragment.around [t] n).flatMap (plan.substitutions flags)
  | ⟨name, gate, items, constraints, children⟩, stack, hNodup, h => by
    rw [Fragment.around_self (mem_names_of_mem_moments h), List.flatMap_cons, ← List.append_assoc]
    rw [Fragment.names, List.nodup_cons] at hNodup
    -- around the fragment itself is nothing nested in it; its rules lie below those of nested ones
    rcases mem_moments_script.mp h with ⟨rfl, rfl⟩ | h
    · rw [Fragment.around_eq_nil hNodup.1, List.flatMap_nil, List.append_nil,
        List.reverse_append, List.reverse_reverse]
    · rw [reverse_of_mem_moments_scriptOpen hNodup.2 h, List.reverse_append,
        List.reverse_reverse]

theorem reverse_of_mem_moments_scriptOpen : ∀ {fs : List Fragment} {stack : List Substitution},
    (Fragment.namesOf fs).Nodup → (n, s) ∈ moments stack (plan.scriptOpen flags fs) →
    s.reverse = stack.reverse ++ (Fragment.around fs n).flatMap (plan.substitutions flags)
  | [], _, _, h => by simp [scriptOpen, moments] at h
  | f :: fs, stack, hNodup, h => by
    rw [Fragment.namesOf, List.nodup_append] at hNodup
    rw [Fragment.around_cons]
    -- names are distinct, so only one of the trees holds `n`
    rcases mem_moments_scriptOpen_cons.mp h with ⟨-, h⟩ | h
    · have hNot : n ∉ Fragment.namesOf fs := fun hn =>
        hNodup.2.2 n (mem_names_of_mem_moments h) n hn rfl
      rw [Fragment.around_eq_nil hNot, List.append_nil]
      exact reverse_of_mem_moments_script hNodup.1 h
    · have hNot : n ∉ Fragment.namesOf [f] := by
        rw [Fragment.namesOf, Fragment.namesOf, List.append_nil]
        exact fun hn => hNodup.2.2 n hn n (mem_namesOf_of_mem_moments h) rfl
      rw [Fragment.around_eq_nil hNot, List.nil_append]
      exact reverse_of_mem_moments_scriptOpen hNodup.2.1 h
end

theorem mem_moments_scriptAll :
    (n, s) ∈ moments stack (plan.scriptAll flags fs) ↔
      ∃ t ∈ fs, (n, s) ∈ moments stack (plan.script flags t) := by
  induction fs with
  | nil => simp [scriptAll, moments]
  | cons f fs ih =>
    rw [scriptAll, List.flatMap_cons, ← scriptAll, moments_append, stackAfter_script,
      List.mem_append, ih, List.exists_mem_cons_iff]

theorem stackAfter_scriptAll :
    stackAfter stack (plan.scriptAll flags fs) = stack := by
  induction fs with
  | nil => rfl
  | cons f fs ih =>
    rw [scriptAll, List.flatMap_cons, ← scriptAll, stackAfter_append, stackAfter_script, ih]

/-- In a composition the stack of a fragment holds what is in force around it. -/
theorem reverse_of_mem_moments_scriptAll
    (hfs : fs ⊆ store.fragments) (h : (n, s) ∈ moments [] (plan.scriptAll flags fs)) :
    s.reverse = (Fragment.around store.fragments n).flatMap (plan.substitutions flags) := by
  obtain ⟨t, ht, h⟩ := mem_moments_scriptAll.mp h
  have hNodup := Fragment.nodup_names_of_mem store.distinct (hfs ht)
  rw [reverse_of_mem_moments_script hNodup h,
    Fragment.around_eq_of_mem store.distinct (hfs ht) (mem_names_of_mem_moments h)]
  rfl

/-! ## Rules in force -/

/--
A rule is in force for a fragment when its gate is open and it is scoped to the fragment or to
one around it.
-/
def InForce (plan : Plan) (store : FragmentStore) (flags : FlagSet) (r : RewriteRule)
    (n : String) : Prop :=
  r ∈ plan.rules ∧ r.gate.holds flags = true ∧
    ∃ g ∈ Fragment.around store.fragments n, r.appliesTo g.name = true

/-- The stack of a fragment holds the rules that are in force for it, each once for a scope. -/
theorem mem_stack_iff (hfs : fs ⊆ store.fragments)
    (h : (n, s) ∈ moments [] (plan.scriptAll flags fs)) {x : Substitution} :
    x ∈ s ↔ ∃ r g, g ∈ Fragment.around store.fragments n ∧ r ∈ plan.rules ∧
      r.appliesTo g.name = true ∧ r.gate.holds flags = true ∧ r.substitution g.name = x := by
  rw [← List.mem_reverse, reverse_of_mem_moments_scriptAll hfs h, List.mem_flatMap]
  simp only [substitutions, rulesFor, List.mem_map, List.mem_filter, Bool.and_eq_true]
  constructor
  · rintro ⟨g, hg, r, ⟨hr, hApplies, hGate⟩, hx⟩
    exact ⟨r, g, hg, hr, hApplies, hGate, hx⟩
  · rintro ⟨r, g, hg, hr, hApplies, hGate, hx⟩
    exact ⟨g, hg, r, ⟨hr, hApplies, hGate⟩, hx⟩

end Plan

end DeclSurface
