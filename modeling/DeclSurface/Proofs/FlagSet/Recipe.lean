import DeclSurface.Composition.Basic
import DeclSurface.Proofs.CompilerFlags.LastMention

/-!
# How flag sets are made

A flag set is made by any number of calls: from names or from compiler flags, by enabling and
disabling, by merging in a set that was made in the same way, and by forcing on the flags of a
configuration. Names and values are kept apart, and a call may touch only one of them. They stay
in step all the same, since every call does what some mentions of flags would do one by one.

* `FlagRecipe`            — the calls that make a set, and `FlagRecipe.set` the set.
* `FlagRecipe.history`    — what the calls say about flags, one mention after the other.
* `FlagSet.InStep`        — flags that have a value are enabled.
* `merge_eq_foldl_apply`  — merging is mentioning the flags of the other set.
* `set_eq_foldl_apply`    — a set is what its history leaves behind.
* `FlagSet.Tidy`          — what is promised about a set with a history.
* `tidy_set`              — every set that is made keeps the promise.
-/

namespace DeclSurface

/-- How a flag set is made, call by call. -/
inductive FlagRecipe where
  | empty
  | ofNames (names : List String)
  | ofCompilerFlags (text : String)
  | extend (recipe : FlagRecipe) (text : String)
  | enable (recipe : FlagRecipe) (name : String)
  | enableWithValue (recipe : FlagRecipe) (name value : String)
  | disable (recipe : FlagRecipe) (name : String)
  | merge (recipe other : FlagRecipe)
  /-- The flags that a plan composes with, given those of the caller. -/
  | effective (recipe : FlagRecipe) (plan : Plan)

/-- The set that is made. -/
def FlagRecipe.set : FlagRecipe → FlagSet
  | empty => .empty
  | ofNames names => .ofNames names
  | ofCompilerFlags text => .ofCompilerFlags text
  | extend recipe text => recipe.set.extend text
  | enable recipe name => recipe.set.enable name
  | enableWithValue recipe name value => recipe.set.enableWithValue name value
  | disable recipe name => recipe.set.disable name
  | merge recipe other => recipe.set.merge other.set
  | effective recipe plan => plan.effectiveFlags recipe.set

/-- The flags that a plan forces on. -/
def Plan.forcedFlags (plan : Plan) : List String :=
  match plan.configuration with
  | none => []
  | some c => c.flags

/-- A mention of each flag that is enabled, with the value that it has. -/
def FlagSet.mentions (s : FlagSet) : List FlagMention :=
  s.names.map fun name => .define name (s.value name)

/-- Mentions that enable flags without giving them a value. -/
def FlagMention.plain (names : List String) : List FlagMention :=
  names.map fun name => .define name none

/--
What has been said about flags, one mention after the other. Merging a set in mentions its flags,
those that have no value there without one.
-/
def FlagRecipe.history : FlagRecipe → List FlagMention
  | empty => []
  | ofNames names => FlagMention.plain names
  | ofCompilerFlags text => mentionsOfArgs (splitArgs text)
  | extend recipe text => recipe.history ++ mentionsOfArgs (splitArgs text)
  | enable recipe name => recipe.history ++ [.define name none]
  | enableWithValue recipe name value => recipe.history ++ [.define name (some value)]
  | disable recipe name => recipe.history ++ [.undefine name]
  | merge recipe other => recipe.history ++ other.set.mentions
  | effective recipe plan => recipe.history ++ FlagMention.plain plan.forcedFlags

/-! ## Names and values in step -/

namespace FlagSet

/-- Whatever flag has a value is enabled. -/
def InStep (s : FlagSet) : Prop :=
  ∀ n v, s.value n = some v → s.isEnabled n = true

variable {s t : FlagSet}

/-- Two sets with the same flags and values are equal. -/
theorem ext_of (hEnabled : ∀ n, s.isEnabled n = t.isEnabled n)
    (hValue : ∀ n, s.value n = t.value n) : s = t := by
  have hNames : s.enabled = t.enabled := by
    refine NameMap.ext fun n => ?_
    have hSome : (s.enabled.get? n).isSome = (t.enabled.get? n).isSome := hEnabled n
    cases hs : s.enabled.get? n <;> cases ht : t.enabled.get? n <;> simp_all
  have hValues : s.values = t.values := NameMap.ext hValue
  cases s
  cases t
  simp_all

theorem inStep_empty : InStep empty := by
  intro n v h
  exact absurd h (by simp [value, empty, EmptyCollection.emptyCollection])

/-- One mention keeps names and values in step. -/
theorem inStep_apply (h : s.InStep) (m : FlagMention) : (s.apply m).InStep := by
  intro n v hValue
  rw [value_apply] at hValue
  rw [isEnabled_apply]
  by_cases hName : m.name = n
  · rw [if_pos hName] at hValue ⊢
    by_contra hNot
    rw [if_neg hNot] at hValue
    exact absurd hValue (by simp)
  · rw [if_neg hName] at hValue ⊢
    exact h n v hValue

theorem inStep_foldl_apply (h : s.InStep) (ms : List FlagMention) : (ms.foldl apply s).InStep := by
  induction ms generalizing s with
  | nil => exact h
  | cons m ms ih => exact ih (inStep_apply h m)

/-! ## Calls as mentions -/

theorem isEnabled_merge (s t : FlagSet) (n : String) :
    (s.merge t).isEnabled n = (s.isEnabled n || t.isEnabled n) :=
  NameSet.contains_join s.enabled t.enabled n

theorem value_merge (s t : FlagSet) (n : String) :
    (s.merge t).value n = (t.value n).or (s.value n) :=
  NameMap.get?_union s.values t.values n

theorem keys_baseline (s : FlagSet) : s.baseline.keys = s.names := by
  rw [baseline, NameMap.keys, NameMap.mapWithKey, List.map_map]
  rfl

theorem mem_names_iff {n : String} : n ∈ s.names ↔ s.isEnabled n = true :=
  NameMap.contains_iff_mem_keys.symm

theorem isEnabled_foldl_define (f : String → Option String) (names : List String) (s : FlagSet)
    (n : String) :
    ((names.map fun name => FlagMention.define name (f name)).foldl apply s).isEnabled n
      = (s.isEnabled n || names.contains n) := by
  induction names generalizing s with
  | nil => simp
  | cons m names ih =>
    rw [List.map_cons, List.foldl_cons, ih, isEnabled_apply, List.contains_cons]
    by_cases h : m = n
    · simp [FlagMention.name, FlagMention.defines, h]
    · rw [beq_false_of_ne (Ne.symm h)]
      simp [FlagMention.name, h]

theorem value_foldl_define (f : String → Option String) (names : List String) (s : FlagSet)
    (n : String) :
    ((names.map fun name => FlagMention.define name (f name)).foldl apply s).value n
      = if n ∈ names then (f n).or (s.value n) else s.value n := by
  induction names generalizing s with
  | nil => rfl
  | cons m names ih =>
    rw [List.map_cons, List.foldl_cons, ih, value_apply]
    by_cases h : m = n
    · subst h
      cases hf : f m <;> simp [FlagMention.name, FlagMention.defines, FlagMention.value?]
    · simp [FlagMention.name, h, Ne.symm h]

/-- Merging a set in whose names and values are in step is mentioning its flags. -/
theorem merge_eq_foldl_apply (s : FlagSet) (h : t.InStep) :
    s.merge t = t.mentions.foldl apply s := by
  refine ext_of (fun n => ?_) fun n => ?_
  · rw [isEnabled_merge, mentions, isEnabled_foldl_define]
    congr 1
    rw [Bool.eq_iff_iff, List.contains_iff_mem, mem_names_iff]
  · rw [value_merge, mentions, value_foldl_define]
    by_cases hn : n ∈ t.names
    · rw [if_pos hn]
    · -- a flag that the other set does not enable has no value there
      have hNone : t.value n = none :=
        Option.eq_none_iff_forall_ne_some.mpr fun v hv => hn (mem_names_iff.mpr (h n v hv))
      rw [if_neg hn, hNone]
      rfl

theorem foldl_enable (s : FlagSet) (names : List String) :
    names.foldl enable s = (FlagMention.plain names).foldl apply s := by
  rw [FlagMention.plain, List.foldl_map]
  rfl

theorem effectiveFlags_eq_foldl_apply (plan : Plan) (s : FlagSet) :
    plan.effectiveFlags s = (FlagMention.plain plan.forcedFlags).foldl apply s := by
  rw [Plan.effectiveFlags, Plan.forcedFlags]
  cases plan.configuration with
  | none => rfl
  | some c => exact foldl_enable s c.flags

end FlagSet

namespace FlagMention

variable {n : String} {ms : List FlagMention}

theorem about_split (before after : List FlagMention) :
    about n (before ++ .undefine n :: after) = about n before ++ .undefine n :: about n after := by
  rw [about, List.filter_append, List.filter_cons_of_pos (by simp [name])]
  rfl

theorem standingValue?_of_undefine (before : List FlagMention)
    (h : ∀ m ∈ ms, m.value? = none) :
    standingValue? (before ++ .undefine n :: ms) = none := by
  induction ms using List.reverseRecOn with
  | nil => rw [standingValue?_concat]; rfl
  | append_singleton ms m ih =>
    have hLast : m.value? = none := h m (by simp)
    have hFront := ih fun m hm => h m (by simp [hm])
    rw [← List.cons_append, ← List.append_assoc, standingValue?_concat, hLast, hFront]
    simp

end FlagMention

/-! ## Whatever is made -/

namespace FlagSet

open FlagMention (about)

variable {ms : List FlagMention} {n : String}

theorem isEnabled_foldl_apply_iff :
    (ms.foldl apply empty).isEnabled n = true ↔
      ∃ value, (about n ms).getLast? = some (.define n value) := by
  rw [isEnabled_foldl_apply]
  cases hLast : (about n ms).getLast? with
  | none => simp
  | some m =>
    have hName : m.name = n :=
      beq_iff_eq.mp (List.mem_filter.mp (List.mem_of_getLast? hLast)).2
    cases m with
    | define name value =>
      obtain rfl : name = n := hName
      exact iff_of_true rfl ⟨value, rfl⟩
    | undefine name => simp [FlagMention.defines]

/-- A value that was taken back does not come back by itself. -/
theorem value_foldl_apply_of_undefine {before after : List FlagMention}
    (hMs : ms = before ++ .undefine n :: after) (hPlain : ∀ value, .define n (some value) ∉ after) :
    (ms.foldl apply empty).value n = none := by
  have hNoValue : ∀ m ∈ about n after, m.value? = none := by
    intro m hm
    obtain ⟨hMem, hName⟩ := List.mem_filter.mp hm
    cases m with
    | undefine name => rfl
    | define name value =>
      obtain rfl : name = n := beq_iff_eq.mp hName
      exact Option.eq_none_iff_forall_ne_some.mpr fun v hv => hPlain v (hv ▸ hMem)
  rw [value_foldl_apply, hMs, FlagMention.about_split,
    FlagMention.standingValue?_of_undefine _ hNoValue]

/-- What is promised about a set and what has been said about flags. -/
structure Tidy (s : FlagSet) (history : List FlagMention) : Prop where
  /-- A flag that has a value is enabled. -/
  inStep : s.InStep
  /-- The macros are just the enabled flags. -/
  macros : s.baseline.keys = s.names
  /-- A flag is enabled if and only if its last mention defines it. -/
  enabled : ∀ n, s.isEnabled n = true ↔
    ∃ value, (about n history).getLast? = some (.define n value)
  /--
  No value outlives an undefinition: unless the flag is given one after it, it has none, and if
  it has been enabled again, the macro stands for `1`.
  -/
  forgotten : ∀ n before after, history = before ++ .undefine n :: after →
    (∀ value, .define n (some value) ∉ after) →
    s.value n = none ∧
      ((about n after).getLast? = some (.define n none) → s.baseline.get? n = some "1")

end FlagSet

namespace FlagRecipe

/-- A set is what the mentions in its history leave behind, one after the other. -/
theorem set_eq_foldl_apply (recipe : FlagRecipe) :
    recipe.set = recipe.history.foldl FlagSet.apply .empty := by
  induction recipe with
  | empty => rfl
  | ofNames names => exact FlagSet.foldl_enable .empty names
  | ofCompilerFlags text => rfl
  | extend recipe text ih => rw [set, history, List.foldl_append, ← ih]; rfl
  | enable recipe name ih => rw [set, history, List.foldl_append, ← ih]; rfl
  | enableWithValue recipe name value ih => rw [set, history, List.foldl_append, ← ih]; rfl
  | disable recipe name ih => rw [set, history, List.foldl_append, ← ih]; rfl
  | merge recipe other ih ihOther =>
    have hInStep : other.set.InStep := ihOther ▸ FlagSet.inStep_foldl_apply FlagSet.inStep_empty _
    rw [set, history, List.foldl_append, ← ih, FlagSet.merge_eq_foldl_apply _ hInStep]
  | effective recipe plan ih =>
    rw [set, history, List.foldl_append, ← ih, FlagSet.effectiveFlags_eq_foldl_apply]

/--
However a set is made, flags that have a value are enabled, its macros are just the enabled flags,
and no value outlives an undefinition.
-/
theorem tidy_set (recipe : FlagRecipe) : recipe.set.Tidy recipe.history := by
  have hSet := recipe.set_eq_foldl_apply
  refine { inStep := ?inStep, macros := ?macros, enabled := ?enabled, forgotten := ?forgotten }
  case inStep =>
    rw [hSet]
    exact FlagSet.inStep_foldl_apply FlagSet.inStep_empty _
  case macros => exact FlagSet.keys_baseline recipe.set
  case enabled =>
    intro n
    rw [hSet]
    exact FlagSet.isEnabled_foldl_apply_iff
  case forgotten =>
    intro n before after hHistory hPlain
    have hValue : recipe.set.value n = none := by
      rw [hSet]
      exact FlagSet.value_foldl_apply_of_undefine hHistory hPlain
    refine ⟨hValue, fun hLast => ?_⟩
    have hEnabled : recipe.set.isEnabled n = true := by
      rw [hSet]
      refine FlagSet.isEnabled_foldl_apply_iff.mpr ⟨none, ?_⟩
      rw [hHistory, FlagMention.about_split, List.getLast?_append, List.getLast?_cons, hLast]
      rfl
    rw [FlagSet.get?_baseline, if_pos hEnabled, hValue]
    rfl

end FlagRecipe

end DeclSurface
