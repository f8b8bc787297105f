import DeclSurface.CompilerFlags
import Mathlib.Data.List.Induction

/-!
# The last mention of a flag

Compiler flags may mention a flag any number of times. Whether it is enabled in the end is decided
by its last mention alone, as for a compiler. Its value is that of the last mention too, if this one
gives a value. A definition without a value leaves the flag the value that it has, so the value is
then the last that was given to the flag since it was last undefined.

* `mentionsOf`          — the mentions of one flag in a text.
* `standingValue?`      — the value that is left of a list of mentions.
* `isEnabled_foldl_apply`, `value_foldl_apply` — what a run of mentions leaves behind.
* `LastCounts`          — what is promised about a text and a flag.
* `lastCounts_ofCompilerFlags` — every text keeps the promise, for every flag.
* `plain_definition_keeps_value` — a definition without a value need not stand for `1`.
-/

namespace DeclSurface

namespace FlagMention

/-- The flag that a mention is about. -/
def name : FlagMention → String
  | define name _ => name
  | undefine name => name

/-- The value that a mention gives its flag. -/
def value? : FlagMention → Option String
  | define _ value => value
  | undefine _ => none

/-- Whether a mention enables its flag. -/
def defines : FlagMention → Bool
  | define _ _ => true
  | undefine _ => false

/-- The mentions of one flag. -/
def about (n : String) (ms : List FlagMention) : List FlagMention :=
  ms.filter (·.name == n)

/-- The last value among the definitions since the last undefinition. -/
def standingValue? (ms : List FlagMention) : Option String :=
  (ms.reverse.takeWhile (·.defines)).findSome? value?

variable {m : FlagMention} {ms : List FlagMention} {n : String}

theorem about_concat_of_eq (h : m.name = n) : about n (ms ++ [m]) = about n ms ++ [m] := by
  rw [about, List.filter_append, ← about]
  simp [h]

theorem about_concat_of_ne (h : m.name ≠ n) : about n (ms ++ [m]) = about n ms := by
  rw [about, List.filter_append, ← about]
  simp [h]

theorem standingValue?_concat :
    standingValue? (ms ++ [m])
      = if m.defines then m.value?.or (standingValue? ms) else none := by
  rw [standingValue?, List.reverse_concat, List.takeWhile_cons]
  cases m.defines with
  | true =>
    rw [if_pos rfl, if_pos rfl, List.findSome?_cons, ← standingValue?]
    cases m.value? with
    | none => rfl
    | some value => rfl
  | false => rfl

end FlagMention

namespace FlagSet

open FlagMention (about standingValue?)

variable {m : FlagMention} {ms : List FlagMention} {n : String}

/-! ## One mention -/

theorem isEnabled_apply (s : FlagSet) (m : FlagMention) (n : String) :
    (s.apply m).isEnabled n = if m.name = n then m.defines else s.isEnabled n := by
  cases m with
  | define name value =>
    have hEnabled : (s.apply (.define name value)).isEnabled n = (n == name || s.isEnabled n) := by
      cases value with
      | none => exact s.isEnabled_enable name n
      | some value => exact s.isEnabled_enableWithValue name value n
    rw [hEnabled]
    by_cases h : name = n
    · simp [FlagMention.name, FlagMention.defines, h]
    · simp [FlagMention.name, h, Ne.symm h]
  | undefine name =>
    show (s.disable name).isEnabled n = _
    rw [isEnabled_disable]
    by_cases h : name = n
    · simp [FlagMention.name, FlagMention.defines, h]
    · simp [FlagMention.name, h, Ne.symm h]

/-- A definition without a value changes no value, not even that of its flag. -/
theorem value_apply (s : FlagSet) (m : FlagMention) (n : String) :
    (s.apply m).value n
      = if m.name = n then (if m.defines then m.value?.or (s.value n) else none)
        else s.value n := by
  cases m with
  | define name value =>
    cases value with
    | none =>
      show (s.enable name).value n = _
      rw [value_enable]
      simp [FlagMention.defines, FlagMention.value?]
    | some value =>
      show (s.enableWithValue name value).value n = _
      rw [value_enableWithValue]
      simp [FlagMention.name, FlagMention.defines, FlagMention.value?, eq_comm]
  | undefine name =>
    show (s.disable name).value n = _
    rw [value_disable]
    simp [FlagMention.name, FlagMention.defines, eq_comm]

/-! ## A run of mentions -/

theorem foldl_apply_concat (s : FlagSet) (ms : List FlagMention) (m : FlagMention) :
    (ms ++ [m]).foldl apply s = (ms.foldl apply s).apply m := by
  rw [List.foldl_append, List.foldl_cons, List.foldl_nil]

/-- The last mention of a flag decides whether it is enabled. -/
theorem isEnabled_foldl_apply (ms : List FlagMention) (n : String) :
    (ms.foldl apply empty).isEnabled n = ((about n ms).getLast?.map (·.defines)).getD false := by
  induction ms using List.reverseRecOn with
  | nil => rfl
  | append_singleton ms m ih =>
    rw [foldl_apply_concat, isEnabled_apply]
    by_cases h : m.name = n
    · rw [if_pos h, FlagMention.about_concat_of_eq h, List.getLast?_concat]
      rfl
    · rw [if_neg h, FlagMention.about_concat_of_ne h, ih]

theorem value_foldl_apply (ms : List FlagMention) (n : String) :
    (ms.foldl apply empty).value n = standingValue? (about n ms) := by
  induction ms using List.reverseRecOn with
  | nil => rfl
  | append_singleton ms m ih =>
    rw [foldl_apply_concat, value_apply]
    by_cases h : m.name = n
    · rw [if_pos h, FlagMention.about_concat_of_eq h, FlagMention.standingValue?_concat, ih]
    · rw [if_neg h, FlagMention.about_concat_of_ne h, ih]

end FlagSet

/-! ## Compiler flags -/

/-- The mentions of one flag in a compiler flags text, in order. -/
def mentionsOf (text n : String) : List FlagMention :=
  FlagMention.about n (mentionsOfArgs (splitArgs text))

/-- What the last mention of a flag in a compiler flags text decides. -/
structure LastCounts (text n : String) : Prop where
  /-- A flag is enabled if and only if its last mention defines it. -/
  enabled : (FlagSet.ofCompilerFlags text).isEnabled n = true ↔
    ∃ value, (mentionsOf text n).getLast? = some (.define n value)
  /-- A value in the last mention is the value of the macro. -/
  valued : ∀ value, (mentionsOf text n).getLast? = some (.define n (some value)) →
    (FlagSet.ofCompilerFlags text).baseline.get? n = some value
  /-- Without one it is the last value since the last undefinition, and `1` if there is none. -/
  plain : (mentionsOf text n).getLast? = some (.define n none) →
    (FlagSet.ofCompilerFlags text).baseline.get? n
      = some ((FlagMention.standingValue? (mentionsOf text n)).getD "1")
  /-- A flag that was undefined last is no macro. -/
  undefined : (mentionsOf text n).getLast? = some (.undefine n) →
    (FlagSet.ofCompilerFlags text).baseline.get? n = none
  /-- Neither is one that was never mentioned. -/
  unmentioned : mentionsOf text n = [] →
    (FlagSet.ofCompilerFlags text).baseline.get? n = none

section

variable {text n : String}

theorem isEnabled_ofCompilerFlags (text n : String) :
    (FlagSet.ofCompilerFlags text).isEnabled n
      = ((mentionsOf text n).getLast?.map (·.defines)).getD false :=
  FlagSet.isEnabled_foldl_apply _ n

theorem value_ofCompilerFlags (text n : String) :
    (FlagSet.ofCompilerFlags text).value n = FlagMention.standingValue? (mentionsOf text n) :=
  FlagSet.value_foldl_apply _ n

theorem name_of_getLast?_mentionsOf {m : FlagMention} (h : (mentionsOf text n).getLast? = some m) :
    m.name = n := by
  have hMem : m ∈ mentionsOf text n := List.mem_of_getLast? h
  exact beq_iff_eq.mp (List.mem_filter.mp hMem).2

/-- The macro of a flag that is defined last has the value that was left of its mentions. -/
theorem get?_baseline_of_define {value : Option String}
    (h : (mentionsOf text n).getLast? = some (.define n value)) :
    (FlagSet.ofCompilerFlags text).baseline.get? n
      = some ((FlagMention.standingValue? (mentionsOf text n)).getD "1") := by
  have hEnabled : (FlagSet.ofCompilerFlags text).isEnabled n = true := by
    rw [isEnabled_ofCompilerFlags, h]
    rfl
  rw [FlagSet.get?_baseline, if_pos hEnabled, value_ofCompilerFlags]

theorem get?_baseline_of_not_defined (h : (FlagSet.ofCompilerFlags text).isEnabled n = false) :
    (FlagSet.ofCompilerFlags text).baseline.get? n = none := by
  rw [FlagSet.get?_baseline, h, if_neg Bool.false_ne_true]

end

/-- Of several mentions of a flag the last one counts, but a value outlives a plain definition. -/
theorem lastCounts_ofCompilerFlags (text n : String) : LastCounts text n := by
  refine
    { enabled := ?enabled, valued := ?valued, plain := get?_baseline_of_define
      undefined := ?undefined, unmentioned := ?unmentioned }
  case enabled =>
    rw [isEnabled_ofCompilerFlags]
    cases hLast : (mentionsOf text n).getLast? with
    | none => simp
    | some m =>
      have hName := name_of_getLast?_mentionsOf hLast
      cases m with
      | define name value =>
        obtain rfl : name = n := hName
        exact iff_of_true rfl ⟨value, rfl⟩
      | undefine name => simp [FlagMention.defines]
  case valued =>
    intro value hLast
    obtain ⟨ms, hSplit⟩ := List.getLast?_eq_some_iff.mp hLast
    rw [get?_baseline_of_define hLast, hSplit, FlagMention.standingValue?_concat]
    rfl
  case undefined =>
    intro hLast
    refine get?_baseline_of_not_defined ?_
    rw [isEnabled_ofCompilerFlags, hLast]
    rfl
  case unmentioned =>
    intro hNone
    refine get?_baseline_of_not_defined ?_
    rw [isEnabled_ofCompilerFlags, hNone]
    rfl

/-- A definition without a value need not stand for `1`: a value given before it stays. -/
theorem plain_definition_keeps_value :
    ¬ ∀ text n, (mentionsOf text n).getLast? = some (.define n none) →
      (FlagSet.ofCompilerFlags text).baseline.get? n = some "1" := by
  intro hOne
  have hLast : (mentionsOf "-DLEVEL=2 -DLEVEL" "LEVEL").getLast? = some (.define "LEVEL" none) := by
    decide +kernel
  have hKept : (FlagSet.ofCompilerFlags "-DLEVEL=2 -DLEVEL").baseline.get? "LEVEL" = some "2" := by
    decide +kernel
  have hTwo := hOne _ _ hLast
  rw [hKept] at hTwo
  exact absurd hTwo (by decide)

end DeclSurface
