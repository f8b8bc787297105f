import DeclSurface.Proofs.Surface.Scheduling
import Mathlib.Data.List.Forall2

/-!
# The surfaces of a batch

A run that gives up is passed over when surfaces are collected. That loses none: it stands behind
a run that failed, and the first failure is all that is reported then. So a batch gives what its
runs give by themselves, however they were scheduled.

* `Library.alone`        — what comes of each run by itself.
* `collect_eq_alone`     — runs that gave up do not change what is collected.
* `Collects`             — all surfaces in order, or the first failure.
* `composeAll_scheduled` — every schedule of a batch gives the same.
-/

namespace DeclSurface

open Relation

namespace Library

variable {l : Library} {o : SurfaceOptions} {c : Configuration} {e : ComposeError} {s : Surface}
  {name : String} {failure : Failure} {es pre post : List (String × Configuration)}
  {results : List (Configuration × Except ComposeError Surface)}

/-- What comes of the runs for some configurations, each by itself. -/
def alone (l : Library) (o : SurfaceOptions) (cs : List Configuration) :
    List (Configuration × Except ComposeError Surface) :=
  cs.map fun c => (c, l.surface (some c) o)

/-- The failure of a run for a configuration. -/
def failureOf (l : Library) (c : Configuration) (e : ComposeError) : Failure :=
  { contexts := [.composing l.name (some c.name)], cause := .compose e }

theorem alone_cons (cs : List Configuration) :
    l.alone o (c :: cs) = (c, l.surface (some c) o) :: l.alone o cs :=
  rfl

/-! ## Collecting -/

theorem collect_cons_ok :
    l.collect ((c, .ok s) :: results) = l.collect results >>= fun ss => .ok (s :: ss) :=
  rfl

theorem collect_cons_error (h : e.IsDefect) :
    l.collect ((c, .error e) :: results) = .error (l.failureOf c e) := by
  cases e with
  | cancelled n => exact h.elim
  | _ => rfl

/-- Runs that gave up behind one that failed do not change what is collected. -/
theorem collect_eq_alone
    (hOwn : ∀ x ∈ results, x.2 = l.surface (some x.1) o ∨ ∃ n, x.2 = .error (.cancelled n))
    (hBehind : ∀ (i : Nat) (c : Configuration) (n : Nat),
      results[i]? = some (c, .error (.cancelled n)) →
        ∃ j < i, ∃ d e, results[j]? = some (d, .error e) ∧ e.IsDefect) :
    l.collect results = l.collect (l.alone o (results.map (·.1))) := by
  induction results with
  | nil => rfl
  | cons x results ih =>
    obtain ⟨c, r⟩ := x
    obtain ⟨hFirst, hRest⟩ := List.forall_mem_cons.mp hOwn
    -- no run stands before the first, so it did not give up
    have hSurface : r = l.surface (some c) o := by
      rcases hFirst with h | ⟨n, h⟩
      · exact h
      · obtain ⟨j, hj, -⟩ := hBehind 0 c n (by rw [← h]; rfl)
        exact absurd hj (Nat.not_lt_zero j)
    rw [List.map_cons, alone_cons, ← hSurface]
    cases r with
    | error e =>
      have hDefect : e.IsDefect := isDefect_of_surface hSurface.symm
      rw [collect_cons_error hDefect, collect_cons_error hDefect]
    | ok s =>
      have hBehindRest : ∀ (i : Nat) (c : Configuration) (n : Nat),
          results[i]? = some (c, .error (.cancelled n)) →
            ∃ j < i, ∃ d e, results[j]? = some (d, .error e) ∧ e.IsDefect := by
        intro i d n hAt
        obtain ⟨j, hj, d', e, hFailed, hDefect⟩ := hBehind (i + 1) d n hAt
        cases j with
        | zero => simp at hFailed
        | succ j => exact ⟨j, by omega, d', e, hFailed, hDefect⟩
      rw [collect_cons_ok, collect_cons_ok, ih hRest hBehindRest]

/-! ## Each configuration by itself -/

theorem compose_eq_reported (h : (name, c) ∈ l.configurations.entries) :
    l.compose (some name) o = l.reported (some c) (l.surface (some c) o) := by
  have hFound : l.configurations.get? name = some c := NameMap.get?_eq_some_iff.mpr h
  rw [compose, chosen, configuration, hFound]
  rfl

theorem compose_eq_ok_iff (h : (name, c) ∈ l.configurations.entries) :
    l.compose (some name) o = .ok s ↔ l.surface (some c) o = .ok s := by
  rw [compose_eq_reported h]
  cases l.surface (some c) o with
  | error e => simp [reported]
  | ok s => simp [reported]

theorem compose_eq_error_iff (h : (name, c) ∈ l.configurations.entries) :
    l.compose (some name) o = .error failure ↔
      ∃ e, l.surface (some c) o = .error e ∧ failure = l.failureOf c e := by
  rw [compose_eq_reported h]
  cases l.surface (some c) o with
  | error e => simp [reported, failureOf, eq_comm]
  | ok s => simp [reported]

/--
What a batch is to give: the surface that each configuration has by itself, in the order of their
names, or the failure of the first one that has none.
-/
structure Collects (l : Library) (o : SurfaceOptions) (value : Result (List Surface)) : Prop where
  all : (∀ name ∈ l.configurations.keys, ∃ s, l.compose (some name) o = .ok s) →
    ∃ ss, value = .ok ss ∧
      List.Forall₂ (fun name s => l.compose (some name) o = .ok s) l.configurations.keys ss
  first : ∀ pre name c post failure, l.configurations.entries = pre ++ (name, c) :: post →
    (∀ x ∈ pre, ∃ s, l.compose (some x.1) o = .ok s) →
    l.compose (some name) o = .error failure →
      value = .error failure ∧ ∃ e, e.IsDefect ∧ failure = l.failureOf c e

theorem collect_alone_all (hEntries : es ⊆ l.configurations.entries)
    (h : ∀ x ∈ es, ∃ s, l.compose (some x.1) o = .ok s) :
    ∃ ss, l.collect (l.alone o (es.map (·.2))) = .ok ss ∧
      List.Forall₂ (fun name s => l.compose (some name) o = .ok s) (es.map (·.1)) ss := by
  induction es with
  | nil => exact ⟨[], rfl, List.Forall₂.nil⟩
  | cons x es ih =>
    obtain ⟨⟨s, hCompose⟩, hRest⟩ := List.forall_mem_cons.mp h
    obtain ⟨hHead, hTail⟩ := List.cons_subset.mp hEntries
    obtain ⟨ss, hCollect, hAll⟩ := ih hTail hRest
    have hSurface := (compose_eq_ok_iff hHead).mp hCompose
    refine ⟨s :: ss, ?_, List.Forall₂.cons hCompose hAll⟩
    rw [List.map_cons, alone_cons, hSurface, collect_cons_ok, hCollect]
    rfl

theorem collect_alone_first (hEntries : pre ++ (name, c) :: post ⊆ l.configurations.entries)
    (hBefore : ∀ x ∈ pre, ∃ s, l.compose (some x.1) o = .ok s)
    (hFails : l.surface (some c) o = .error e) :
    l.collect (l.alone o ((pre ++ (name, c) :: post).map (·.2))) = .error (l.failureOf c e) := by
  induction pre with
  | nil =>
    rw [List.nil_append, List.map_cons, alone_cons, hFails]
    exact collect_cons_error (isDefect_of_surface hFails)
  | cons x pre ih =>
    obtain ⟨⟨s, hCompose⟩, hRest⟩ := List.forall_mem_cons.mp hBefore
    obtain ⟨hHead, hTail⟩ := List.cons_subset.mp hEntries
    have hSurface := (compose_eq_ok_iff hHead).mp hCompose
    rw [List.cons_append, List.map_cons, alone_cons, hSurface, collect_cons_ok, ih hTail hRest]
    rfl

theorem collects_alone (l : Library) (o : SurfaceOptions) :
    l.Collects o (l.collect (l.alone o l.configurations.values)) where
  all h := by
    refine collect_alone_all (List.Subset.refl _) ?_
    intro x hx
    exact h x.1 (List.mem_map_of_mem hx)
  first pre name c post failure hEntries hBefore hFails := by
    have hHere : (name, c) ∈ l.configurations.entries := by
      rw [hEntries]
      exact List.mem_append_right _ List.mem_cons_self
    obtain ⟨e, hSurface, rfl⟩ := (compose_eq_error_iff hHere).mp hFails
    have hAll : pre ++ (name, c) :: post ⊆ l.configurations.entries := by
      rw [hEntries]
      exact List.Subset.refl _
    refine ⟨?_, e, isDefect_of_surface hSurface, rfl⟩
    rw [NameMap.values, hEntries]
    exact collect_alone_first hAll hBefore hSurface

/-! ## Schedules -/

theorem getElem?_runsFrom (seen : StopRequests) (cs : List Configuration) (i k : Nat) :
    (l.runsFrom o seen i cs)[k]? = cs[k]?.map fun c => (c, l.run o seen (i + k) c) := by
  induction cs generalizing i k with
  | nil => simp [runsFrom]
  | cons c cs ih =>
    cases k with
    | zero => rfl
    | succ k =>
      rw [runsFrom, List.getElem?_cons_succ, List.getElem?_cons_succ, ih]
      have hNumber : i + 1 + k = i + (k + 1) := by omega
      rw [hNumber]

theorem runs_unasked (l : Library) (o : SurfaceOptions) :
    l.runs o (fun _ _ => false) = l.alone o l.configurations.values := by
  apply List.ext_getElem?
  intro k
  rw [runs, getElem?_runsFrom, alone, List.getElem?_map]
  rfl

theorem getElem?_finished {i : Nat} {r : Except ComposeError Surface} :
    (Batch.finished results)[i]? = some (c, .done r) ↔ results[i]? = some (c, r) := by
  rw [Batch.finished, List.getElem?_map]
  cases results[i]? with
  | none => simp
  | some x => simp [Prod.ext_iff]

theorem map_configuration_finished :
    (Batch.finished results).map (·.1) = results.map (·.1) := by
  rw [Batch.finished, List.map_map]
  rfl

/-- What comes of the runs under a schedule comes of them under some requests to stop. -/
theorem exists_runs_of_orderly (h : l.Orderly o (Batch.finished results)) :
    ∃ seen, results = l.runs o seen := by
  have hStop : ∀ i : Nat, ∃ stop : Nat → Bool, ∀ c r, results[i]? = some (c, r) →
      l.surfaceUntil (some c) o stop = r := by
    intro i
    cases hAt : results[i]? with
    | none => exact ⟨fun _ => false, by simp⟩
    | some x =>
      obtain ⟨stop, hStop⟩ := h.follows i x.1 (.done x.2) (getElem?_finished.mpr hAt)
      refine ⟨stop, ?_⟩
      rintro c r hPair
      obtain rfl := Option.some.inj hPair
      exact hStop
  choose seen hSeen using hStop
  refine ⟨seen, List.ext_getElem? fun k => ?_⟩
  rw [runs, getElem?_runsFrom, ← h.configurations, map_configuration_finished,
    List.getElem?_map, Option.map_map, Nat.zero_add]
  cases hAt : results[k]? with
  | none => rfl
  | some x =>
    show some x = some (x.1, l.surfaceUntil (some x.1) o (seen k))
    rw [hSeen k x.1 x.2 hAt]

/-- What is collected under a schedule is what the runs give by themselves. -/
theorem collect_of_orderly (h : l.Orderly o (Batch.finished results)) :
    l.collect results = l.collect (l.alone o l.configurations.values) := by
  rw [← h.configurations, map_configuration_finished]
  refine collect_eq_alone ?_ ?_
  · intro x hx
    obtain ⟨i, hAt⟩ := List.mem_iff_getElem?.mp hx
    obtain ⟨stop, hStop⟩ := h.follows i x.1 (.done x.2) (getElem?_finished.mpr hAt)
    rw [← hStop]
    exact surfaceUntil_cases l o x.1 stop
  · intro i c n hAt
    obtain ⟨j, hj, d, e, hFailed, hDefect⟩ := h.behind i c n (getElem?_finished.mpr hAt)
    exact ⟨j, hj, d, e, getElem?_finished.mp hFailed, hDefect⟩

/--
The surfaces of a batch do not depend on how its runs are scheduled or on which of them see a
request to stop: they are those that the configurations have by themselves, or else the first
failure among these. However far a batch has come, it can be finished.
-/
theorem composeAll_scheduled (configuration : Option String)
    (hSome : l.configurations.isEmpty = false) :
    l.Collects o (l.composeAll configuration o) ∧
    (∀ results, l.Reaches o l.waiting (Batch.finished results) →
      ∃ seen, results = l.runs o seen ∧
        l.composeBatch configuration o seen = l.composeAll configuration o) ∧
    ∀ b, l.Reaches o l.waiting b → ∃ results, l.Reaches o b (Batch.finished results) := by
  have hBatch (seen : StopRequests) :
      l.composeBatch configuration o seen = l.collect (l.runs o seen) := by
    rw [composeBatch, hSome, if_neg Bool.false_ne_true]
  have hAll : l.composeAll configuration o = l.collect (l.alone o l.configurations.values) := by
    rw [composeAll, hBatch, runs_unasked]
  refine ⟨?_, ?_, fun b _ => exists_reaches_finished l o b⟩
  · rw [hAll]
    exact collects_alone l o
  · intro results hReaches
    have hOrderly := orderly_reaches hReaches
    obtain ⟨seen, hRuns⟩ := exists_runs_of_orderly hOrderly
    refine ⟨seen, hRuns, ?_⟩
    rw [hBatch, hAll, ← hRuns]
    exact collect_of_orderly hOrderly

/-! ## A batch with a run that gives up -/

namespace Sample

/-- A fragment that declares a header, as all fragments of the sample do. -/
def fragment (name : String) : Fragment :=
  { name, gate := .always, constraints := [], children := []
    items := [⟨.header "a.h" false, false⟩] }

def all : Configuration := { name := "all" }

/-- The configuration that leaves one of the two fragments out. -/
def small : Configuration := { name := "small", fragments := ["one"] }

def library : Library :=
  { name := "sample"
    fragments := [fragment "one", fragment "two"]
    configurations := ⟨[("all", all), ("small", small)], by decide⟩ }

/-- What the run for `all` has collected when it comes to the second fragment. -/
def halfway : Progress :=
  { engine := (Engine.ofBaseline (library.flagsFor {} all).baseline).setPosition 1
    collected := { fragments := ["one"], items := [⟨"one", ⟨.header "a.h" false, false⟩⟩] } }

def clash : ComposeError :=
  .duplicateDeclaration "include:a.h" "one" "two"

/-- The first run fails, and the second one gives up before it has placed anything. -/
theorem reaches_finished : library.Reaches {} library.waiting
    (Batch.finished [(all, .error clash), (small, .error (.cancelled 0))]) := by
  have hOrder : library.orderFor {} all = .ok [fragment "one", fragment "two"] := rfl
  have hFirst : (library.plan (some all)).place (library.flagsFor {} all) (fragment "one")
      (Progress.start (library.flagsFor {} all)) = .ok halfway := rfl
  have hSecond : (library.plan (some all)).place (library.flagsFor {} all) (fragment "two")
      halfway = .error clash := rfl
  have hSmall : library.orderFor {} small = .ok [fragment "one"] := rfl
  have hFailed : Batch.FailedAt [(all, .done (.error clash)),
      (small, .placing 0 [fragment "one"] (Progress.start (library.flagsFor {} small)))] 0 :=
    ⟨all, clash, rfl, trivial⟩
  refine ReflTransGen.head (.advance (i := 0) rfl (.order hOrder)) ?_
  refine ReflTransGen.head (.advance (i := 0) rfl (.place hFirst)) ?_
  refine ReflTransGen.head (.advance (i := 0) rfl (.fail hSecond)) ?_
  refine ReflTransGen.head (.advance (i := 1) rfl (.order hSmall)) ?_
  exact ReflTransGen.single (.giveUp (i := 1) rfl ⟨0, Nat.one_pos, hFailed⟩)

end Sample

theorem composeAll_scheduled_sample :
    Sample.library.configurations.isEmpty = false ∧
      ∃ seen, [(Sample.all, .error Sample.clash), (Sample.small, .error (.cancelled 0))]
          = Sample.library.runs {} seen ∧
        Sample.library.composeBatch none {} seen = Sample.library.composeAll none {} :=
  ⟨rfl, (composeAll_scheduled none rfl).2.1 _ Sample.reaches_finished⟩

end Library

end DeclSurface
