import DeclSurface.Proofs.Precedence.StableOrder
import Mathlib.Data.List.Sort

/-!
# Cycles by name

An error speaks of names, and nodes are numbered. Where names are distinct nothing is lost by that:
the names on the cycle are those that the edges between names lead to and back, in the order in
which names were registered.

* `NamedCycle`                   — the names on a cycle with the earliest one that is on any.
* `namedCycle_of_earliestCycle`  — the names of the earliest cycle.
* `namedCycle_of_stableOrder`    — these are the names in an error.
* `orderWith_ofCalls`            — the error of a graph that calls have built.
-/

namespace DeclSurface.Precedence

open Relation

variable {g : Precedence} {names : List String} {calls : List (String × String)}
  {cycle : List Nat} {i j : Nat}

/-- An edge leads from a node of the name `a` to one of the name `b`. -/
def Precedes (g : Precedence) (a b : String) : Prop :=
  ∃ i j, g.names[i]? = some a ∧ g.names[j]? = some b ∧ g.Leads i j

/--
The names that `first` leads to and that lead to it, where `first` is the earliest of `names` that
lies on a cycle; they are given in the order of `names`.
-/
structure NamedCycle (r : String → String → Prop) (names : List String) (first : String)
    (cycle : List String) : Prop where
  head? : cycle.head? = some first
  onCycle : TransGen r first first
  earliest : ∀ n, TransGen r n n → n = first ∨ [first, n].Sublist names
  mem_iff : ∀ n, n ∈ cycle ↔ TransGen r first n ∧ TransGen r n first
  inOrder : cycle.Sublist names

/-- Two names on the cycle lead to each other. -/
theorem NamedCycle.leads {r : String → String → Prop} {first a b : String} {cycle : List String}
    (h : NamedCycle r names first cycle) (ha : a ∈ cycle) (hb : b ∈ cycle) : TransGen r a b :=
  ((h.mem_iff a).mp ha).2.trans ((h.mem_iff b).mp hb).1

/-! ## From numbers to names -/

theorem getElem?_nameOf (hi : i < g.size) : g.names[i]? = some (g.nameOf i) := by
  unfold nameOf
  rw [List.getD_eq_getElem?_getD, List.getElem?_eq_getElem hi, Option.getD_some]

theorem nameOf_of_getElem? {n : String} (h : g.names[i]? = some n) : g.nameOf i = n := by
  unfold nameOf
  rw [List.getD_eq_getElem?_getD, h, Option.getD_some]

theorem map_nameOf_range (g : Precedence) : (List.range g.size).map g.nameOf = g.names := by
  apply List.ext_getElem?
  intro i
  rcases Nat.lt_or_ge i g.size with hLt | hGe
  · rw [List.getElem?_map, List.getElem?_range hLt, getElem?_nameOf hLt, Option.map_some]
  · rw [List.getElem?_eq_none (by simpa using hGe), List.getElem?_eq_none hGe]

/-- Names of numbers that increase come in the order of registration. -/
theorem map_nameOf_sublist (hSorted : cycle.Pairwise (· < ·)) (hLt : ∀ i ∈ cycle, i < g.size) :
    (cycle.map g.nameOf).Sublist g.names := by
  have hSubset : cycle ⊆ List.range g.size := fun i hi => List.mem_range.mpr (hLt i hi)
  have hSubperm := List.subperm_of_subset (hSorted.imp Nat.ne_of_lt) hSubset
  have hSublist : cycle.Sublist (List.range g.size) :=
    List.sublist_of_subperm_of_pairwise hSubperm (hSorted.imp Nat.le_of_lt)
      (List.pairwise_lt_range.imp Nat.le_of_lt)
  rw [← map_nameOf_range g]
  exact hSublist.map _

theorem precedes_of_leads (hIn : g.InRange) (h : g.Leads i j) :
    g.Precedes (g.nameOf i) (g.nameOf j) :=
  ⟨i, j, getElem?_nameOf (hIn i j h).1, getElem?_nameOf (hIn i j h).2, h⟩

section Distinct

variable (hNodup : g.names.Nodup)
include hNodup

theorem idxOf_of_getElem? {n : String} (h : g.names[i]? = some n) : g.names.idxOf n = i := by
  obtain ⟨hLt, rfl⟩ := List.getElem?_eq_some_iff.mp h
  exact hNodup.idxOf_getElem i hLt

theorem leads_idxOf_of_precedes {a b : String} (h : g.Precedes a b) :
    g.Leads (g.names.idxOf a) (g.names.idxOf b) := by
  obtain ⟨i, j, hi, hj, hLeads⟩ := h
  rwa [idxOf_of_getElem? hNodup hi, idxOf_of_getElem? hNodup hj]

/-- Edges between names lead where the edges between their numbers lead. -/
theorem transGen_precedes_iff (hIn : g.InRange) {a b : String} :
    TransGen g.Precedes a b ↔
      ∃ i j, g.names[i]? = some a ∧ g.names[j]? = some b ∧ TransGen g.Leads i j := by
  constructor
  · intro h
    obtain ⟨_, ⟨i, _, hi, -, -⟩, -⟩ := TransGen.head'_iff.mp h
    obtain ⟨_, -, ⟨_, j, -, hj, -⟩⟩ := TransGen.tail'_iff.mp h
    refine ⟨i, j, hi, hj, ?_⟩
    -- a distinct name stands at one place, so a step between names is one between places
    have hNumbers : TransGen g.Leads (g.names.idxOf a) (g.names.idxOf b) :=
      h.lift g.names.idxOf fun a b => leads_idxOf_of_precedes hNodup
    rwa [idxOf_of_getElem? hNodup hi, idxOf_of_getElem? hNodup hj] at hNumbers
  · rintro ⟨i, j, hi, hj, h⟩
    rw [← nameOf_of_getElem? hi, ← nameOf_of_getElem? hj]
    exact h.lift g.nameOf fun i j => precedes_of_leads hIn

/-- The names of the nodes on the earliest cycle. -/
theorem namedCycle_of_earliestCycle (hIn : g.InRange) (h : EarliestCycle g.Leads i cycle) :
    NamedCycle g.Precedes g.names (g.nameOf i) (cycle.map g.nameOf) := by
  have hLt : ∀ j ∈ cycle, j < g.size := by
    intro j hj
    obtain ⟨k, hLeads, -⟩ := TransGen.head'_iff.mp ((h.mem_iff j).mp hj).2
    exact (hIn j k hLeads).1
  have hi := getElem?_nameOf (hLt i h.self_mem)
  refine ⟨by rw [List.head?_map, h.head?, Option.map_some], ?_, ?_, ?_, ?_⟩
  · exact (transGen_precedes_iff hNodup hIn).mpr ⟨i, i, hi, hi, h.onCycle⟩
  · intro n hn
    obtain ⟨j, k, hj, hk, hCycle⟩ := (transGen_precedes_iff hNodup hIn).mp hn
    obtain rfl : j = k := by
      rw [← idxOf_of_getElem? hNodup hj, idxOf_of_getElem? hNodup hk]
    rcases Nat.lt_or_eq_of_le (h.earliest j hCycle) with hBefore | rfl
    · refine Or.inr ?_
      have hjLt : j < g.size := (List.getElem?_eq_some_iff.mp hj).1
      have hPair : ([i, j].map g.nameOf).Sublist g.names :=
        map_nameOf_sublist (by simp [hBefore]) (by simp [hLt i h.self_mem, hjLt])
      rwa [List.map_cons, List.map_singleton, nameOf_of_getElem? hj] at hPair
    · exact Or.inl (nameOf_of_getElem? hj).symm
  · intro n
    rw [List.mem_map, transGen_precedes_iff hNodup hIn, transGen_precedes_iff hNodup hIn]
    constructor
    · rintro ⟨j, hj, rfl⟩
      have hName := getElem?_nameOf (hLt j hj)
      obtain ⟨hAhead, hBack⟩ := (h.mem_iff j).mp hj
      exact ⟨⟨i, j, hi, hName, hAhead⟩, ⟨j, i, hName, hi, hBack⟩⟩
    · rintro ⟨⟨a, j, ha, hj, hAhead⟩, ⟨k, b, hk, hb, hBack⟩⟩
      rw [← idxOf_of_getElem? hNodup ha, idxOf_of_getElem? hNodup hi] at hAhead
      rw [← idxOf_of_getElem? hNodup hk, ← idxOf_of_getElem? hNodup hb,
        idxOf_of_getElem? hNodup hi, idxOf_of_getElem? hNodup hj] at hBack
      exact ⟨j, (h.mem_iff j).mpr ⟨hAhead, hBack⟩, nameOf_of_getElem? hj⟩
  · exact map_nameOf_sublist h.sorted hLt

/-- The error of a graph in which edges form a cycle, however its components are found. -/
theorem orderWith_eq_namedCycle (hIn : g.InRange) (hCyclic : ∃ n, TransGen g.Precedes n n) :
    ∃ first cycle, NamedCycle g.Precedes g.names first cycle ∧
      ∀ split, IsSplit g.Leads g.size (split g) → g.orderWith split = .error (.cycle cycle) := by
  obtain ⟨n, hn⟩ := hCyclic
  obtain ⟨i, j, hi, hj, hCycle⟩ := (transGen_precedes_iff hNodup hIn).mp hn
  obtain rfl : i = j := by
    rw [← idxOf_of_getElem? hNodup hi, idxOf_of_getElem? hNodup hj]
  obtain ⟨k, cycle, hEarliest, -⟩ :=
    orderWith_eq_error_of_cyclic hIn (isSplit_components g) ⟨i, hCycle⟩
  refine ⟨_, _, namedCycle_of_earliestCycle hNodup hIn hEarliest, fun split hSplit => ?_⟩
  obtain ⟨l, cycle', hEarliest', hError⟩ := orderWith_eq_error_of_cyclic hIn hSplit ⟨i, hCycle⟩
  rw [hError, hEarliest.unique hEarliest']

/-- An error names the cycle of the names that come first. -/
theorem namedCycle_of_stableOrder {cycle : List String} (hIn : g.InRange)
    (h : g.stableOrder = .error (.cycle cycle)) :
    ∃ first, NamedCycle g.Precedes g.names first cycle := by
  have hCyclic : ∃ i, TransGen g.Leads i i := by
    by_contra hNone
    rw [(stableOrder_eq_ok_iff hIn).mpr ⟨fun i hi => hNone ⟨i, hi⟩, rfl⟩] at h
    simp at h
  obtain ⟨i, numbers, hEarliest, hError⟩ :=
    orderWith_eq_error_of_cyclic hIn (isSplit_components g) hCyclic
  rw [stableOrder, hError] at h
  obtain rfl := ComposeError.cycle.inj (Except.error.inj h)
  exact ⟨_, namedCycle_of_earliestCycle hNodup hIn hEarliest⟩

end Distinct

/-! ## Calls -/

/-- Some call asks for the name `a` to come before the name `b`, and both are names of nodes. -/
def AskedByName (names : List String) (calls : List (String × String)) (a b : String) : Prop :=
  (a, b) ∈ calls ∧ a ∈ names ∧ b ∈ names

instance {a b : String} : Decidable (AskedByName names calls a b) :=
  inferInstanceAs (Decidable (_ ∧ _ ∧ _))

/-- Where names are distinct, edges between names are what calls ask for. -/
theorem precedes_ofCalls (hNodup : names.Nodup) :
    (ofCalls names calls).Precedes = AskedByName names calls := by
  funext a b
  refine propext ?_
  unfold Precedes AskedByName
  rw [names_ofCalls]
  simp only [leads_ofCalls_iff, Asked, denotes_iff hNodup]
  constructor
  · rintro ⟨i, j, hi, hj, ⟨a', b'⟩, hCall, ha, hb⟩
    obtain rfl := Option.some.inj (hi.symm.trans ha)
    obtain rfl := Option.some.inj (hj.symm.trans hb)
    exact ⟨hCall, List.mem_of_getElem? hi, List.mem_of_getElem? hj⟩
  · rintro ⟨hCall, ha, hb⟩
    obtain ⟨i, hi⟩ := List.getElem?_of_mem ha
    obtain ⟨j, hj⟩ := List.getElem?_of_mem hb
    exact ⟨i, j, hi, hj, (a, b), hCall, hi, hj⟩

/-- The error of a graph that calls have built, however its components are found. -/
theorem orderWith_ofCalls (hNodup : names.Nodup)
    (hCyclic : ∃ n, TransGen (AskedByName names calls) n n) :
    ∃ first cycle, NamedCycle (AskedByName names calls) names first cycle ∧
      ∀ split, IsSplit (Asked names calls) names.length (split (ofCalls names calls)) →
        (ofCalls names calls).orderWith split = .error (.cycle cycle) := by
  have hNodup' : (ofCalls names calls).names.Nodup := by
    rwa [names_ofCalls]
  rw [← precedes_ofCalls hNodup] at hCyclic
  obtain ⟨first, cycle, hCycle, hError⟩ :=
    orderWith_eq_namedCycle hNodup' inRange_ofCalls hCyclic
  rw [precedes_ofCalls hNodup, names_ofCalls] at hCycle
  rw [leads_ofCalls, size_ofCalls] at hError
  exact ⟨first, cycle, hCycle, hError⟩

end DeclSurface.Precedence
