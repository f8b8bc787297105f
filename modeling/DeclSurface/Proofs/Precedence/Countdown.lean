import DeclSurface.Proofs.Precedence.Placement
import Mathlib.Data.List.Count

/-!
# Counting down to the next node

Whether a node is ready is not looked up but counted: each node has the number of edges that it
waits for, and the nodes that wait for none are kept in a list of their own. The counts are right
between any two steps, so the nodes are placed as `Placement` says, and no count goes below zero.

* `Counts`                 — what a countdown has counted when some nodes have not been placed.
* `Counts.placeReady?_eq`  — a count that goes down was not zero.
* `placement_placed`       — counting places the nodes as looking at all edges would.
* `placed_length_eq_iff`   — all nodes are placed exactly when no edges form a cycle.
* `stableOrder_eq_ok_iff`  — when there is a stable order, and which.
-/

namespace DeclSurface.Precedence

open Relation

variable {g : Precedence} {left js : List Nat} {c : Countdown} {i j : Nat}

/-! ## Edges that are counted -/

/-- How many edges lead to `j` from nodes of `left`. -/
def incoming (g : Precedence) (left : List Nat) (j : Nat) : Nat :=
  g.edges.countP fun e => e.2 == j && left.contains e.1

theorem mem_successors_iff : j ∈ g.successors i ↔ g.Leads i j := by
  simp [successors, Leads]

theorem incoming_eq_zero_iff : g.incoming left j = 0 ↔ g.isReady left j = true := by
  rw [isReady_eq_true_iff, incoming, List.countP_eq_zero]
  constructor
  · intro h a ha hLeads
    have := h (a, j) hLeads
    simp [ha] at this
  · rintro h ⟨a, b⟩ hab
    rw [Bool.and_eq_true, beq_iff_eq, List.contains_iff_mem]
    rintro ⟨rfl, ha⟩
    exact h a ha hab

theorem count_successors :
    (g.successors i).count j = g.edges.countP fun e => e.2 == j && e.1 == i := by
  unfold successors
  rw [List.count, List.countP_map, List.countP_filter]
  rfl

/-- The edges to `j` are those from `i` and those from the other nodes. -/
theorem incoming_erase (hNodup : left.Nodup) (hi : i ∈ left) :
    g.incoming left j = g.incoming (left.erase i) j + (g.successors i).count j := by
  rw [count_successors]
  unfold incoming
  induction g.edges with
  | nil => rfl
  | cons e es ih =>
    rw [List.countP_cons, List.countP_cons, List.countP_cons, ih]
    have hMem : (left.erase i).contains e.1 = (e.1 != i && left.contains e.1) := by
      rw [Bool.eq_iff_iff]
      simp [hNodup.mem_erase_iff]
    have hEdge : (if (e.2 == j && left.contains e.1) = true then 1 else 0)
        = (if (e.2 == j && (left.erase i).contains e.1) = true then 1 else 0)
          + if (e.2 == j && e.1 == i) = true then 1 else 0 := by
      rw [hMem]
      by_cases hei : e.1 = i
      · simp [hei, hi]
      · simp [hei]
    omega

/-! ## What is counted -/

/--
What a countdown has counted when `left` are the nodes that have not been placed, and the last one
that was placed has edges to `js` that are still counted.
-/
structure Counts (g : Precedence) (left js : List Nat) (c : Countdown) : Prop where
  length : c.waiting.length = g.size
  waiting : ∀ j < g.size, c.waiting.getD j 0 = g.incoming left j + js.count j
  ready : ∀ j, j ∈ c.ready ↔ j ∈ left ∧ c.waiting.getD j 0 = 0
  nodup : c.ready.Nodup
  sorted : left.Pairwise (· < ·)
  inRange : ∀ j ∈ left, j < g.size
  /-- Whatever must come after a node that has not been placed has not been placed. -/
  closed : ∀ a ∈ left, ∀ b, g.Leads a b → b ∈ left
  ahead : ∀ j ∈ js, j ∈ left

theorem counts_countdown (hIn : g.InRange) : g.Counts (List.range g.size) [] g.countdown := by
  have hWaiting : ∀ j < g.size,
      g.countdown.waiting.getD j 0 = g.incoming (List.range g.size) j := by
    intro j hj
    have hCount : g.countdown.waiting.getD j 0 = g.edges.countP fun e => e.2 == j := by
      simp [countdown, hj]
    rw [hCount]
    refine List.countP_congr fun e he => ?_
    have := (hIn e.1 e.2 he).1
    simp [this]
  refine ⟨by simp [countdown], hWaiting, ?_, ?_, List.pairwise_lt_range, by simp, ?_, by simp⟩
  · intro j
    simp [countdown]
  · exact List.nodup_range.filter _
  · intro a _ b hLeads
    exact List.mem_range.mpr (hIn a b hLeads).2

namespace Counts

theorem nodup_left (h : g.Counts left js c) : left.Nodup :=
  h.sorted.imp Nat.ne_of_lt

/-- A node to which an edge is still to be counted has not been counted down to zero. -/
theorem waiting_pos (h : g.Counts left (j :: js) c) : ∃ k, c.waiting[j]? = some (k + 1) := by
  have hj : j < g.size := h.inRange j (h.ahead j List.mem_cons_self)
  have hLt : j < c.waiting.length := h.length ▸ hj
  have hWaiting := h.waiting j hj
  rw [List.getD_eq_getElem?_getD, List.getElem?_eq_getElem hLt, Option.getD_some,
    List.count_cons_self] at hWaiting
  refine ⟨c.waiting[j] - 1, ?_⟩
  rw [List.getElem?_eq_getElem hLt]
  congr 1
  omega

theorem release (h : g.Counts left (j :: js) c) : g.Counts left js (c.release j) := by
  have hj : j < g.size := h.inRange j (h.ahead j List.mem_cons_self)
  have hLt : j < c.waiting.length := h.length ▸ hj
  -- only the count of `j` changes, and it was not zero
  have hSame : (c.release j).waiting.getD j 0 = c.waiting.getD j 0 - 1 := by
    simp [Countdown.release, hLt]
  have hOther {k : Nat} (hk : k ≠ j) :
      (c.release j).waiting.getD k 0 = c.waiting.getD k 0 := by
    simp [Countdown.release, List.getD_eq_getElem?_getD, List.getElem?_set_ne hk.symm]
  have hCount := h.waiting j hj
  rw [List.count_cons_self] at hCount
  have hNotReady : j ∉ c.ready := by
    rw [h.ready]
    omega
  refine ⟨by simp [Countdown.release, h.length], ?_, ?_, ?_, h.sorted, h.inRange, h.closed, ?_⟩
  · intro k hk
    by_cases hkj : k = j
    · subst hkj
      omega
    · have hWaiting := h.waiting k hk
      rw [List.count_cons_of_ne (Ne.symm hkj)] at hWaiting
      rw [hOther hkj, hWaiting]
  · intro k
    by_cases hkj : k = j
    · subst hkj
      rw [hSame]
      by_cases hZero : c.waiting.getD k 0 - 1 = 0
      · have hReady : (c.release k).ready = k :: c.ready := if_pos hZero
        simp only [hReady, List.mem_cons_self, hZero, h.ahead k List.mem_cons_self, and_self]
      · have hReady : (c.release k).ready = c.ready := if_neg hZero
        simp only [hReady, hNotReady, hZero, and_false]
    · have hMem : k ∈ (c.release j).ready ↔ k ∈ c.ready := by
        unfold Countdown.release
        dsimp only
        split
        · simp [hkj]
        · rfl
      rw [hMem, h.ready, hOther hkj]
  · unfold Countdown.release
    dsimp only
    split
    · exact List.nodup_cons.mpr ⟨hNotReady, h.nodup⟩
    · exact h.nodup
  · intro k hk
    exact h.ahead k (List.mem_cons_of_mem _ hk)

theorem releaseAll (h : g.Counts left js c) : g.Counts left [] (c.releaseAll js) := by
  induction js generalizing c with
  | nil => exact h
  | cons j js ih => exact ih h.release

theorem isReady_iff (h : g.Counts left [] c) : j ∈ c.ready ↔ j ∈ left ∧ g.isReady left j = true := by
  rw [h.ready, ← incoming_eq_zero_iff]
  refine and_congr_right fun hj => ?_
  rw [h.waiting j (h.inRange j hj), List.count_nil, Nat.add_zero]

theorem take (h : g.Counts left [] c) (hi : i ∈ c.ready) :
    g.Counts (left.erase i) (g.successors i) (c.take i) := by
  obtain ⟨hLeft, hReady⟩ := h.isReady_iff.mp hi
  rw [isReady_eq_true_iff] at hReady
  have hMem {k : Nat} : k ∈ left.erase i ↔ k ≠ i ∧ k ∈ left := h.nodup_left.mem_erase_iff
  refine ⟨h.length, ?_, ?_, h.nodup.erase i, h.sorted.sublist List.erase_sublist, ?_, ?_, ?_⟩
  · intro j hj
    rw [← incoming_erase h.nodup_left hLeft]
    exact h.waiting j hj
  · intro j
    show j ∈ c.ready.erase i ↔ j ∈ left.erase i ∧ c.waiting.getD j 0 = 0
    rw [h.nodup.mem_erase_iff, hMem, h.ready, and_assoc]
  · intro j hj
    exact h.inRange j (List.mem_of_mem_erase hj)
  -- nothing that is left leads to the node that is placed
  · intro a ha b hLeads
    have haLeft := List.mem_of_mem_erase ha
    refine hMem.mpr ⟨?_, h.closed a haLeft b hLeads⟩
    rintro rfl
    exact hReady a haLeft hLeads
  · intro j hj
    rw [mem_successors_iff] at hj
    refine hMem.mpr ⟨?_, h.closed i hLeft j hj⟩
    rintro rfl
    exact hReady j hLeft hj

/-- The least of the nodes that wait for none is the first that is ready. -/
theorem find?_isReady (h : g.Counts left [] c) : left.find? (g.isReady left) = c.ready.min? := by
  cases hFind : left.find? (g.isReady left) with
  | none =>
    rw [List.find?_eq_none] at hFind
    have hNil : c.ready = [] := by
      refine List.eq_nil_iff_forall_not_mem.mpr fun i hi => ?_
      obtain ⟨hLeft, hReady⟩ := h.isReady_iff.mp hi
      exact hFind i hLeft hReady
    rw [hNil, List.min?_nil]
  | some i =>
    obtain ⟨hReady, before, after, rfl, hBefore⟩ := List.find?_eq_some_iff_append.mp hFind
    refine (List.min?_eq_some_iff.mpr ⟨h.isReady_iff.mpr ⟨by simp, hReady⟩, ?_⟩).symm
    intro j hj
    obtain ⟨hLeft, hReady⟩ := h.isReady_iff.mp hj
    rcases List.mem_append.mp hLeft with hMem | hMem
    · have := hBefore j hMem
      simp [hReady] at this
    · rcases List.mem_cons.mp hMem with rfl | hMem
      · exact Nat.le_refl j
      · exact Nat.le_of_lt (List.rel_of_pairwise_cons (List.pairwise_append.mp h.sorted).2.1 hMem)

end Counts

/-! ## Counting with a check -/

/-- The countdown with one edge less to `j`, unless `j` has been counted down to zero. -/
def release? (c : Countdown) (j : Nat) : Option Countdown :=
  match c.waiting[j]? with
  | some (_ + 1) => some (c.release j)
  | _ => none

/-- Places ready nodes one by one as `placeReady` does; fails where a count would go below zero. -/
def placeReady? (g : Precedence) : (fuel : Nat) → Countdown → Option (List Nat)
  | 0, _ => some []
  | fuel + 1, c =>
    match c.ready.min? with
    | none => some []
    | some i => do
      let c ← (g.successors i).foldlM release? (c.take i)
      let rest ← g.placeReady? fuel c
      some (i :: rest)

theorem Counts.release?_eq (h : g.Counts left (j :: js) c) : release? c j = some (c.release j) := by
  obtain ⟨k, hk⟩ := h.waiting_pos
  rw [release?, hk]

theorem Counts.foldlM_release? (h : g.Counts left js c) :
    js.foldlM release? c = some (c.releaseAll js) := by
  induction js generalizing c with
  | nil => rfl
  | cons j js ih =>
    rw [List.foldlM_cons, h.release?_eq, Option.bind_eq_bind, Option.bind_some, ih h.release]
    rfl

/-- No count goes below zero. -/
theorem Counts.placeReady?_eq {fuel : Nat} (h : g.Counts left [] c) :
    g.placeReady? fuel c = some (g.placeReady fuel c) := by
  induction fuel generalizing left c with
  | zero => rfl
  | succ fuel ih =>
    rw [placeReady?, placeReady]
    cases hFirst : c.ready.min? with
    | none => rfl
    | some i =>
      have hTaken := h.take (List.min?_eq_some_iff.mp hFirst).1
      simp only [hTaken.foldlM_release?, ih hTaken.releaseAll, Option.bind_eq_bind,
        Option.bind_some]

/-! ## The stable order -/

theorem Counts.placement {fuel : Nat} (h : g.Counts left [] c) (hFuel : left.length ≤ fuel) :
    g.Placement left (g.placeReady fuel c) := by
  induction fuel generalizing left c with
  | zero =>
    have hNil : left = [] := List.length_eq_zero_iff.mp (by omega)
    subst hNil
    exact .stuck (by simp)
  | succ fuel ih =>
    rw [placeReady, ← h.find?_isReady]
    cases hFirst : left.find? (g.isReady left) with
    | none =>
      -- nothing is ready, so every node left waits for another
      refine .stuck fun i hi => ?_
      have hNot := List.find?_eq_none.mp hFirst i hi
      rw [isReady_eq_true_iff] at hNot
      push Not at hNot
      exact hNot
    | some i =>
      have hMem : i ∈ left := List.mem_of_find?_eq_some hFirst
      have hReady : i ∈ c.ready := h.isReady_iff.mpr ⟨hMem, List.find?_some hFirst⟩
      have hLen : (left.erase i).length = left.length - 1 := List.length_erase_of_mem hMem
      exact .next hFirst (ih (h.take hReady).releaseAll (by omega))

theorem placement_placed (hIn : g.InRange) : g.Placement (List.range g.size) g.placed :=
  (counts_countdown hIn).placement (by simp)

theorem placed_length_le (hIn : g.InRange) : g.placed.length ≤ g.size := by
  simpa using (placement_placed hIn).subperm.length_le

/-- All nodes are placed exactly when there is no cycle. -/
theorem placed_length_eq_iff (hIn : g.InRange) : g.placed.length = g.size ↔ g.Acyclic := by
  have hPlacement := placement_placed hIn
  constructor
  · intro hLen
    refine hPlacement.acyclic (hPlacement.perm (by simp [hLen])) fun i j hij => ?_
    simpa using hIn i j hij
  · intro hAcyclic
    by_contra hLen
    have := placed_length_le hIn
    obtain ⟨i, hi⟩ := hPlacement.exists_cycle (by rw [List.length_range]; omega)
    exact hAcyclic i hi

theorem orderWith_eq_ok_iff {split : Precedence → List (List Nat)} {order : List Nat}
    (hIn : g.InRange) : g.orderWith split = .ok order ↔ g.Acyclic ∧ g.placed = order := by
  have := placed_length_le hIn
  rw [← placed_length_eq_iff hIn, orderWith]
  split
  · constructor
    · simp
    · omega
  · constructor
    · intro h
      exact ⟨by omega, Except.ok.inj h⟩
    · rintro ⟨-, rfl⟩
      rfl

theorem stableOrder_eq_ok_iff {order : List Nat} (hIn : g.InRange) :
    g.stableOrder = .ok order ↔ g.Acyclic ∧ g.placed = order :=
  orderWith_eq_ok_iff hIn

theorem placed_perm (hIn : g.InRange) (hAcyclic : g.Acyclic) :
    g.placed.Perm (List.range g.size) :=
  (placement_placed hIn).perm (by simp [(placed_length_eq_iff hIn).mpr hAcyclic])

end DeclSurface.Precedence
