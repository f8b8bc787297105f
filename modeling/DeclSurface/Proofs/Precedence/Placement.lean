import DeclSurface.Composition.Precedence
import Mathlib.Data.Fintype.EquivFin
import Mathlib.Data.List.Perm.Subperm
import Mathlib.Logic.Relation
import Mathlib.Order.WellFounded

/-!
# Placing the nodes of a precedence

Nodes are placed one by one, each time the first that is ready. `Placement` is that process
without a bound on its length; what holds of an order is proved by induction on it.

* `Placement.mem_of_leads`    — what must come before a placed node stands before it.
* `Placement.exists_leads`    — an earlier node is passed over only while something holds it back.
* `Placement.exists_cycle`    — some nodes are never placed only if edges form a cycle.
* `Placement.acyclic`         — nor are all nodes placed if edges form one.
* `Placement.least`           — of all orders that edges allow, it is the least one.
-/

namespace DeclSurface.Precedence

open Relation

variable {g : Precedence} {left order : List Nat}

/-- An edge says that `i` comes before `j`. -/
def Leads (g : Precedence) (i j : Nat) : Prop :=
  (i, j) ∈ g.edges

/-- No edges lead from a node back to it. -/
def Acyclic (g : Precedence) : Prop :=
  ∀ i, ¬ TransGen g.Leads i i

/-- Edges join nodes. -/
def InRange (g : Precedence) : Prop :=
  ∀ i j, g.Leads i j → i < g.size ∧ j < g.size

/-- Whether no node of `left` must come before `i`. -/
def isReady (g : Precedence) (left : List Nat) (i : Nat) : Bool :=
  g.edges.all fun (a, b) => b != i || !left.contains a

theorem isReady_eq_true_iff {i : Nat} :
    g.isReady left i = true ↔ ∀ a ∈ left, ¬ g.Leads a i := by
  unfold isReady
  rw [List.all_eq_true]
  constructor
  · intro h a ha hLeads
    have := h (a, i) hLeads
    simp [ha] at this
  · rintro h ⟨a, b⟩ hab
    by_cases hb : b = i
    · subst hb
      have ha : a ∉ left := fun ha => h a ha hab
      simp [ha]
    · simp [hb]

/--
An order in which the nodes of `left` are placed: each time the first that is ready goes next,
and the process ends when none is.
-/
inductive Placement (g : Precedence) : (left order : List Nat) → Prop where
  | stuck {left : List Nat} (hStuck : ∀ i ∈ left, ∃ a ∈ left, g.Leads a i) : Placement g left []
  | next {left rest : List Nat} {i : Nat} (hFirst : left.find? (g.isReady left) = some i)
      (hRest : Placement g (left.erase i) rest) : Placement g left (i :: rest)

/-! ## What is placed -/

theorem Placement.subperm (h : g.Placement left order) : order.Subperm left := by
  induction h with
  | stuck => exact List.nil_subperm
  | @next left rest i hFirst _ ih =>
    have hMem : i ∈ left := List.mem_of_find?_eq_some hFirst
    exact ((List.subperm_cons i).mpr ih).trans (List.perm_cons_erase hMem).symm.subperm

theorem Placement.perm (h : g.Placement left order) (hLen : left.length ≤ order.length) :
    order.Perm left :=
  h.subperm.perm_of_length_le hLen

/-- What must come before a placed node has been placed before it. -/
theorem Placement.mem_of_leads (h : g.Placement left order) {a b : Nat} (ha : a ∈ left)
    (hLeads : g.Leads a b) {pre post : List Nat} (hOrder : order = pre ++ b :: post) :
    a ∈ pre := by
  induction h generalizing pre with
  | stuck => simp at hOrder
  | @next left rest i hFirst _ ih =>
    have hReady : g.isReady left i = true := List.find?_some hFirst
    rw [isReady_eq_true_iff] at hReady
    cases pre with
    | nil =>
      -- the node placed first has nothing before it among those left
      obtain ⟨rfl, -⟩ := List.cons.inj hOrder
      exact absurd hLeads (hReady a ha)
    | cons c pre =>
      obtain ⟨rfl, hRest⟩ := List.cons.inj hOrder
      by_cases hai : a = i
      · exact hai ▸ List.mem_cons_self
      · exact List.mem_cons_of_mem _ (ih ((List.mem_erase_of_ne hai).mpr ha) hRest)

/--
A node that stands earlier among those left is passed over only while a node that must come
before it has not been placed.
-/
theorem Placement.exists_leads (h : g.Placement left order) (hSorted : left.Pairwise (· < ·))
    {b x : Nat} (hx : x ∈ left) (hxb : x < b) {pre post : List Nat}
    (hOrder : order = pre ++ b :: post) (hPre : x ∉ pre) :
    ∃ a ∈ left, a ∉ pre ∧ g.Leads a x := by
  induction h generalizing pre with
  | stuck => simp at hOrder
  | @next left rest i hFirst _ ih =>
    cases pre with
    | nil =>
      obtain ⟨rfl, -⟩ := List.cons.inj hOrder
      obtain ⟨-, before, after, rfl, hBefore⟩ := List.find?_eq_some_iff_append.mp hFirst
      -- the nodes are sorted, so `x` stands before the first that is ready
      have hxBefore : x ∈ before := by
        rcases List.mem_append.mp hx with hx | hx
        · exact hx
        · rcases List.mem_cons.mp hx with rfl | hx
          · omega
          · have := List.rel_of_pairwise_cons (List.pairwise_append.mp hSorted).2.1 hx
            omega
      have hNot := hBefore x hxBefore
      rw [Bool.not_eq_true', ← Bool.not_eq_true, isReady_eq_true_iff] at hNot
      push Not at hNot
      obtain ⟨a, ha, hLeads⟩ := hNot
      exact ⟨a, ha, by simp, hLeads⟩
    | cons c pre =>
      obtain ⟨rfl, hRest⟩ := List.cons.inj hOrder
      -- `x` is still left after the first step, and what holds it back then did so before
      rw [List.mem_cons, not_or] at hPre
      obtain ⟨a, ha, haPre, hLeads⟩ := ih (hSorted.sublist List.erase_sublist)
        ((List.mem_erase_of_ne hPre.1).mpr hx) hRest hPre.2
      refine ⟨a, List.mem_of_mem_erase ha, ?_, hLeads⟩
      rw [List.mem_cons, not_or]
      refine ⟨?_, haPre⟩
      rintro rfl
      exact (List.Nodup.not_mem_erase (hSorted.imp Nat.ne_of_lt)) ha

/-! ## Cycles -/

/-- Where every member of a list has a predecessor in it, predecessors form a cycle. -/
theorem exists_transGen_self {r : Nat → Nat → Prop} (hNe : left ≠ [])
    (hPred : ∀ i ∈ left, ∃ a ∈ left, r a i) : ∃ i, TransGen r i i := by
  -- without a cycle there is a least node, which has no predecessor
  by_contra hNone
  push Not at hNone
  let before (a b : {i // i ∈ left}) : Prop := TransGen r a.1 b.1
  have : IsTrans _ before := ⟨fun _ _ _ => TransGen.trans⟩
  have : Std.Irrefl before := ⟨fun a => hNone a.1⟩
  have hWf : WellFounded before := Finite.wellFounded_of_trans_of_irrefl before
  obtain ⟨i, hi⟩ := List.exists_mem_of_ne_nil left hNe
  obtain ⟨⟨m, hm⟩, -, hMin⟩ := hWf.has_min Set.univ ⟨⟨i, hi⟩, trivial⟩
  obtain ⟨a, ha, hr⟩ := hPred m hm
  exact hMin ⟨a, ha⟩ trivial (TransGen.single hr)

theorem Placement.exists_cycle (h : g.Placement left order) (hLen : order.length < left.length) :
    ∃ i, TransGen g.Leads i i := by
  induction h with
  | @stuck left hStuck =>
    have hNe : left ≠ [] := by
      rintro rfl
      simp at hLen
    exact exists_transGen_self hNe hStuck
  | @next left rest i hFirst _ ih =>
    have hMem : i ∈ left := List.mem_of_find?_eq_some hFirst
    have hErase : (left.erase i).length = left.length - 1 := List.length_erase_of_mem hMem
    rw [List.length_cons] at hLen
    exact ih (by omega)

theorem Placement.idxOf_lt_of_leads (h : g.Placement left order) {a b : Nat} (ha : a ∈ left)
    (hb : b ∈ order) (hLeads : g.Leads a b) : order.idxOf a < order.idxOf b := by
  obtain ⟨pre, post, hOrder, hNot⟩ := List.eq_append_cons_of_mem hb
  have haPre : a ∈ pre := h.mem_of_leads ha hLeads hOrder
  rw [hOrder, List.idxOf_append_of_mem haPre, List.idxOf_append_of_notMem hNot]
  have := List.idxOf_lt_length_of_mem haPre
  omega

/-- Along edges the place of a node in a complete order increases. -/
theorem Placement.acyclic (h : g.Placement left order) (hPerm : order.Perm left)
    (hIn : ∀ i j, g.Leads i j → i ∈ left ∧ j ∈ left) : g.Acyclic := by
  intro i hCycle
  have hLt : TransGen (fun a b : Nat => a < b) (order.idxOf i) (order.idxOf i) :=
    hCycle.lift order.idxOf fun a b hab =>
      h.idxOf_lt_of_leads (hIn a b hab).1 (hPerm.mem_iff.mpr (hIn a b hab).2) hab
  rw [transGen_eq_self] at hLt
  exact Nat.lt_irrefl _ hLt

/-! ## The least order -/

/-- An order of the nodes of `left` in which each stands after those that must come before it. -/
structure Respects (g : Precedence) (left order : List Nat) : Prop where
  perm : order.Perm left
  before : ∀ a ∈ left, ∀ b ∈ left, g.Leads a b → order.idxOf a < order.idxOf b

/-- What stands first has nothing before it. -/
theorem Respects.isReady_head {i : Nat} (h : g.Respects left (i :: order)) :
    g.isReady left i = true := by
  rw [isReady_eq_true_iff]
  intro a ha hLeads
  have hBefore := h.before a ha i (h.perm.subset List.mem_cons_self) hLeads
  rw [List.idxOf_cons_self] at hBefore
  omega

theorem Respects.tail {i : Nat} (h : g.Respects left (i :: order)) (hNodup : left.Nodup) :
    g.Respects (left.erase i) order := by
  refine ⟨(List.cons_perm_iff_perm_erase.mp h.perm).2, ?_⟩
  intro a ha b hb hLeads
  rw [hNodup.mem_erase_iff] at ha hb
  have hBefore := h.before a ha.2 b hb.2 hLeads
  rw [List.idxOf_cons_ne _ (Ne.symm ha.1), List.idxOf_cons_ne _ (Ne.symm hb.1)] at hBefore
  omega

/-- Of all orders that edges allow, the nodes are placed in the lexicographically least. -/
theorem Placement.least (h : g.Placement left order) (hSorted : left.Pairwise (· < ·))
    (hLen : left.length ≤ order.length) {other : List Nat} (hOther : g.Respects left other) :
    order = other ∨ List.Lex (· < ·) order other := by
  induction h generalizing other with
  | @stuck left _ =>
    have hNil : left = [] := List.length_eq_zero_iff.mp (Nat.le_zero.mp hLen)
    subst hNil
    exact Or.inl hOther.perm.eq_nil.symm
  | @next left rest i hFirst _ ih =>
    have hNodup : left.Nodup := hSorted.imp Nat.ne_of_lt
    have hMem : i ∈ left := List.mem_of_find?_eq_some hFirst
    have hErase : (left.erase i).length = left.length - 1 := List.length_erase_of_mem hMem
    rw [List.length_cons] at hLen
    cases other with
    | nil => exact absurd (hOther.perm.symm.subset hMem) List.not_mem_nil
    | cons x other =>
      -- the other order begins with a node that was ready too, so no earlier than `i`
      have hx : x ∈ left := hOther.perm.subset List.mem_cons_self
      rcases Nat.lt_trichotomy i x with hLt | rfl | hGt
      · exact Or.inr (List.Lex.rel hLt)
      · have hRest := ih (hSorted.sublist List.erase_sublist) (by omega) (hOther.tail hNodup)
        exact hRest.imp (congrArg _) List.Lex.cons
      · have hReady := hOther.isReady_head
        obtain ⟨-, before, after, rfl, hBefore⟩ := List.find?_eq_some_iff_append.mp hFirst
        rw [List.pairwise_append] at hSorted
        rcases List.mem_append.mp hx with hx | hx
        · have := hBefore x hx
          simp [hReady] at this
        · rcases List.mem_cons.mp hx with rfl | hx
          · exact absurd hGt (Nat.lt_irrefl _)
          · have := List.rel_of_pairwise_cons hSorted.2.1 hx
            omega

end DeclSurface.Precedence
