import DeclSurface.Proofs.Precedence.Calls
import DeclSurface.Proofs.Precedence.Components

/-!
# The stable order

What the order of a graph is, said without the way in which it is found: of all orders that the
edges allow it is the least, and there is none exactly when edges form a cycle. So it depends on
what calls have asked for and not on when or how often.

* `LeastOrder`            — an order of nodes that a relation allows, and the least of them.
* `stableOrder_ofCalls`   — the order of a graph that calls have built.
-/

namespace DeclSurface.Precedence

open Relation

variable {g : Precedence} {names : List String} {calls calls' : List (String × String)}
  {order other : List Nat}

/--
Of the orders of the first `n` numbers in which whatever `r` puts first stands first, the
lexicographically least.
-/
structure LeastOrder (r : Nat → Nat → Prop) (n : Nat) (order : List Nat) : Prop where
  /-- Each number is there, once. -/
  perm : order.Perm (List.range n)
  before : ∀ i j, r i j → order.idxOf i < order.idxOf j
  least : ∀ other, other.Perm (List.range n) → (∀ i j, r i j → other.idxOf i < other.idxOf j) →
    order = other ∨ List.Lex (· < ·) order other

theorem LeastOrder.unique {r : Nat → Nat → Prop} {n : Nat} (h : LeastOrder r n order)
    (h' : LeastOrder r n other) : order = other := by
  rcases h.least other h'.perm h'.before with hEq | hLt
  · exact hEq
  · rcases h'.least order h.perm h.before with hEq | hGt
    · exact hEq.symm
    · exact absurd hGt (List.lt_asymm hLt)

theorem leastOrder_placed (hIn : g.InRange) (hAcyclic : g.Acyclic) :
    LeastOrder g.Leads g.size g.placed := by
  have hPlacement := placement_placed hIn
  have hPerm := placed_perm hIn hAcyclic
  refine ⟨hPerm, ?_, ?_⟩
  · intro i j hLeads
    obtain ⟨hi, hj⟩ := hIn i j hLeads
    exact hPlacement.idxOf_lt_of_leads (List.mem_range.mpr hi)
      (hPerm.mem_iff.mpr (List.mem_range.mpr hj)) hLeads
  · intro other hOther hBefore
    exact hPlacement.least List.pairwise_lt_range (by rw [hPerm.length_eq])
      ⟨hOther, fun a _ b _ => hBefore a b⟩

theorem leads_ofCalls : (ofCalls names calls).Leads = Asked names calls := by
  funext i j
  exact propext leads_ofCalls_iff

/-- Graphs of the same names whose calls ask for the same have the same order or the same cycle. -/
theorem stableOrder_congr (hAsked : Asked names calls' = Asked names calls) :
    (ofCalls names calls').stableOrder = (ofCalls names calls).stableOrder := by
  have hLeads : (ofCalls names calls').Leads = (ofCalls names calls).Leads := by
    rw [leads_ofCalls, leads_ofCalls, hAsked]
  have hSize : (ofCalls names calls').size = (ofCalls names calls).size := by
    rw [size_ofCalls, size_ofCalls]
  have hName : (ofCalls names calls').nameOf = (ofCalls names calls).nameOf := by
    funext i
    rw [nameOf, nameOf, names_ofCalls, names_ofCalls]
  by_cases hAcyclic : (ofCalls names calls).Acyclic
  · have hAcyclic' : (ofCalls names calls').Acyclic := by
      unfold Acyclic
      rwa [hLeads]
    have hOrder := leastOrder_placed inRange_ofCalls hAcyclic
    have hOrder' := leastOrder_placed inRange_ofCalls hAcyclic'
    rw [hLeads, hSize] at hOrder'
    rw [(stableOrder_eq_ok_iff inRange_ofCalls).mpr ⟨hAcyclic, rfl⟩,
      (stableOrder_eq_ok_iff inRange_ofCalls).mpr ⟨hAcyclic', rfl⟩, hOrder.unique hOrder']
  · unfold Acyclic at hAcyclic
    push Not at hAcyclic
    obtain ⟨i, cycle, hCycle, hError⟩ :=
      orderWith_eq_error_of_cyclic inRange_ofCalls (isSplit_components _) hAcyclic
    rw [← hLeads] at hAcyclic
    obtain ⟨j, cycle', hCycle', hError'⟩ :=
      orderWith_eq_error_of_cyclic inRange_ofCalls (isSplit_components _) hAcyclic
    rw [hLeads] at hCycle'
    rw [stableOrder, stableOrder, hError, hError', hCycle.unique hCycle', hName]

/--
After any calls, there is an order exactly when what they ask for forms no cycle, and then it is the
least of those that meet what they ask for; neither the order of the calls nor their repetition
matters; and no count of edges goes below zero on the way.
-/
theorem stableOrder_ofCalls (names : List String) (calls : List (String × String)) :
    ((∃ order, (ofCalls names calls).stableOrder = .ok order) ↔
      ∀ i, ¬ TransGen (Asked names calls) i i) ∧
    (∀ order, (ofCalls names calls).stableOrder = .ok order →
      LeastOrder (Asked names calls) names.length order) ∧
    (∀ calls', (∀ call, call ∈ calls' ↔ call ∈ calls) →
      (ofCalls names calls').stableOrder = (ofCalls names calls).stableOrder) ∧
    (ofCalls names calls).placeReady? (ofCalls names calls).size (ofCalls names calls).countdown =
      some (ofCalls names calls).placed := by
  have hIn : (ofCalls names calls).InRange := inRange_ofCalls
  refine ⟨?_, ?_, ?_, (counts_countdown hIn).placeReady?_eq⟩
  · simp only [stableOrder_eq_ok_iff hIn, exists_and_left, exists_eq', and_true, Acyclic,
      leads_ofCalls]
  · intro order hOrder
    obtain ⟨hAcyclic, rfl⟩ := (stableOrder_eq_ok_iff hIn).mp hOrder
    have hLeast := leastOrder_placed hIn hAcyclic
    rwa [leads_ofCalls, size_ofCalls] at hLeast
  · intro calls' hSame
    refine stableOrder_congr ?_
    funext i j
    simp only [Asked, hSame]

/-- The last name comes before the first; the others keep their places. -/
example : (ofCalls ["a", "b", "c", "d"] [("d", "a")]).stableOrder = .ok [1, 2, 3, 0] := by
  rfl

end DeclSurface.Precedence
