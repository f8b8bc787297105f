import DeclSurface.Proofs.Precedence.Countdown

/-!
# Cycles and components

Where nodes cannot all be placed, the cycle that is named is found among the strongly connected
components: those that hold a cycle are sorted, and the first of them is taken. Whatever order the
components come in, this is the component of the earliest node that lies on any cycle.

* `mem_reachable_iff`             — the search finds just what edges lead to.
* `IsSplit`                       — a list of the strongly connected components.
* `isSplit_components`            — those of a graph are found.
* `earliestCycle_cycleAmong`      — the cycle that is named, whatever order components come in.
* `orderWith_eq_error_of_cyclic`  — where edges form a cycle, there is no order but this cycle.
* `stableOrder_eq`                — the components of the graph itself need no sorting.
-/

namespace DeclSurface.Precedence

open Relation

variable {g : Precedence} {fuel i j : Nat} {todo seen : List Nat} {cs : List (List Nat)}

/-! ## Search -/

/-- How many edges begin at nodes that have not been seen. -/
def unseen (g : Precedence) (seen : List Nat) : Nat :=
  g.edges.countP fun e => !seen.contains e.1

/-- The edges of a node that has not been seen are among the unseen ones. -/
theorem unseen_cons (hi : i ∉ seen) :
    g.unseen seen = g.unseen (i :: seen) + (g.successors i).length := by
  unfold unseen successors
  rw [List.length_map, ← List.countP_eq_length_filter]
  induction g.edges with
  | nil => rfl
  | cons e es ih =>
    obtain ⟨a, b⟩ := e
    rw [List.countP_cons, List.countP_cons, List.countP_cons, ih]
    dsimp only
    have hEdge : (if (!seen.contains a) = true then 1 else 0)
        = (if (!(i :: seen).contains a) = true then 1 else 0)
          + if (a == i) = true then 1 else 0 := by
      by_cases hai : a = i
      · simp [hai, hi]
      · simp [hai]
    omega

/-- Edges from what has been seen lead to what has been seen or is still to do. -/
def Closed (g : Precedence) (seen todo : List Nat) : Prop :=
  ∀ a ∈ seen, ∀ b, g.Leads a b → b ∈ seen ∨ b ∈ todo

/-- A node that has been seen need not be done again. -/
theorem Closed.skip (h : g.Closed seen (i :: todo)) (hi : i ∈ seen) : g.Closed seen todo := by
  intro a ha b hLeads
  rcases h a ha b hLeads with hb | hb
  · exact Or.inl hb
  · rcases List.mem_cons.mp hb with rfl | hb
    · exact Or.inl hi
    · exact Or.inr hb

/-- A node has been seen once its edges are to do. -/
theorem Closed.visit (h : g.Closed seen (i :: todo)) :
    g.Closed (i :: seen) (g.successors i ++ todo) := by
  intro a ha b hLeads
  rw [List.mem_append, mem_successors_iff, List.mem_cons]
  rcases List.mem_cons.mp ha with rfl | ha
  · exact Or.inr (Or.inl hLeads)
  · rcases h a ha b hLeads with hb | hb
    · exact Or.inl (Or.inr hb)
    · rcases List.mem_cons.mp hb with rfl | hb
      · exact Or.inl (Or.inl rfl)
      · exact Or.inr (Or.inr hb)

/-- A path from what has been seen ends there or passes through what is still to do. -/
theorem Closed.exists_todo (h : g.Closed seen todo) (hi : i ∈ seen)
    (hPath : ReflTransGen g.Leads i j) : j ∈ seen ∨ ∃ k ∈ todo, ReflTransGen g.Leads k j := by
  induction hPath using ReflTransGen.head_induction_on with
  | refl => exact Or.inl hi
  | @head a b hLeads hPath ih =>
    rcases h a hi b hLeads with hb | hb
    · exact ih hb
    · exact Or.inr ⟨b, hb, hPath⟩

/-- Whatever a node leads to is the node itself or what its edges lead to. -/
theorem visit_iff :
    (j ∈ i :: seen ∨ ∃ k ∈ g.successors i ++ todo, ReflTransGen g.Leads k j) ↔
      j ∈ seen ∨ ReflTransGen g.Leads i j ∨ ∃ k ∈ todo, ReflTransGen g.Leads k j := by
  rw [ReflTransGen.cases_head_iff (a := i)]
  simp only [List.mem_cons, List.mem_append, mem_successors_iff]
  constructor
  · rintro ((rfl | h) | ⟨k, hk | hk, hPath⟩)
    · exact Or.inr (Or.inl (Or.inl rfl))
    · exact Or.inl h
    · exact Or.inr (Or.inl (Or.inr ⟨k, hk, hPath⟩))
    · exact Or.inr (Or.inr ⟨k, hk, hPath⟩)
  · rintro (h | (rfl | ⟨k, hk, hPath⟩) | ⟨k, hk, hPath⟩)
    · exact Or.inl (Or.inr h)
    · exact Or.inl (Or.inl rfl)
    · exact Or.inr ⟨k, Or.inl hk, hPath⟩
    · exact Or.inr ⟨k, Or.inr hk, hPath⟩

/-- With enough fuel the search finds all that edges lead to from what is to do. -/
theorem mem_follow_iff (hFuel : todo.length + g.unseen seen ≤ fuel) (hClosed : g.Closed seen todo) :
    j ∈ g.follow fuel todo seen ↔ j ∈ seen ∨ ∃ i ∈ todo, ReflTransGen g.Leads i j := by
  induction fuel generalizing todo seen with
  | zero =>
    have hNil : todo = [] := List.length_eq_zero_iff.mp (by omega)
    subst hNil
    simp [follow]
  | succ fuel ih =>
    cases todo with
    | nil => simp [follow]
    | cons i todo =>
      rw [List.length_cons] at hFuel
      rw [follow, List.exists_mem_cons_iff]
      by_cases hi : i ∈ seen
      · have hClosed' := hClosed.skip hi
        rw [if_pos (List.contains_iff_mem.mpr hi), ih (by omega) hClosed']
        constructor
        · exact Or.imp_right Or.inr
        · rintro (h | h | h)
          · exact Or.inl h
          -- what `i` leads to has been seen or is reached from the rest
          · exact hClosed'.exists_todo hi h
          · exact Or.inr h
      · -- each edge is put to do once, when the node that it begins at is seen
        have hUnseen := unseen_cons (g := g) hi
        have hFuel' : (g.successors i ++ todo).length + g.unseen (i :: seen) ≤ fuel := by
          rw [List.length_append]
          omega
        rw [if_neg (mt List.contains_iff_mem.mp hi), ih hFuel' hClosed.visit, visit_iff]

theorem mem_reachable_iff : j ∈ g.reachable i ↔ TransGen g.Leads i j := by
  have hFuel : (g.successors i).length + g.unseen [] ≤ 2 * g.edges.length := by
    have hLength : (g.successors i).length ≤ g.edges.length := by
      unfold successors
      rw [List.length_map]
      exact List.length_filter_le _ _
    have hUnseen : g.unseen [] ≤ g.edges.length := List.countP_le_length
    omega
  rw [reachable, mem_follow_iff hFuel (by simp [Closed]), TransGen.head'_iff]
  simp only [List.not_mem_nil, false_or, mem_successors_iff]

theorem reaches_iff : g.reaches i j = true ↔ TransGen g.Leads i j := by
  rw [reaches, List.contains_iff_mem, mem_reachable_iff]

/-! ## Components -/

/-- Two nodes that lead to each other, or that are one. -/
def Linked (r : Nat → Nat → Prop) (i j : Nat) : Prop :=
  ReflTransGen r i j ∧ ReflTransGen r j i

theorem Linked.symm {r : Nat → Nat → Prop} (h : Linked r i j) : Linked r j i :=
  ⟨h.2, h.1⟩

theorem Linked.trans {r : Nat → Nat → Prop} {k : Nat} (h : Linked r i j) (h' : Linked r j k) :
    Linked r i k :=
  ⟨h.1.trans h'.1, h'.2.trans h.2⟩

/-- The first `n` numbers are split into those that `r` links with each other. -/
structure IsSplit (r : Nat → Nat → Prop) (n : Nat) (cs : List (List Nat)) : Prop where
  perm : cs.flatten.Perm (List.range n)
  linked : ∀ c ∈ cs, ∀ i ∈ c, ∀ j < n, j ∈ c ↔ Linked r i j

theorem mem_component_iff : j ∈ g.component i ↔ j < g.size ∧ Linked g.Leads i j := by
  unfold component Linked
  rw [List.mem_filter, List.mem_range, reflTransGen_iff_eq_or_transGen,
    reflTransGen_iff_eq_or_transGen, Bool.or_eq_true, Bool.and_eq_true, beq_iff_eq,
    List.contains_iff_mem, mem_reachable_iff, reaches_iff]
  refine and_congr_right fun _ => ?_
  constructor
  · rintro (rfl | ⟨h, h'⟩)
    · exact ⟨Or.inl rfl, Or.inl rfl⟩
    · exact ⟨Or.inr h, Or.inr h'⟩
  · rintro ⟨rfl | h, h'⟩
    · exact Or.inl rfl
    · rcases h' with rfl | h'
      · exact Or.inl rfl
      · exact Or.inr ⟨h, h'⟩

theorem nodup_component : (g.component i).Nodup :=
  List.nodup_range.filter _

theorem component_eq_of_linked (h : Linked g.Leads i j) : g.component i = g.component j := by
  unfold component
  refine List.filter_congr fun k hk => ?_
  have hMem : k ∈ g.component i ↔ k ∈ g.component j := by
    rw [mem_component_iff, mem_component_iff]
    exact and_congr_right fun _ => ⟨h.symm.trans, h.trans⟩
  unfold component at hMem
  rw [List.mem_filter, List.mem_filter, and_iff_right hk, and_iff_right hk] at hMem
  exact Bool.eq_iff_iff.mpr hMem

theorem mem_components_iff {c : List Nat} :
    c ∈ g.components ↔ ∃ i < g.size, c = g.component i ∧ c.head? = some i := by
  unfold components
  rw [List.mem_filterMap]
  constructor
  · rintro ⟨i, hi, hFound⟩
    dsimp only at hFound
    split at hFound
    · rename_i hHead
      obtain rfl := Option.some.inj hFound
      exact ⟨i, List.mem_range.mp hi, rfl, hHead⟩
    · simp at hFound
  · rintro ⟨i, hi, rfl, hHead⟩
    exact ⟨i, List.mem_range.mpr hi, if_pos hHead⟩

/-- Every node is in a component that is listed, at its first node. -/
theorem exists_mem_components (hi : i < g.size) : ∃ c ∈ g.components, i ∈ c := by
  have hSelf : i ∈ g.component i := mem_component_iff.mpr ⟨hi, .refl, .refl⟩
  obtain ⟨k, ks, hCons⟩ := List.exists_cons_of_ne_nil (List.ne_nil_of_mem hSelf)
  have hk : k ∈ g.component i := hCons ▸ List.mem_cons_self
  obtain ⟨hkLt, hLinked⟩ := mem_component_iff.mp hk
  have hSame := component_eq_of_linked hLinked
  exact ⟨_, mem_components_iff.mpr ⟨k, hkLt, hSame, by rw [hCons, List.head?_cons]⟩, hSelf⟩

/-- No node is in two components, and none is listed twice. -/
theorem nodup_flatten_components : g.components.flatten.Nodup := by
  rw [List.nodup_flatten]
  constructor
  · intro c hc
    obtain ⟨i, -, rfl, -⟩ := mem_components_iff.mp hc
    exact nodup_component
  · unfold components
    rw [List.pairwise_filterMap]
    refine List.nodup_range.imp fun {a b} hNe c hc d hd => ?_
    dsimp only at hc hd
    split at hc
    · split at hd
      · rename_i hHead hHead'
        obtain rfl := Option.some.inj hc
        obtain rfl := Option.some.inj hd
        intro k hk hk'
        -- components that share a node are the same, and so have the same first node
        have hLinked := (mem_component_iff.mp hk).2.trans (mem_component_iff.mp hk').2.symm
        rw [component_eq_of_linked hLinked, hHead'] at hHead
        exact hNe (Option.some.inj hHead).symm
      · simp at hd
    · simp at hc

theorem isSplit_components (g : Precedence) : IsSplit g.Leads g.size g.components := by
  constructor
  · rw [List.perm_ext_iff_of_nodup nodup_flatten_components List.nodup_range]
    intro i
    rw [List.mem_flatten, List.mem_range]
    constructor
    · rintro ⟨c, hc, hi⟩
      obtain ⟨k, -, rfl, -⟩ := mem_components_iff.mp hc
      exact (mem_component_iff.mp hi).1
    · exact exists_mem_components
  · intro c hc i hi j hj
    obtain ⟨k, -, rfl, -⟩ := mem_components_iff.mp hc
    have hLinked := (mem_component_iff.mp hi).2
    rw [mem_component_iff, and_iff_right hj]
    exact ⟨hLinked.symm.trans, hLinked.trans⟩

/-! ## The cycle that is named -/

/-- The least of sorted numbers comes first. -/
theorem head?_of_least {c : List Nat} (hSorted : c.Pairwise (· < ·)) (hi : i ∈ c)
    (hLeast : ∀ j ∈ c, i ≤ j) : c.head? = some i := by
  obtain ⟨k, ks, rfl⟩ := List.exists_cons_of_ne_nil (List.ne_nil_of_mem hi)
  have hk := hLeast k List.mem_cons_self
  rcases List.mem_cons.mp hi with rfl | hMem
  · rfl
  · have := List.rel_of_pairwise_cons hSorted hMem
    omega

/-- The nodes that lead to `i` and that it leads to, where `i` is the earliest node on a cycle. -/
structure EarliestCycle (r : Nat → Nat → Prop) (i : Nat) (cycle : List Nat) : Prop where
  onCycle : TransGen r i i
  earliest : ∀ j, TransGen r j j → i ≤ j
  sorted : cycle.Pairwise (· < ·)
  mem_iff : ∀ j, j ∈ cycle ↔ TransGen r i j ∧ TransGen r j i

namespace EarliestCycle

variable {r : Nat → Nat → Prop} {cycle cycle' : List Nat}

theorem self_mem (h : EarliestCycle r i cycle) : i ∈ cycle :=
  (h.mem_iff i).mpr ⟨h.onCycle, h.onCycle⟩

/-- The earliest node on a cycle comes first. -/
theorem head? (h : EarliestCycle r i cycle) : cycle.head? = some i := by
  refine head?_of_least h.sorted h.self_mem fun j hj => h.earliest j ?_
  obtain ⟨hij, hji⟩ := (h.mem_iff j).mp hj
  exact hji.trans hij

theorem unique (h : EarliestCycle r i cycle) (h' : EarliestCycle r j cycle') : cycle = cycle' := by
  obtain rfl : i = j :=
    Nat.le_antisymm (h.earliest j h'.onCycle) (h'.earliest i h.onCycle)
  have hPerm : cycle.Perm cycle' := by
    rw [List.perm_ext_iff_of_nodup (h.sorted.imp Nat.ne_of_lt) (h'.sorted.imp Nat.ne_of_lt)]
    intro k
    rw [h.mem_iff, h'.mem_iff]
  exact hPerm.eq_of_pairwise (fun a b _ _ hab hba => absurd hab (Nat.lt_asymm hba))
    h.sorted h'.sorted

end EarliestCycle

theorem Linked.transGen_iff {r : Nat → Nat → Prop} (hi : TransGen r i i) :
    Linked r i j ↔ TransGen r i j ∧ TransGen r j i := by
  constructor
  · rintro ⟨h, h'⟩
    exact ⟨hi.trans_left h, TransGen.trans_right h' hi⟩
  · rintro ⟨h, h'⟩
    exact ⟨h.to_reflTransGen, h'.to_reflTransGen⟩

namespace IsSplit

variable {r : Nat → Nat → Prop} {n : Nat} {c : List Nat}

theorem nodup (h : IsSplit r n cs) (hc : c ∈ cs) : c.Nodup :=
  (List.nodup_flatten.mp (h.perm.nodup_iff.mpr List.nodup_range)).1 c hc

theorem lt_of_mem (h : IsSplit r n cs) (hc : c ∈ cs) (hi : i ∈ c) : i < n :=
  List.mem_range.mp (h.perm.subset (List.mem_flatten_of_mem hc hi))

theorem exists_mem (h : IsSplit r n cs) (hi : i < n) : ∃ c ∈ cs, i ∈ c :=
  List.mem_flatten.mp (h.perm.symm.subset (List.mem_range.mpr hi))

/-- A component holds a cycle when one of its nodes lies on a cycle, and then all of them do. -/
theorem isCyclic_iff (hIn : g.InRange) (h : IsSplit g.Leads g.size cs) (hc : c ∈ cs) (hi : i ∈ c) :
    g.isCyclic c = true ↔ TransGen g.Leads i i := by
  unfold isCyclic
  rw [Bool.or_eq_true, decide_eq_true_eq, List.any_eq_true]
  constructor
  · -- a node of a component leads to the others and they to it
    have hSpread {j : Nat} (hj : j ∈ c) (hCycle : TransGen g.Leads j j) : TransGen g.Leads i i := by
      have hLinked := (h.linked c hc i hi j (h.lt_of_mem hc hj)).mp hj
      exact TransGen.trans_right hLinked.1 (hCycle.trans_left hLinked.2)
    rintro (hLength | ⟨j, hj, hEdge⟩)
    · obtain ⟨a, b, rest, rfl⟩ : ∃ a b rest, c = a :: b :: rest := by
        match c, hLength with
        | a :: b :: rest, _ => exact ⟨a, b, rest, rfl⟩
      have hNe : a ≠ b := fun hab => (List.nodup_cons.mp (h.nodup hc)).1 (hab ▸ List.mem_cons_self)
      have hb : b ∈ a :: b :: rest := by simp
      have hLinked := (h.linked _ hc a List.mem_cons_self b (h.lt_of_mem hc hb)).mp hb
      have hAhead := (reflTransGen_iff_eq_or_transGen.mp hLinked.1).resolve_left hNe.symm
      exact hSpread List.mem_cons_self (hAhead.trans_left hLinked.2)
    · exact hSpread hj (TransGen.single (List.contains_iff_mem.mp hEdge))
  · intro hCycle
    obtain ⟨k, hLeads, hPath⟩ := TransGen.head'_iff.mp hCycle
    by_cases hki : k = i
    · subst hki
      exact Or.inr ⟨k, hi, List.contains_iff_mem.mpr hLeads⟩
    · -- the next node of the cycle is another node of the component
      have hk : k ∈ c := (h.linked c hc i hi k (hIn i k hLeads).2).mpr ⟨.single hLeads, hPath⟩
      refine Or.inl (Nat.lt_of_not_le fun hLe => hki ?_)
      match c, hi, hk, hLe with
      | [a], hi, hk, _ => rw [List.mem_singleton.mp hi, List.mem_singleton.mp hk]

end IsSplit

/-- No list that is sorted stands, in the order of their elements, before the first. -/
theorem lex_eq_false_of_head?_mergeSort {cycles : List (List Nat)} {c d : List Nat}
    (hFirst : (cycles.mergeSort fun c d => !d.lex c).head? = some c) (hd : d ∈ cycles) :
    d.lex c = false := by
  have hSorted : (cycles.mergeSort fun c d => !d.lex c).Pairwise fun c d => (!d.lex c) = true := by
    refine List.pairwise_mergeSort ?_ ?_ cycles
    · intro a b c hab hbc
      rw [Bool.not_eq_true', List.lex_eq_false_iff_ge] at hab hbc ⊢
      exact List.le_trans hab hbc
    · intro a b
      rw [Bool.or_eq_true, Bool.not_eq_true', Bool.not_eq_true', List.lex_eq_false_iff_ge,
        List.lex_eq_false_iff_ge]
      exact List.le_total a b
  obtain ⟨rest, hCons⟩ := List.head?_eq_some_iff.mp hFirst
  have hMem := (List.mergeSort_perm cycles fun c d => !d.lex c).mem_iff.mpr hd
  rw [hCons] at hSorted hMem
  rcases List.mem_cons.mp hMem with rfl | hMem
  · rw [List.lex_eq_false_iff_ge]
    exact List.le_refl d
  · have hLe := List.rel_of_pairwise_cons hSorted hMem
    rwa [Bool.not_eq_true'] at hLe

theorem sorted_mergeSort_of_nodup {c : List Nat} (h : c.Nodup) : c.mergeSort.Pairwise (· < ·) := by
  have hLe : c.mergeSort.Pairwise fun a b => decide (a ≤ b) = true :=
    List.pairwise_mergeSort (fun a b c hab hbc => by simp_all; omega) (fun a b => by simp; omega) c
  have hNe : c.mergeSort.Pairwise (· ≠ ·) := (List.mergeSort_perm c _).nodup_iff.mpr h
  refine (hLe.and hNe).imp ?_
  rintro a b ⟨hab, hne⟩
  exact Nat.lt_of_le_of_ne (of_decide_eq_true hab) hne

theorem mem_mergeSort_iff {c : List Nat} : j ∈ c.mergeSort ↔ j ∈ c :=
  (List.mergeSort_perm c _).mem_iff

/-- Of the components that hold a cycle, the first once they are sorted has the earliest node. -/
theorem exists_cycleAmong_eq (hIn : g.InRange) (hSplit : IsSplit g.Leads g.size cs)
    (hi : TransGen g.Leads i i) (hLeast : ∀ j, TransGen g.Leads j j → i ≤ j) :
    ∃ c ∈ cs, i ∈ c ∧ g.cycleAmong cs = c.mergeSort := by
  obtain ⟨k, hLeads, -⟩ := TransGen.head'_iff.mp hi
  obtain ⟨c, hc, hic⟩ := hSplit.exists_mem (hIn i k hLeads).1
  have hCyclic := (hSplit.isCyclic_iff hIn hc hic).mpr hi
  -- every node of a component that holds a cycle lies on a cycle
  have hOn {d : List Nat} (hd : d ∈ cs.filter g.isCyclic) {j : Nat} (hj : j ∈ d) :
      TransGen g.Leads j j :=
    (hSplit.isCyclic_iff hIn (List.mem_filter.mp hd).1 hj).mp (List.mem_filter.mp hd).2
  have hcFilter : c ∈ cs.filter g.isCyclic := List.mem_filter.mpr ⟨hc, hCyclic⟩
  let cycles := (cs.filter g.isCyclic).map fun c => c.mergeSort
  have hSort := List.mergeSort_perm cycles fun c d => !d.lex c
  have hcCycles : c.mergeSort ∈ cycles := List.mem_map_of_mem hcFilter
  obtain ⟨first, rest, hCons⟩ :=
    List.exists_cons_of_ne_nil (List.ne_nil_of_mem (hSort.mem_iff.mpr hcCycles))
  have hFirst : (cycles.mergeSort fun c d => !d.lex c).head? = some first := by
    rw [hCons, List.head?_cons]
  have hResult : g.cycleAmong cs = first := by
    show (cycles.mergeSort fun c d => !d.lex c).head?.getD [] = first
    rw [hFirst, Option.getD_some]
  obtain ⟨d, hd, rfl⟩ := List.mem_map.mp (hSort.mem_iff.mp (hCons ▸ List.mem_cons_self))
  refine ⟨d, (List.mem_filter.mp hd).1, ?_, hResult⟩
  -- its first node is on a cycle, and none that is sorted has an earlier one
  have hcLeast : ∀ j ∈ c.mergeSort, i ≤ j :=
    fun j hj => hLeast j (hOn hcFilter (mem_mergeSort_iff.mp hj))
  obtain ⟨is, hcHead⟩ := List.head?_eq_some_iff.mp
    (head?_of_least (sorted_mergeSort_of_nodup (hSplit.nodup hc)) (mem_mergeSort_iff.mpr hic)
      hcLeast)
  have hLex := lex_eq_false_of_head?_mergeSort hFirst hcCycles
  cases hdCons : d.mergeSort with
  | nil =>
    obtain rfl : d = [] := (hdCons ▸ List.mergeSort_perm d _).symm.eq_nil
    simp [isCyclic] at hd
  | cons m ms =>
    have hm : m ∈ d := mem_mergeSort_iff.mp (hdCons ▸ List.mem_cons_self)
    have hLe := hLeast m (hOn hd hm)
    rw [hcHead, hdCons, List.lex, Bool.or_eq_false_iff, decide_eq_false_iff_not] at hLex
    exact Nat.le_antisymm hLe (Nat.le_of_not_lt hLex.1) ▸ hm

/-- The cycle that is named is the component of the earliest node on a cycle. -/
theorem earliestCycle_cycleAmong (hIn : g.InRange) (hSplit : IsSplit g.Leads g.size cs)
    (hCyclic : ∃ i, TransGen g.Leads i i) : ∃ i, EarliestCycle g.Leads i (g.cycleAmong cs) := by
  classical
  have hi : TransGen g.Leads (Nat.find hCyclic) (Nat.find hCyclic) := Nat.find_spec hCyclic
  have hLeast : ∀ j, TransGen g.Leads j j → Nat.find hCyclic ≤ j :=
    fun j hj => Nat.find_min' hCyclic hj
  obtain ⟨c, hc, hic, hResult⟩ := exists_cycleAmong_eq hIn hSplit hi hLeast
  rw [hResult]
  refine ⟨_, hi, hLeast, sorted_mergeSort_of_nodup (hSplit.nodup hc), fun j => ?_⟩
  rw [mem_mergeSort_iff, ← Linked.transGen_iff hi]
  constructor
  · intro hj
    exact (hSplit.linked c hc _ hic j (hSplit.lt_of_mem hc hj)).mp hj
  · intro hLinked
    obtain ⟨k, -, hLeads⟩ := TransGen.tail'_iff.mp ((Linked.transGen_iff hi).mp hLinked).1
    exact (hSplit.linked c hc _ hic j (hIn k j hLeads).2).mpr hLinked

/-- Where edges form a cycle there is no order; the earliest cycle is named instead. -/
theorem orderWith_eq_error_of_cyclic {split : Precedence → List (List Nat)} (hIn : g.InRange)
    (hSplit : IsSplit g.Leads g.size (split g)) (hCyclic : ∃ i, TransGen g.Leads i i) :
    ∃ i cycle, EarliestCycle g.Leads i cycle ∧
      g.orderWith split = .error (.cycle (cycle.map g.nameOf)) := by
  obtain ⟨i, hCycle⟩ := earliestCycle_cycleAmong hIn hSplit hCyclic
  refine ⟨i, _, hCycle, ?_⟩
  have hLt : g.placed.length < g.size := by
    refine Nat.lt_of_le_of_ne (placed_length_le hIn) fun hAll => ?_
    exact (placed_length_eq_iff hIn).mp hAll i hCycle.onCycle
  rw [orderWith]
  exact if_pos hLt

/-! ## The components of the graph itself -/

theorem pairwise_component (g : Precedence) (i : Nat) :
    (g.component i).Pairwise fun a b => decide (a ≤ b) = true := by
  have hRange : (List.range g.size).Pairwise fun a b => decide (a ≤ b) = true :=
    List.pairwise_lt_range.imp fun h => decide_eq_true (Nat.le_of_lt h)
  exact hRange.filter _

/-- The components are found in the order of their first nodes. -/
theorem pairwise_components : g.components.Pairwise fun c d => (!d.lex c) = true := by
  refine List.pairwise_filterMap.mpr (List.pairwise_lt_range.imp ?_)
  intro i j hLt c hc d hd
  obtain ⟨hcHead, hcEq⟩ := Option.ite_none_right_eq_some.mp hc
  obtain ⟨hdHead, hdEq⟩ := Option.ite_none_right_eq_some.mp hd
  obtain ⟨is, hcCons⟩ := List.head?_eq_some_iff.mp hcHead
  obtain ⟨js, hdCons⟩ := List.head?_eq_some_iff.mp hdHead
  rw [← Option.some.inj hcEq, ← Option.some.inj hdEq, hcCons, hdCons, List.lex]
  -- the first nodes differ, and so decide
  have hNot : decide (j < i) = false := decide_eq_false (by omega)
  have hNe : (j == i) = false := beq_false_of_ne (by omega)
  rw [hNot, hNe]
  rfl

/-- The components of the graph itself are sorted as they are found. -/
theorem cycleAmong_components :
    g.cycleAmong g.components = (g.components.find? g.isCyclic).getD [] := by
  have hNodes : (g.components.filter g.isCyclic).map (fun c => c.mergeSort)
      = g.components.filter g.isCyclic := by
    refine (List.map_congr_left fun c hc => ?_).trans (List.map_id _)
    obtain ⟨i, -, hFound⟩ := List.mem_filterMap.mp (List.mem_filter.mp hc).1
    obtain ⟨-, hEq⟩ := Option.ite_none_right_eq_some.mp hFound
    rw [← Option.some.inj hEq]
    exact List.mergeSort_of_pairwise (g.pairwise_component i)
  rw [cycleAmong, hNodes, List.mergeSort_of_pairwise (pairwise_components.filter _),
    List.head?_filter]

/-- Without sorting: the first component that holds a cycle makes an order impossible. -/
theorem stableOrder_eq : g.stableOrder =
    if g.placed.length < g.size then
      .error (.cycle (((g.components.find? g.isCyclic).getD []).map g.nameOf))
    else .ok g.placed := by
  rw [stableOrder, orderWith, cycleAmong_components]

end DeclSurface.Precedence
