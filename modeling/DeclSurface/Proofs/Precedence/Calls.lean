import DeclSurface.Proofs.Precedence.Placement

/-!
# Edges that calls record

A graph is built from names by calls that each ask for one name to come before another. A name that
repeats denotes the last node that bears it, and a call about something that is not a node asks for
nothing; which edges there are in the end depends on what has been asked for and not on when.

* `Denotes`             — the node that a name stands for.
* `Asked`               — some call asks for one node to come before another.
* `leads_ofCalls_iff`   — the edges are what calls ask for.
-/

namespace DeclSurface.Precedence

variable {g : Precedence} {names : List String} {calls : List (String × String)}
  {n before after : String} {i j : Nat}

/-! ## Names of nodes -/

/-- The node that a name denotes is the last one that bears it. -/
def Denotes (names : List String) (n : String) (i : Nat) : Prop :=
  names[i]? = some n ∧ ∀ j, i < j → names[j]? ≠ some n

theorem Denotes.unique (hi : Denotes names n i) (hj : Denotes names n j) : i = j := by
  rcases Nat.lt_trichotomy i j with hLt | rfl | hGt
  · exact absurd hj.1 (hi.2 j hLt)
  · rfl
  · exact absurd hi.1 (hj.2 i hGt)

theorem denotes_of_index? (h : index? names n = some i) : Denotes names n i := by
  unfold index? at h
  rw [Option.map_eq_some_iff] at h
  obtain ⟨k, hk, rfl⟩ := h
  obtain ⟨hLt, hName, hBefore⟩ := List.findIdx?_eq_some_iff_getElem.mp hk
  rw [List.length_reverse] at hLt
  rw [List.getElem_reverse, beq_iff_eq] at hName
  refine ⟨List.getElem?_eq_some_iff.mpr ⟨_, hName⟩, ?_⟩
  -- a later node of that name would stand earlier in the reversed list
  intro j hj hLater
  obtain ⟨hjLt, hjName⟩ := List.getElem?_eq_some_iff.mp hLater
  have hNot := hBefore (names.length - 1 - j) (by omega)
  rw [List.getElem_reverse, beq_iff_eq] at hNot
  refine hNot (Eq.trans ?_ hjName)
  congr 1
  omega

theorem index?_isSome (h : n ∈ names) : (index? names n).isSome = true := by
  unfold index?
  rw [Option.isSome_map, List.findIdx?_isSome, List.any_eq_true]
  exact ⟨n, List.mem_reverse.mpr h, beq_self_eq_true n⟩

theorem index?_eq_some_iff_denotes : index? names n = some i ↔ Denotes names n i := by
  constructor
  · exact denotes_of_index?
  · intro h
    obtain ⟨j, hj⟩ := Option.isSome_iff_exists.mp (index?_isSome (List.mem_of_getElem? h.1))
    rw [hj, h.unique (denotes_of_index? hj)]

theorem getElem?_of_index? (h : index? names n = some i) : names[i]? = some n :=
  (denotes_of_index? h).1

theorem denotes_iff (hNodup : names.Nodup) : Denotes names n i ↔ names[i]? = some n := by
  constructor
  · exact And.left
  · intro h
    refine ⟨h, fun j hj hLater => ?_⟩
    have := (List.getElem?_inj (List.getElem?_eq_some_iff.mp h).1 hNodup).mp (h.trans hLater.symm)
    omega

theorem index?_eq_some_iff (hNodup : names.Nodup) :
    index? names n = some i ↔ names[i]? = some n :=
  index?_eq_some_iff_denotes.trans (denotes_iff hNodup)

/-! ## Edges -/

theorem names_addEdge : (g.addEdge before after).names = g.names := by
  unfold addEdge
  rw [addEdge?]
  split
  · split
    · rfl
    · rfl
  · rfl

theorem mem_edges_addEdge {e : Nat × Nat} :
    e ∈ (g.addEdge before after).edges ↔
      e ∈ g.edges ∨ index? g.names before = some e.1 ∧ index? g.names after = some e.2 := by
  obtain ⟨a, b⟩ := e
  unfold addEdge
  rw [addEdge?]
  split
  · rename_i i j hi hj
    rw [hi, hj]
    split
    -- the edge may be there already
    · rename_i hOld
      rw [List.contains_iff_mem] at hOld
      constructor
      · exact Or.inl
      · rintro (h | ⟨hi, hj⟩)
        · exact h
        · obtain rfl := Option.some.inj hi
          obtain rfl := Option.some.inj hj
          exact hOld
    · simp only [Option.getD_some, List.mem_append, List.mem_singleton, Prod.mk.injEq,
        Option.some.injEq]
      constructor
      · rintro (h | ⟨rfl, rfl⟩)
        · exact Or.inl h
        · exact Or.inr ⟨rfl, rfl⟩
      · rintro (h | ⟨rfl, rfl⟩)
        · exact Or.inl h
        · exact Or.inr ⟨rfl, rfl⟩
  -- an end that is not a node has no number
  · rename_i hNone
    constructor
    · exact Or.inl
    · rintro (h | ⟨hi, hj⟩)
      · exact h
      · exact absurd hj (hNone a b hi)

/-- An edge to or from something that is not a node orders nothing. -/
theorem addEdge_of_not_mem (h : before ∉ g.names ∨ after ∉ g.names) :
    g.addEdge before after = g := by
  unfold addEdge
  rw [addEdge?]
  split
  · rename_i i j hi hj
    have hBefore := List.mem_of_getElem? (getElem?_of_index? hi)
    have hAfter := List.mem_of_getElem? (getElem?_of_index? hj)
    tauto
  · rfl

/-! ## Calls -/

/-- The graph of some names, after one call after the other has asked for an edge. -/
def ofCalls (names : List String) (calls : List (String × String)) : Precedence :=
  calls.foldl (fun g call => g.addEdge call.1 call.2) { names }

/-- Some call asks for the node `i` to come before the node `j`. -/
def Asked (names : List String) (calls : List (String × String)) (i j : Nat) : Prop :=
  ∃ call ∈ calls, Denotes names call.1 i ∧ Denotes names call.2 j

theorem names_foldl_addEdge :
    (calls.foldl (fun g call => g.addEdge call.1 call.2) g).names = g.names := by
  induction calls generalizing g with
  | nil => rfl
  | cons call calls ih => rw [List.foldl_cons, ih, names_addEdge]

theorem leads_foldl_addEdge :
    (calls.foldl (fun g call => g.addEdge call.1 call.2) g).Leads i j ↔
      g.Leads i j ∨ Asked g.names calls i j := by
  induction calls generalizing g with
  | nil => simp [Asked]
  | cons call calls ih =>
    have hAdded : (g.addEdge call.1 call.2).Leads i j ↔
        g.Leads i j ∨ Denotes g.names call.1 i ∧ Denotes g.names call.2 j := by
      simp only [← index?_eq_some_iff_denotes]
      exact mem_edges_addEdge
    unfold Asked at ih ⊢
    rw [List.foldl_cons, ih, names_addEdge, hAdded, List.exists_mem_cons_iff, or_assoc]

theorem names_ofCalls : (ofCalls names calls).names = names :=
  names_foldl_addEdge

theorem size_ofCalls : (ofCalls names calls).size = names.length :=
  congrArg List.length names_ofCalls

/-- The edges are exactly those that some call asks for. -/
theorem leads_ofCalls_iff : (ofCalls names calls).Leads i j ↔ Asked names calls i j :=
  leads_foldl_addEdge.trans (or_iff_right List.not_mem_nil)

theorem inRange_ofCalls : (ofCalls names calls).InRange := by
  intro i j h
  obtain ⟨call, -, hi, hj⟩ := leads_ofCalls_iff.mp h
  rw [size_ofCalls]
  exact ⟨(List.getElem?_eq_some_iff.mp hi.1).1, (List.getElem?_eq_some_iff.mp hj.1).1⟩

end DeclSurface.Precedence
