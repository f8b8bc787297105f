import DeclSurface.Library.Source
import DeclSurface.Proofs.Explanation.Scopes
import Mathlib.Data.List.Perm.Subperm

/-!
# Climbing by name

The search for the scopes of a fragment goes from name to name: up to the first fragment that holds
one of the name at hand. Where names repeat, that need not be a fragment around the one that was
explained. The search may then climb higher than any fragment is nested, and where a name lies above
itself it goes around for ever.

* `HeldBy`                — one step of the search, from a name to the name above it.
* `Returns`               — the search from a name comes to a name that lies above itself.
* `exists_climb_iff`      — it ends just where it does not return.
* `length_around_le`      — where names are distinct, it ends within the depth of the library.
* `explain_ends_iff`      — the explanations of a library, in terms of the search.
* `explain_climbs_astray` — the search may go on for ever, or past the depth of the library.
-/

namespace DeclSurface

open Relation

namespace Fragment

variable {fs : List Fragment} {f : Fragment} {n p q : String} {steps : Nat}
  {scopes : List Fragment}

/-! ## Depth -/

mutual
/-- The number of levels of a fragment: its own and those nested in it. -/
def depth : Fragment → Nat
  | ⟨_, _, _, _, children⟩ => depthOf children + 1

/-- The number of levels of a list of trees. -/
def depthOf : List Fragment → Nat
  | [] => 0
  | f :: fs => max (depth f) (depthOf fs)
end

mutual
theorem length_around_tree_le : ∀ {t : Fragment}, (names t).Nodup →
    (around [t] n).length ≤ depth t
  | ⟨name, gate, items, constraints, children⟩, hNodup => by
    by_cases hn : n ∈ names ⟨name, gate, items, constraints, children⟩
    · rw [around_self hn, List.length_cons, depth]
      rw [names, List.nodup_cons] at hNodup
      exact Nat.succ_le_succ (length_around_le hNodup.2)
    · rw [around_eq_nil (by simpa [namesOf] using hn)]
      exact Nat.zero_le _

/-- There are no more fragments around one than there are levels. -/
theorem length_around_le : ∀ {fs : List Fragment}, (namesOf fs).Nodup →
    (around fs n).length ≤ depthOf fs
  | [], _ => Nat.le_refl 0
  | t :: fs, hNodup => by
    rw [namesOf, List.nodup_append] at hNodup
    obtain ⟨hTree, hRest, hDisjoint⟩ := hNodup
    rw [around_cons, List.length_append, depthOf]
    -- names are distinct, so only one side holds the name
    by_cases hn : n ∈ names t
    · rw [around_eq_nil fun h => hDisjoint n hn n h rfl, List.length_nil, Nat.add_zero]
      exact Nat.le_trans (length_around_tree_le hTree) (Nat.le_max_left ..)
    · have hNone : around [t] n = [] := around_eq_nil (by simpa [namesOf] using hn)
      rw [hNone, List.length_nil, Nat.zero_add]
      exact Nat.le_trans (length_around_le hRest) (Nat.le_max_right ..)
end

/-! ## Steps of the search -/

/-- The first fragment that holds one named `n` is named `p`. -/
def HeldBy (fs : List Fragment) (n p : String) : Prop :=
  ∃ g, parent? fs n = some g ∧ g.name = p

/-- The search from the name `n` comes to a name that lies above itself. -/
def Returns (fs : List Fragment) (n : String) : Prop :=
  ∃ m, ReflTransGen (HeldBy fs) n m ∧ TransGen (HeldBy fs) m m

theorem HeldBy.unique (hp : HeldBy fs n p) (hq : HeldBy fs n q) : p = q := by
  obtain ⟨g, hg, rfl⟩ := hp
  obtain ⟨g', hg', rfl⟩ := hq
  rw [Option.some.inj (hg.symm.trans hg')]

theorem HeldBy.mem_namesOf (h : HeldBy fs n p) : p ∈ namesOf fs := by
  obtain ⟨g, hg, rfl⟩ := h
  rw [← map_name_allOf]
  exact List.mem_map_of_mem (List.mem_of_find?_eq_some hg)

/-- Whether the search returns is settled a step further up. -/
theorem returns_iff_of_heldBy (h : HeldBy fs n p) : Returns fs n ↔ Returns fs p := by
  constructor
  · rintro ⟨m, hReached, hAround⟩
    rcases ReflTransGen.cases_head hReached with rfl | ⟨q, hStep, hReached⟩
    · -- the way around from `n` starts with the same step
      obtain ⟨q, hStep, hBack⟩ := TransGen.head'_iff.mp hAround
      obtain rfl := hStep.unique h
      exact ⟨n, hBack, hAround⟩
    · obtain rfl := hStep.unique h
      exact ⟨m, hReached, hAround⟩
  · rintro ⟨m, hReached, hAround⟩
    exact ⟨m, hReached.head h, hAround⟩

/-- A search that ends does not return. -/
theorem not_returns_of_climb (h : climb fs steps f = some scopes) : ¬ Returns fs f.name := by
  induction steps generalizing f scopes with
  | zero => simp [climb] at h
  | succ steps ih =>
    rw [climb] at h
    cases hParent : parent? fs f.name with
    | none =>
      -- at the top there is no way on
      have hNone : ∀ p, ¬ HeldBy fs f.name p := by
        rintro p ⟨g, hg, -⟩
        simp [hParent] at hg
      rintro ⟨m, hReached, hAround⟩
      rcases ReflTransGen.cases_head hReached with rfl | ⟨p, hStep, -⟩
      · obtain ⟨p, hStep, -⟩ := TransGen.head'_iff.mp hAround
        exact hNone p hStep
      · exact hNone p hStep
    | some g =>
      rw [hParent] at h
      obtain ⟨above, hAbove, -⟩ := Option.map_eq_some_iff.mp h
      rw [returns_iff_of_heldBy ⟨g, hParent, rfl⟩]
      exact ih hAbove

/-- A search that has not ended has passed a name at each step. -/
theorem exists_chain_of_climb_eq_none (h : climb fs steps f = none) :
    ∃ above : List String, above.length = steps ∧ (f.name :: above).IsChain (HeldBy fs) := by
  induction steps generalizing f with
  | zero => exact ⟨[], rfl, List.IsChain.singleton _⟩
  | succ steps ih =>
    rw [climb] at h
    cases hParent : parent? fs f.name with
    | none => simp [hParent] at h
    | some g =>
      rw [hParent] at h
      obtain ⟨above, hLength, hChain⟩ := ih (Option.map_eq_none_iff.mp h)
      refine ⟨g.name :: above, by rw [List.length_cons, hLength], ?_⟩
      exact List.isChain_cons_cons.mpr ⟨⟨g, hParent, rfl⟩, hChain⟩

/-- A way up leads from each of its names to all that follow. -/
theorem pairwise_of_isChain {names : List String} (hChain : names.IsChain (HeldBy fs)) :
    names.Pairwise (TransGen (HeldBy fs)) :=
  List.isChain_iff_pairwise.mp (hChain.imp fun _ _ h => .single h)

/-- Names on a way up that does not return are distinct. -/
theorem nodup_of_isChain {above : List String} (hChain : (n :: above).IsChain (HeldBy fs))
    (hReturns : ¬ Returns fs n) : (n :: above).Nodup := by
  have hPairs := pairwise_of_isChain hChain
  refine hPairs.imp_of_mem fun {a b} ha _ hab hEq => ?_
  subst hEq
  refine hReturns ⟨a, ?_, hab⟩
  rcases List.mem_cons.mp ha with rfl | ha
  · exact .refl
  · exact (List.rel_of_pairwise_cons hPairs ha).to_reflTransGen

/-- All names on a way up are those of fragments. -/
theorem subset_namesOf_of_isChain {above : List String}
    (hChain : (n :: above).IsChain (HeldBy fs)) (hn : n ∈ namesOf fs) :
    n :: above ⊆ namesOf fs := by
  intro m hm
  rcases List.mem_cons.mp hm with rfl | hm
  · exact hn
  · have hUp := List.rel_of_pairwise_cons (pairwise_of_isChain hChain) hm
    obtain ⟨_, -, hStep⟩ := TransGen.tail'_iff.mp hUp
    exact hStep.mem_namesOf

/-- A search that does not return ends, for there are no more names to pass than fragments. -/
theorem exists_scopes?_of_not_returns (hf : f ∈ allOf fs) (hReturns : ¬ Returns fs f.name) :
    ∃ scopes, scopes? fs f = some scopes := by
  cases hScopes : scopes? fs f with
  | some scopes => exact ⟨scopes, rfl⟩
  | none =>
    exfalso
    have hName : f.name ∈ namesOf fs := map_name_allOf fs ▸ List.mem_map_of_mem hf
    -- it would have passed more names, all of them distinct, than there are fragments
    obtain ⟨above, hLength, hChain⟩ := exists_chain_of_climb_eq_none hScopes
    have hSubset := subset_namesOf_of_isChain hChain hName
    have hLe := (List.subperm_of_subset (nodup_of_isChain hChain hReturns) hSubset).length_le
    rw [← map_name_allOf, List.length_map, List.length_cons, hLength] at hLe
    omega

/-- All searches that end find the same. -/
theorem climb_unique {steps' : Nat} {scopes' : List Fragment} (h : climb fs steps f = some scopes)
    (h' : climb fs steps' f = some scopes') : scopes = scopes' := by
  induction steps generalizing f scopes steps' scopes' with
  | zero => simp [climb] at h
  | succ steps ih =>
    cases steps' with
    | zero => simp [climb] at h'
    | succ steps' =>
      rw [climb] at h h'
      cases hParent : parent? fs f.name with
      | none =>
        rw [hParent] at h h'
        exact Option.some.inj (h.symm.trans h')
      | some g =>
        rw [hParent] at h h'
        obtain ⟨above, hAbove, rfl⟩ := Option.map_eq_some_iff.mp h
        obtain ⟨above', hAbove', rfl⟩ := Option.map_eq_some_iff.mp h'
        rw [ih hAbove hAbove']

/-- A search ends just where it does not return, and then is found to end. -/
theorem exists_climb_iff (hf : f ∈ allOf fs) :
    (∃ steps scopes, climb fs steps f = some scopes) ↔ ¬ Returns fs f.name := by
  constructor
  · rintro ⟨steps, scopes, h⟩
    exact not_returns_of_climb h
  · intro h
    exact ⟨_, exists_scopes?_of_not_returns hf h⟩

theorem scopes?_of_climb (hf : f ∈ allOf fs) (h : climb fs steps f = some scopes) :
    scopes? fs f = some scopes := by
  obtain ⟨found, hFound⟩ := exists_scopes?_of_not_returns hf (not_returns_of_climb h)
  rw [climb_unique h hFound, hFound]

end Fragment

/-! ## Explanations -/

namespace Library

open Fragment

variable {l : Library} {f : Fragment} {n : String}

/--
An explanation finds the scopes of a fragment exactly if the search for them does not return. It
then takes no more steps than there are fragments, and where the fragments can be registered no more
than there are levels. Otherwise there is no end to it.
-/
theorem explain_ends_iff (hFound : l.fragment? n = some f) :
    ((∃ steps scopes, climb l.fragments steps f = some scopes) ↔ ¬ Returns l.fragments n) ∧
    (∀ steps scopes, climb l.fragments steps f = some scopes →
      climb l.fragments (allOf l.fragments).length f = some scopes ∧
      ∀ flags name, l.explain n flags name = do
        let configuration ← l.chosen name
        .ok (l.explanation configuration flags f scopes)) ∧
    (Returns l.fragments n →
      ∀ flags name, l.explain n flags name = do
        let _ ← l.chosen name
        Result.fail (.endlessScopes n)) ∧
    ∀ store, l.store = .ok store →
      ∃ scopes, climb l.fragments (depthOf l.fragments) f = some scopes := by
  obtain ⟨hf, rfl⟩ := of_find?_eq_some hFound
  refine ⟨exists_climb_iff hf, fun steps scopes h => ?_, fun hReturns flags name => ?_, ?_⟩
  · have hScopes := scopes?_of_climb hf h
    refine ⟨hScopes, fun flags name => ?_⟩
    rw [explain, hFound]
    dsimp only
    rw [hScopes]
  · have hNone : scopes? l.fragments f = none := by
      cases hScopes : scopes? l.fragments f with
      | none => rfl
      | some scopes => exact absurd hReturns (not_returns_of_climb hScopes)
    rw [explain, hFound]
    dsimp only
    rw [hNone]
  · intro store hStore
    have hNodup : (namesOf l.fragments).Nodup :=
      FragmentStore.fragments_of_ofFragments hStore ▸ store.distinct
    exact ⟨_, climb_eq_around hNodup hf (length_around_le hNodup)⟩

namespace Sample

def holding (name : String) (children : List Fragment) : Fragment :=
  { name, gate := .always, items := [], constraints := [], children }

/-- A fragment that holds one of its own name. -/
def ring : Library :=
  { name := "ring", fragments := [holding "a" [holding "a" []]] }

def ringText : String :=
  "[library]\nname=\"ring\"\n[[fragment]]\nname=\"a\"\n[[fragment.child]]\nname=\"a\""

theorem parse_ringText : parse default ringText ⟨""⟩ = .ok ring := by
  decide +kernel

/-- A fragment inside another, each with a name of its own. -/
def pair : Library :=
  { name := "pair", fragments := [holding "x" [holding "a" []]] }

/-- Three fragments, each of which holds one of the name of the fragment before it. -/
def stairs : Library :=
  { name := "stairs"
    fragments := [holding "x" [holding "a" []], holding "y" [holding "x" []],
      holding "z" [holding "y" []]] }

def stairsText : String :=
  "[library]\nname=\"stairs\"\n" ++
  "[[fragment]]\nname=\"x\"\n[[fragment.child]]\nname=\"a\"\n" ++
  "[[fragment]]\nname=\"y\"\n[[fragment.child]]\nname=\"x\"\n" ++
  "[[fragment]]\nname=\"z\"\n[[fragment.child]]\nname=\"y\""

theorem parse_stairsText : parse default stairsText ⟨""⟩ = .ok stairs := by
  decide +kernel

end Sample

theorem explain_ends_iff_sample :
    Sample.pair.fragment? "a" = some (Sample.holding "a" []) ∧
    (∃ scopes, climb Sample.pair.fragments 2 (Sample.holding "a" []) = some scopes) ∧
    Sample.stairs.fragment? "a" = some (Sample.holding "a" []) ∧
    (∃ x, Sample.stairs.explain "a" .empty none = .ok x) ∧
    Sample.ring.fragment? "a" = some (Sample.holding "a" [Sample.holding "a" []]) ∧
    Sample.ring.explain "a" .empty none = Result.fail (.endlessScopes "a") := by
  have hPair : Sample.pair.fragment? "a" = some (Sample.holding "a" []) := rfl
  have hStairs : Sample.stairs.fragment? "a" = some (Sample.holding "a" []) := rfl
  have hRing : Sample.ring.fragment? "a" = some (Sample.holding "a" [Sample.holding "a" []]) := rfl
  refine ⟨hPair, (explain_ends_iff hPair).2.2.2 _ rfl, hStairs,
    ⟨_, ((explain_ends_iff hStairs).2.1 4 _ rfl).2 .empty none⟩, hRing, ?_⟩
  exact (explain_ends_iff hRing).2.2.1 ⟨"a", .refl, .single ⟨_, rfl, rfl⟩⟩ .empty none

/--
The search need not end, and where it does it may climb higher than fragments are nested: to explain
`a` it passes through `x`, `y` and `z`, and only the first of them is around `a`.
-/
theorem explain_climbs_astray :
    (¬ ∀ d text root l n f, parse d text root = .ok l → l.fragment? n = some f →
      ∃ steps scopes, climb l.fragments steps f = some scopes) ∧
    ¬ ∀ d text root l n f, parse d text root = .ok l → l.fragment? n = some f →
      ∀ steps scopes, climb l.fragments steps f = some scopes →
        scopes.length ≤ depthOf l.fragments + 1 := by
  constructor
  · -- `a` lies directly above itself
    intro hEnds
    obtain ⟨steps, scopes, h⟩ := hEnds _ _ _ _ "a" _ Sample.parse_ringText rfl
    exact not_returns_of_climb h ⟨"a", .refl, .single ⟨_, rfl, rfl⟩⟩
  · -- four scopes are found where fragments are nested two levels deep
    intro hShallow
    have hLength := hShallow _ _ _ _ "a" _ Sample.parse_stairsText rfl 4 _ rfl
    exact absurd hLength (by decide)

end Library

end DeclSurface
