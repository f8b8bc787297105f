import DeclSurface.Composition.Error
import DeclSurface.Fragment

/-!
# The fragment store

The fragments of one composition, in the order in which they were registered. That order is
kept wherever no constraint asks for another. Every name in the store, at any depth, belongs
to one fragment.

* `FragmentStore`           — fragments with pairwise distinct names.
* `FragmentStore.register`  — adds a fragment, or names the first name that is taken.
-/

namespace DeclSurface

/-- The first name that is taken or repeats an earlier one. -/
def firstClash (taken : List String) : List String → Option String
  | [] => none
  | n :: ns => if taken.contains n then some n else firstClash (n :: taken) ns

theorem firstClash_eq_none_iff {taken names : List String} :
    firstClash taken names = none ↔ names.Nodup ∧ ∀ n ∈ names, n ∉ taken := by
  induction names generalizing taken with
  | nil => simp [firstClash]
  | cons n ns ih =>
    rw [firstClash]
    by_cases h : n ∈ taken
    · simp [h]
    · simp only [List.contains_iff_mem, h, if_false, ih]
      grind

/-- Top-level fragments whose names, at any depth, are pairwise distinct. -/
structure FragmentStore where
  fragments : List Fragment := []
  distinct : (Fragment.namesOf fragments).Nodup := by simp [Fragment.namesOf]

namespace FragmentStore

/-- The store without fragments. -/
def empty : FragmentStore := {}

instance : Inhabited FragmentStore := ⟨empty⟩

/-- Every name in the store, depth first. -/
def names (s : FragmentStore) : List String :=
  Fragment.namesOf s.fragments

/-- Whether a name belongs to a fragment of the store, at any depth. -/
def contains (s : FragmentStore) (name : String) : Bool :=
  s.names.contains name

/-- The names of the top-level fragments. -/
def topLevel (s : FragmentStore) : List String :=
  s.fragments.map (·.name)

theorem namesOf_append (fs gs : List Fragment) :
    Fragment.namesOf (fs ++ gs) = Fragment.namesOf fs ++ Fragment.namesOf gs := by
  induction fs with
  | nil => rfl
  | cons f fs ih => rw [List.cons_append, Fragment.namesOf, Fragment.namesOf, ih, List.append_assoc]

theorem nodup_namesOf_concat {s : FragmentStore} {f : Fragment}
    (h : firstClash s.names f.names = none) :
    (Fragment.namesOf (s.fragments ++ [f])).Nodup := by
  obtain ⟨hf, hd⟩ := firstClash_eq_none_iff.1 h
  have hs := s.distinct
  rw [namesOf_append, Fragment.namesOf, Fragment.namesOf, List.append_nil, List.nodup_append]
  exact ⟨hs, hf, fun a ha b hb e => hd b hb (e ▸ ha)⟩

/-- The store with one more top-level fragment; it keeps the store when a name is taken. -/
def register (s : FragmentStore) (f : Fragment) : Except ComposeError FragmentStore :=
  match h : firstClash s.names f.names with
  | some name => .error (.duplicateFragment name)
  | none => .ok ⟨s.fragments ++ [f], nodup_namesOf_concat h⟩

/-- The store of a list of fragments, registered in order. -/
def ofFragments (fs : List Fragment) : Except ComposeError FragmentStore :=
  fs.foldlM register empty

theorem fragments_of_register {s t : FragmentStore} {f : Fragment} (h : s.register f = .ok t) :
    t.fragments = s.fragments ++ [f] := by
  unfold register at h
  split at h
  · exact absurd h (by simp)
  · rw [← Except.ok.inj h]

/-- A store holds just what was registered, in that order. -/
theorem fragments_of_ofFragments {fs : List Fragment} {s : FragmentStore}
    (h : ofFragments fs = .ok s) : s.fragments = fs := by
  have hFold : ∀ (gs : List Fragment) (t : FragmentStore), gs.foldlM register t = .ok s →
      s.fragments = t.fragments ++ gs := by
    intro gs
    induction gs with
    | nil =>
      intro t hNil
      rw [← Except.ok.inj hNil, List.append_nil]
    | cons g gs ih =>
      intro t hCons
      rw [List.foldlM_cons] at hCons
      cases hRegister : t.register g with
      | error e =>
        rw [hRegister] at hCons
        exact absurd hCons (by simp [bind, Except.bind])
      | ok u =>
        rw [hRegister] at hCons
        rw [ih u hCons, fragments_of_register hRegister, List.append_assoc, List.singleton_append]
  exact hFold fs empty h

end FragmentStore

end DeclSurface
