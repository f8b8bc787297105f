import DeclSurface.Files.Path
import Mathlib.Data.Finset.Sort
import Mathlib.Data.Prod.Lex
import Mathlib.Data.String.Basic

/-!
# Paths in order

Paths are ordered by their components, in a linear order on lists of them. Two texts may stand for
the same path, so on texts the order is linear only up to that.

* `Component.place`        — where a component stands; `notAfter_iff` says that places are compared.
* `Path.Precedes`          — a path stands before another one.
* `pairwise_sorted`        — sorted paths stand in strictly increasing order.
* `map_places_sorted`      — they are those of a finite set, so nothing else counts about a list.
* `forall₂_same_sorted`    — lists of the same paths are sorted alike.
-/

namespace DeclSurface

namespace Path

variable {p q : Path} {ps qs : List Path}

/-! ## The order of components -/

namespace Component

variable {a b : Component}

/-- Where a component stands: first its kind counts, then the text of a name. -/
def place (c : Component) : ℕ ×ₗ String :=
  toLex (c.rank, match c with
    | name s => s
    | _ => "")

theorem place_injective : Function.Injective place := by
  intro a b h
  cases a <;> cases b <;> simp_all [place, rank]

theorem before_iff : a.before b ↔ a.place < b.place := by
  cases a <;> cases b <;> simp [before, place, rank, Prod.Lex.toLex_lt_toLex]

end Component

theorem notAfter_iff {as bs : List Component} :
    notAfter as bs ↔ as.map Component.place ≤ bs.map Component.place := by
  rw [← not_lt]
  induction as generalizing bs with
  | nil => simp [notAfter]
  | cons a as ih =>
    cases bs with
    | nil => simp [notAfter]
    | cons b bs =>
      rw [notAfter, Bool.or_eq_true, Bool.and_eq_true, Component.before_iff, decide_eq_true_iff,
        ih, List.map_cons, List.map_cons, List.cons_lt_cons_iff, ← Component.place_injective.eq_iff,
        not_or, not_lt, not_and, le_iff_lt_or_eq]
      -- of two places that differ, one is the smaller
      grind

/-! ## The order of paths -/

/-- Where a path stands. -/
def places (p : Path) : List (ℕ ×ₗ String) :=
  p.components.map Component.place

/-- A path stands before another one. -/
def Precedes (p q : Path) : Prop :=
  notAfter p.components q.components ∧ ¬ p.same q

theorem same_iff : p.same q ↔ p.places = q.places := by
  rw [same, decide_eq_true_iff, places, places, (Component.place_injective.list_map).eq_iff]

theorem precedes_iff : p.Precedes q ↔ p.places < q.places := by
  rw [Precedes, notAfter_iff, same_iff, lt_iff_le_and_ne]
  rfl

/-! ## Repetitions -/

theorem dropRepeats_sublist (p : Path) (ps : List Path) : (dropRepeats p ps).Sublist ps := by
  induction ps generalizing p with
  | nil => exact List.Sublist.slnil
  | cons q ps ih =>
    rw [dropRepeats]
    split
    · exact (ih p).cons q
    · exact (ih q).cons_cons q

/-- A path that is left out is one that stays. -/
theorem exists_same_of_mem_dropRepeats (h : q ∈ p :: ps) :
    ∃ r ∈ p :: dropRepeats p ps, r.same q := by
  induction ps generalizing p with
  | nil => exact ⟨q, h, same_iff.mpr rfl⟩
  | cons r ps ih =>
    rw [dropRepeats]
    by_cases hSame : p.same r
    · rw [if_pos hSame]
      rcases List.mem_cons.mp h with rfl | h
      · exact ih List.mem_cons_self
      rcases List.mem_cons.mp h with rfl | h
      · exact ⟨p, List.mem_cons_self, hSame⟩
      · exact ih (List.mem_cons_of_mem _ h)
    · rw [if_neg hSame]
      rcases List.mem_cons.mp h with rfl | h
      · exact ⟨q, List.mem_cons_self, same_iff.mpr rfl⟩
      · obtain ⟨s, hs, hSame⟩ := ih h
        exact ⟨s, List.mem_cons_of_mem _ hs, hSame⟩

/-- Paths in order, without repetitions, are in strictly increasing order. -/
theorem pairwise_dropRepeats (h : (p :: ps).Pairwise fun a b => a.places ≤ b.places) :
    (p :: dropRepeats p ps).Pairwise Precedes := by
  induction ps generalizing p with
  | nil => exact List.pairwise_singleton _ _
  | cons q ps ih =>
    obtain ⟨hFirst, hRest⟩ := List.pairwise_cons.mp h
    rw [dropRepeats]
    by_cases hSame : p.same q
    · rw [if_pos hSame]
      exact ih (h.sublist ((List.sublist_cons_self q ps).cons_cons p))
    · rw [if_neg hSame]
      refine List.pairwise_cons.mpr ⟨fun r hr => precedes_iff.mpr ?_, ih hRest⟩
      -- what stays stands no earlier than `q`, which is not the same as `p`
      have hpq : p.places < q.places :=
        lt_of_le_of_ne (hFirst q List.mem_cons_self) (mt same_iff.mpr hSame)
      rcases List.mem_cons.mp hr with rfl | hr
      · exact hpq
      · have hqr := (List.pairwise_cons.mp hRest).1 r ((dropRepeats_sublist q ps).subset hr)
        exact lt_of_lt_of_le hpq hqr

/-! ## Sorting -/

/-- The paths in order, some of them perhaps several times. -/
def arranged (ps : List Path) : List Path :=
  ps.mergeSort fun p q => notAfter p.components q.components

theorem pairwise_arranged (ps : List Path) :
    (arranged ps).Pairwise fun p q => p.places ≤ q.places := by
  have hTrans (p q r : Path) (hpq : notAfter p.components q.components)
      (hqr : notAfter q.components r.components) : notAfter p.components r.components :=
    notAfter_iff.mpr ((notAfter_iff.mp hpq).trans (notAfter_iff.mp hqr))
  have hTotal (p q : Path) :
      notAfter p.components q.components || notAfter q.components p.components := by
    rw [Bool.or_eq_true, notAfter_iff, notAfter_iff]
    exact le_total _ _
  exact (List.pairwise_mergeSort hTrans hTotal ps).imp notAfter_iff.mp

theorem mem_arranged : p ∈ arranged ps ↔ p ∈ ps :=
  List.mem_mergeSort

theorem sorted_eq (ps : List Path) : sorted ps = match arranged ps with
    | [] => []
    | p :: rest => p :: dropRepeats p rest :=
  rfl

theorem pairwise_sorted (ps : List Path) : (sorted ps).Pairwise Precedes := by
  have hArranged := pairwise_arranged ps
  rw [sorted_eq]
  cases h : arranged ps with
  | nil => exact List.Pairwise.nil
  | cons p rest => exact pairwise_dropRepeats (h ▸ hArranged)

theorem mem_of_mem_sorted (h : p ∈ sorted ps) : p ∈ ps := by
  rw [← mem_arranged]
  rw [sorted_eq] at h
  cases hArranged : arranged ps with
  | nil => simp [hArranged] at h
  | cons q rest =>
    rw [hArranged] at h
    exact ((dropRepeats_sublist q rest).cons_cons q).subset h

theorem exists_same_mem_sorted (h : p ∈ ps) : ∃ q ∈ sorted ps, q.same p := by
  rw [← mem_arranged] at h
  rw [sorted_eq]
  cases hArranged : arranged ps with
  | nil => simp [hArranged] at h
  | cons q rest => exact exists_same_of_mem_dropRepeats (hArranged ▸ h)

/-- What is sorted is a finite set. -/
theorem map_places_sorted (ps : List Path) :
    (sorted ps).map places = (ps.map places).toFinset.sort := by
  have hIncreasing : ((sorted ps).map places).Pairwise (· < ·) :=
    List.pairwise_map.mpr ((pairwise_sorted ps).imp precedes_iff.mp)
  have hSort : ((sorted ps).map places).toFinset.sort = (sorted ps).map places :=
    (List.toFinset_sort (· ≤ ·) (hIncreasing.imp ne_of_lt)).mpr (hIncreasing.imp le_of_lt)
  have hMembers : ((sorted ps).map places).toFinset = (ps.map places).toFinset := by
    ext l
    rw [List.mem_toFinset, List.mem_toFinset, List.mem_map, List.mem_map]
    constructor
    · rintro ⟨p, hp, rfl⟩
      exact ⟨p, mem_of_mem_sorted hp, rfl⟩
    · rintro ⟨p, hp, rfl⟩
      obtain ⟨q, hq, hSame⟩ := exists_same_mem_sorted hp
      exact ⟨q, hq, same_iff.mp hSame⟩
  rw [← hSort, hMembers]

/-- Lists of the same paths are sorted alike. -/
theorem forall₂_same_sorted (h : ps ⊆ qs) (h' : qs ⊆ ps) :
    List.Forall₂ (fun p q => p.same q) (sorted ps) (sorted qs) := by
  have hSet : (ps.map places).toFinset = (qs.map places).toFinset := by
    ext l
    rw [List.mem_toFinset, List.mem_toFinset]
    exact ⟨fun hl => List.map_subset places h hl, fun hl => List.map_subset places h' hl⟩
  have hPlaces : List.Forall₂ (· = ·) ((sorted ps).map places) ((sorted qs).map places) := by
    rw [List.forall₂_eq_eq_eq, map_places_sorted, map_places_sorted, hSet]
  rw [List.forall₂_map_left_iff, List.forall₂_map_right_iff] at hPlaces
  exact hPlaces.imp fun _ _ => same_iff.mpr

end Path

end DeclSurface
