import DeclSurface.Proofs.Composition.Collection
import Mathlib.Data.List.Pairwise

/-!
# Repeated items

An item may repeat an earlier one only when both are marked as harmless. Collecting remembers just
the first of each identity; that is enough to find every harmful repetition.

* `HarmlessPair`                 — two items that do not clash.
* `Collected.Accepts`            — items that can be collected on top of others.
* `exists_add_iff`, `accepts_add` — one item at a time.
* `pairwise_harmless_iff`        — the same, by the number of occurrences of an identity.
-/

namespace DeclSurface

/-- Two items that are different declarations, or are both harmless to repeat. -/
def HarmlessPair (i j : ManifestItem) : Prop :=
  i.item.identity = j.item.identity → i.item.idempotent = true ∧ j.item.idempotent = true

theorem HarmlessPair.symm {i j : ManifestItem} (h : HarmlessPair i j) : HarmlessPair j i :=
  fun hSame => (h hSame.symm).symm

namespace Collected

variable {c c' : Collected} {fragment : String} {item : Item} {i first : ManifestItem}
  {is js : List ManifestItem}

theorem identity_of_find? {identity : String} (h : c.find? identity = some first) :
    first.item.identity = identity := by
  simpa using List.find?_some h

/-- Items that clash neither with those collected nor with each other. -/
structure Accepts (c : Collected) (is : List ManifestItem) : Prop where
  old : ∀ i ∈ is, ∀ first, c.find? i.item.identity = some first → HarmlessPair first i
  new : is.Pairwise HarmlessPair

theorem accepts_nil (c : Collected) : c.Accepts [] :=
  ⟨by simp, List.Pairwise.nil⟩

theorem Accepts.of_append (h : c.Accepts (is ++ js)) : c.Accepts is where
  old i hi := h.old i (List.mem_append_left _ hi)
  new := (List.pairwise_append.mp h.new).1

theorem accepts_enter : (c.enter fragment).Accepts is ↔ c.Accepts is :=
  ⟨fun h => ⟨h.old, h.new⟩, fun h => ⟨h.old, h.new⟩⟩

theorem accepts_empty_iff : ({} : Collected).Accepts is ↔ is.Pairwise HarmlessPair :=
  ⟨Accepts.new, fun h => ⟨by simp [find?], h⟩⟩

theorem accepts_singleton_iff :
    c.Accepts [i] ↔ ∀ first, c.find? i.item.identity = some first → HarmlessPair first i := by
  constructor
  · exact fun h => h.old i List.mem_cons_self
  · exact fun h => ⟨by simpa using h, List.pairwise_singleton _ _⟩

/-- An item can be collected exactly when it does not clash with the first of its identity. -/
theorem exists_add_iff : (∃ c', c.add fragment item = .ok c') ↔ c.Accepts [⟨fragment, item⟩] := by
  rw [accepts_singleton_iff]
  constructor
  · rintro ⟨c', hAdd⟩ first hFound _
    rcases add_eq_ok_iff.mp hAdd with ⟨hNone, -⟩ | ⟨first', hSome, hFirst, hItem, -⟩
    · rw [hNone] at hFound
      simp at hFound
    · obtain rfl := Option.some.inj (hSome.symm.trans hFound)
      exact ⟨hFirst, hItem⟩
  · intro hHarmless
    cases hFound : c.find? item.identity with
    | none => exact ⟨_, add_eq_ok_iff.mpr (Or.inl ⟨hFound, rfl⟩)⟩
    | some first =>
      obtain ⟨hFirst, hItem⟩ := hHarmless first hFound (identity_of_find? hFound)
      exact ⟨c, add_eq_ok_iff.mpr (Or.inr ⟨first, hFound, hFirst, hItem, rfl⟩)⟩

theorem find?_concat (c : Collected) (i : ManifestItem) (identity : String) :
    { c with items := c.items ++ [i] }.find? identity
      = (c.find? identity).or (if i.item.identity = identity then some i else none) := by
  rw [find?, List.find?_append, find?]
  by_cases h : i.item.identity = identity
  · simp [h]
  · simp [h]

/-- Whether items clash with a new one is seen from the collection that has it. -/
theorem accepts_concat (hNew : c.find? i.item.identity = none) :
    { c with items := c.items ++ [i] }.Accepts is ↔ c.Accepts (i :: is) := by
  constructor
  · intro h
    have hOld : ∀ j ∈ is, ∀ first, c.find? j.item.identity = some first →
        HarmlessPair first j := by
      intro j hj first hFound
      refine h.old j hj first ?_
      rw [find?_concat, hFound, Option.some_or]
    -- for what repeats the new item, that item is the first of its identity
    have hPair : ∀ j ∈ is, HarmlessPair i j := by
      intro j hj hSame
      refine h.old j hj i ?_ hSame
      rw [find?_concat, ← hSame, hNew, Option.none_or, if_pos rfl]
    refine ⟨List.forall_mem_cons.mpr ⟨?_, hOld⟩, List.pairwise_cons.mpr ⟨hPair, h.new⟩⟩
    simp [hNew]
  · intro h
    have hPairs := List.pairwise_cons.mp h.new
    refine ⟨?_, hPairs.2⟩
    intro j hj first hFound
    rw [find?_concat] at hFound
    rcases Option.or_eq_some_iff.mp hFound with hFirst | ⟨-, hFirst⟩
    · exact h.old j (List.mem_cons_of_mem _ hj) first hFirst
    · obtain ⟨-, hFirst⟩ := Option.ite_none_right_eq_some.mp hFirst
      obtain rfl := Option.some.inj hFirst
      exact hPairs.1 j hj

/-- An item that is dropped clashes with nothing that its first occurrence does not clash with. -/
theorem accepts_cons_of_find? (hFound : c.find? i.item.identity = some first)
    (hHarmless : HarmlessPair first i) : c.Accepts (i :: is) ↔ c.Accepts is := by
  obtain ⟨-, hItem⟩ := hHarmless (identity_of_find? hFound)
  constructor
  · intro h
    exact ⟨fun j hj => h.old j (List.mem_cons_of_mem _ hj), (List.pairwise_cons.mp h.new).2⟩
  · intro h
    refine ⟨List.forall_mem_cons.mpr ⟨?_, h.old⟩, List.pairwise_cons.mpr ⟨?_, h.new⟩⟩
    · intro first' hFound'
      obtain rfl := Option.some.inj (hFound.symm.trans hFound')
      exact hHarmless
    -- what repeats the dropped item repeats the first one too
    · intro j hj hSame
      rw [hSame] at hFound
      exact ⟨hItem, (h.old j hj first hFound (identity_of_find? hFound)).2⟩

/-- Once an item is collected, the others are accepted as they were together with it. -/
theorem accepts_add (hAdd : c.add fragment item = .ok c') :
    c'.Accepts is ↔ c.Accepts (⟨fragment, item⟩ :: is) := by
  rcases add_eq_ok_iff.mp hAdd with ⟨hNone, rfl⟩ | ⟨first, hSome, hFirst, hItem, rfl⟩
  · exact accepts_concat (i := ⟨fragment, item⟩) hNone
  · exact (accepts_cons_of_find? (i := ⟨fragment, item⟩) hSome fun _ => ⟨hFirst, hItem⟩).symm

end Collected

/-! ## Counting occurrences -/

/-- Items do not clash exactly when all of a repeated identity are harmless. -/
theorem pairwise_harmless_iff {is : List ManifestItem} :
    is.Pairwise HarmlessPair ↔
      ∀ identity, 1 < (is.map (·.item.identity)).count identity →
        ∀ i ∈ is, i.item.identity = identity → i.item.idempotent = true := by
  constructor
  · rintro hPairs identity hCount i hi rfl
    obtain ⟨pre, post, rfl⟩ := List.append_of_mem hi
    -- besides `i` there is another occurrence, before it or after it
    have hOther : ∃ j ∈ pre ++ post, j.item.identity = i.item.identity := by
      have hPositive : 0 < ((pre ++ post).map (·.item.identity)).count i.item.identity := by
        simp only [List.map_append, List.map_cons, List.count_append, List.count_cons_self]
          at hCount ⊢
        omega
      exact List.mem_map.mp (List.count_pos_iff.mp hPositive)
    obtain ⟨j, hj, hSame⟩ := hOther
    rw [List.pairwise_append, List.pairwise_cons] at hPairs
    rcases List.mem_append.mp hj with hj | hj
    · exact (hPairs.2.2 j hj i List.mem_cons_self hSame).2
    · exact (hPairs.2.1.1 j hj hSame.symm).1
  · intro hCounts
    rw [List.pairwise_iff_forall_sublist]
    intro i j hSub hSame
    have hCount : 1 < (is.map (·.item.identity)).count i.item.identity := by
      have hLe := (hSub.map (·.item.identity)).count_le i.item.identity
      rw [List.map_cons, List.map_singleton, ← hSame, List.count_cons_self,
        List.count_singleton_self] at hLe
      exact hLe
    exact ⟨hCounts _ hCount i (hSub.subset (by simp)) rfl,
      hCounts _ hCount j (hSub.subset (by simp)) hSame.symm⟩

end DeclSurface
