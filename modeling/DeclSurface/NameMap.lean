/-!
# Maps keyed by names

A finite map from names to values that is kept sorted by name, so that it has one form only:
two maps with the same entries are equal, and listing a map is listing it in order.

* `NameMap`            — entries in strictly increasing order of their names.
* `get?_insert`, `get?_erase` — what the two updates do to a look-up.
* `ext`                — two maps that agree on every look-up are equal.
* `NameSet`            — a map without values.
-/

namespace DeclSurface

/-- A finite map whose entries stand in strictly increasing order of their names. -/
structure NameMap (α : Type) where
  /-- The entries in order. -/
  entries : List (String × α)
  /-- No two entries share a name, and names increase. -/
  sorted : entries.Pairwise (fun a b => a.1 < b.1) := by simp

namespace NameMap

variable {α : Type}

/-- Entries with `k` bound to `v`, in place of any earlier binding of `k`. -/
def insertEntry (k : String) (v : α) : List (String × α) → List (String × α)
  | [] => [(k, v)]
  | (k', v') :: rest =>
    if k < k' then (k, v) :: (k', v') :: rest
    else if k = k' then (k, v) :: rest
    else (k', v') :: insertEntry k v rest

theorem mem_insertEntry {k : String} {v : α} {a : String × α} {l : List (String × α)} :
    a ∈ insertEntry k v l → a = (k, v) ∨ a ∈ l := by
  induction l with
  | nil => simp [insertEntry]
  | cons hd tl ih => rw [insertEntry]; split <;> grind

theorem lt_of_not_lt_of_ne {a b : String} (h : ¬ a < b) (hne : a ≠ b) : b < a :=
  String.not_le.mp fun hle => hne (String.le_antisymm hle (String.not_lt.mp h))

theorem sorted_insertEntry (k : String) (v : α) {l : List (String × α)}
    (h : l.Pairwise (fun a b => a.1 < b.1)) :
    (insertEntry k v l).Pairwise (fun a b => a.1 < b.1) := by
  induction l with
  | nil => simp [insertEntry]
  | cons hd tl ih =>
    obtain ⟨k', v'⟩ := hd
    rw [List.pairwise_cons] at h
    rw [insertEntry]
    split
    · rename_i hlt
      refine List.pairwise_cons.2 ⟨fun a ha => ?_, List.pairwise_cons.2 h⟩
      rcases List.mem_cons.1 ha with rfl | ha
      · exact hlt
      · exact String.lt_trans hlt (h.1 a ha)
    · rename_i hlt
      split
      · rename_i heq
        subst heq
        exact List.pairwise_cons.2 h
      · rename_i hne
        refine List.pairwise_cons.2 ⟨fun a ha => ?_, ih h.2⟩
        rcases mem_insertEntry ha with rfl | ha
        · exact lt_of_not_lt_of_ne hlt hne
        · exact h.1 a ha

/-- The map without entries. -/
def empty : NameMap α := ⟨[], by simp⟩

instance : EmptyCollection (NameMap α) := ⟨empty⟩

instance : Inhabited (NameMap α) := ⟨empty⟩

/-- The value of the first entry named `k`. -/
def lookupEntry (k : String) : List (String × α) → Option α
  | [] => none
  | (k', v) :: rest => if k = k' then some v else lookupEntry k rest

/-- The value bound to a name. -/
def get? (m : NameMap α) (k : String) : Option α :=
  lookupEntry k m.entries

/-- A name is in the map when some entry binds it. -/
def contains (m : NameMap α) (k : String) : Bool :=
  (m.get? k).isSome

/-- The map with `k` bound to `v`. -/
def insert (m : NameMap α) (k : String) (v : α) : NameMap α :=
  ⟨insertEntry k v m.entries, sorted_insertEntry k v m.sorted⟩

/-- The map without a binding of `k`. -/
def erase (m : NameMap α) (k : String) : NameMap α :=
  ⟨m.entries.filter (·.1 != k), m.sorted.sublist List.filter_sublist⟩

/-- The names in increasing order. -/
def keys (m : NameMap α) : List String :=
  m.entries.map (·.1)

/-- The values in the order of their names. -/
def values (m : NameMap α) : List α :=
  m.entries.map (·.2)

/-- The number of entries. -/
def size (m : NameMap α) : Nat :=
  m.entries.length

/-- Whether the map has no entry. -/
def isEmpty (m : NameMap α) : Bool :=
  m.entries.isEmpty

/-- The map that binds each name to its last value in the list. -/
def ofList (l : List (String × α)) : NameMap α :=
  l.foldl (fun m (k, v) => m.insert k v) empty

/-- The entries of both maps; where both bind a name, `n` wins. -/
def union (m n : NameMap α) : NameMap α :=
  n.entries.foldl (fun acc (k, v) => acc.insert k v) m

/-- The map with every value replaced by a function of its name and itself. -/
def mapWithKey {β : Type} (f : String → α → β) (m : NameMap α) : NameMap β :=
  ⟨m.entries.map fun (k, v) => (k, f k v), by
    rw [List.pairwise_map]
    exact m.sorted⟩

instance [DecidableEq α] : DecidableEq (NameMap α) := fun m n =>
  if h : m.entries = n.entries then
    isTrue (by cases m; cases n; simp_all)
  else isFalse fun e => h (e ▸ rfl)

/-! ## Look-up -/

theorem lookupEntry_insertEntry (k k' : String) (v : α) (l : List (String × α)) :
    lookupEntry k' (insertEntry k v l) = if k' = k then some v else lookupEntry k' l := by
  induction l with
  | nil => rfl
  | cons hd tl ih =>
    obtain ⟨k₀, v₀⟩ := hd
    rw [insertEntry]
    split
    · rfl
    · split <;> by_cases h : k' = k <;> simp_all [lookupEntry]

@[simp] theorem get?_empty (k : String) : (empty : NameMap α).get? k = none := rfl

theorem get?_insert (m : NameMap α) (k k' : String) (v : α) :
    (m.insert k v).get? k' = if k' = k then some v else m.get? k' :=
  lookupEntry_insertEntry k k' v m.entries

theorem get?_erase (m : NameMap α) (k k' : String) :
    (m.erase k).get? k' = if k' = k then none else m.get? k' := by
  show lookupEntry k' (m.entries.filter (·.1 != k))
    = if k' = k then none else lookupEntry k' m.entries
  induction m.entries with
  | nil => simp [lookupEntry]
  | cons hd tl ih =>
    obtain ⟨k₀, v₀⟩ := hd
    by_cases h₀ : k₀ = k <;> by_cases h : k' = k₀ <;>
      simp_all [lookupEntry]

theorem get?_mapWithKey {β : Type} (f : String → α → β) (m : NameMap α) (k : String) :
    (m.mapWithKey f).get? k = (m.get? k).map (f k) := by
  show lookupEntry k (m.entries.map fun (k, v) => (k, f k v)) = (lookupEntry k m.entries).map (f k)
  induction m.entries with
  | nil => rfl
  | cons hd tl ih => by_cases h : k = hd.1 <;> simp_all [lookupEntry]

theorem lookupEntry_eq_some_iff {l : List (String × α)}
    (h : l.Pairwise (fun a b => a.1 < b.1)) {k : String} {v : α} :
    lookupEntry k l = some v ↔ (k, v) ∈ l := by
  induction l with
  | nil => simp [lookupEntry]
  | cons hd tl ih =>
    obtain ⟨k₀, v₀⟩ := hd
    rw [List.pairwise_cons] at h
    by_cases hk : k = k₀
    · subst hk
      have hnot : (k, v) ∉ tl := fun hm => String.lt_irrefl k (h.1 _ hm)
      simp [lookupEntry, hnot, eq_comm]
    · simp [lookupEntry, hk, ih h.2]

theorem get?_eq_some_iff {m : NameMap α} {k : String} {v : α} :
    m.get? k = some v ↔ (k, v) ∈ m.entries :=
  lookupEntry_eq_some_iff m.sorted

theorem get?_union (m n : NameMap α) (k : String) :
    (m.union n).get? k = (n.get? k).or (m.get? k) := by
  have hFold (es : List (String × α)) (hSorted : es.Pairwise fun a b => a.1 < b.1)
      (m : NameMap α) :
      (es.foldl (fun acc (k, v) => acc.insert k v) m).get? k
        = (lookupEntry k es).or (m.get? k) := by
    induction es generalizing m with
    | nil => rfl
    | cons e es ih =>
      obtain ⟨hFirst, hSorted⟩ := List.pairwise_cons.mp hSorted
      rw [List.foldl_cons, ih hSorted, get?_insert, lookupEntry]
      by_cases h : k = e.1
      · -- no later entry has the name of the first one
        have hLater : lookupEntry k es = none := by
          refine Option.eq_none_iff_forall_ne_some.mpr fun v hv => ?_
          exact absurd (h ▸ hFirst _ ((lookupEntry_eq_some_iff hSorted).mp hv))
            (String.lt_irrefl _)
        rw [hLater, if_pos h, if_pos h]
        rfl
      · rw [if_neg h, if_neg h]
  exact hFold n.entries n.sorted m

theorem contains_iff_mem_keys {m : NameMap α} {k : String} :
    m.contains k = true ↔ k ∈ m.keys := by
  rw [contains, Option.isSome_iff_exists, keys, List.mem_map]
  constructor
  · rintro ⟨v, hv⟩
    exact ⟨_, get?_eq_some_iff.1 hv, rfl⟩
  · rintro ⟨⟨k', v⟩, hm, rfl⟩
    exact ⟨v, get?_eq_some_iff.2 hm⟩

/-! ## One form for each map -/

theorem entries_eq_of_mem_iff : ∀ {l l' : List (String × α)},
    l.Pairwise (fun a b => a.1 < b.1) → l'.Pairwise (fun a b => a.1 < b.1) →
    (∀ a, a ∈ l ↔ a ∈ l') → l = l'
  | [], [], _, _, _ => rfl
  | [], a :: _, _, _, h => by simpa using (h a).2 (by simp)
  | a :: _, [], _, _, h => by simpa using (h a).1 (by simp)
  | a :: l, a' :: l', hl, hl', h => by
    rw [List.pairwise_cons] at hl hl'
    have haa : a = a' := by
      rcases List.mem_cons.1 ((h a).1 (by simp)) with e | hm
      · exact e
      rcases List.mem_cons.1 ((h a').2 (by simp)) with e | hm'
      · exact e.symm
      exact absurd (String.lt_trans (hl.1 _ hm') (hl'.1 _ hm)) (String.lt_irrefl _)
    subst haa
    congr 1
    refine entries_eq_of_mem_iff hl.2 hl'.2 fun b => ⟨fun hb => ?_, fun hb => ?_⟩
    · rcases List.mem_cons.1 ((h b).1 (by simp [hb])) with e | hm
      · exact absurd (hl.1 _ hb) (e ▸ String.lt_irrefl _)
      · exact hm
    · rcases List.mem_cons.1 ((h b).2 (by simp [hb])) with e | hm
      · exact absurd (hl'.1 _ hb) (e ▸ String.lt_irrefl _)
      · exact hm

/-- Two maps that agree on every look-up are equal. -/
theorem ext {m n : NameMap α} (h : ∀ k, m.get? k = n.get? k) : m = n := by
  have he : m.entries = n.entries :=
    entries_eq_of_mem_iff m.sorted n.sorted fun (k, v) => by
      rw [← get?_eq_some_iff, ← get?_eq_some_iff, h]
  cases m
  cases n
  simp_all

end NameMap

/-! ## Sets of names -/

/-- A finite set of names, listed in increasing order. -/
abbrev NameSet : Type := NameMap Unit

namespace NameSet

/-- The set with one more name. -/
def add (s : NameSet) (name : String) : NameSet :=
  NameMap.insert s name ()

/-- The set of the names in a list. -/
def ofNames (names : List String) : NameSet :=
  names.foldl add NameMap.empty

/-- The names of either set. -/
def join (s t : NameSet) : NameSet :=
  NameMap.union s t

theorem contains_add (s : NameSet) (name n : String) :
    (s.add name).contains n = (n == name || s.contains n) := by
  rw [NameMap.contains, add, NameMap.get?_insert]
  by_cases h : n = name
  · simp [h]
  · simp [h, NameMap.contains]

theorem contains_ofNames (names : List String) (n : String) :
    (ofNames names).contains n = names.contains n := by
  have hFold (s : NameSet) :
      (names.foldl add s).contains n = (s.contains n || names.contains n) := by
    induction names generalizing s with
    | nil => simp
    | cons m ms ih =>
      rw [List.foldl_cons, ih, contains_add, List.contains_cons, Bool.or_assoc,
        Bool.or_left_comm]
  exact hFold NameMap.empty

theorem contains_join (s t : NameSet) (n : String) :
    (s.join t).contains n = (s.contains n || t.contains n) := by
  have hFold (es : List (String × Unit)) (s : NameSet) :
      (es.foldl (fun acc (k, v) => NameMap.insert acc k v) s).contains n
        = (s.contains n || (es.map (·.1)).contains n) := by
    induction es generalizing s with
    | nil => simp
    | cons e es ih =>
      have hAdd : (NameMap.insert s e.1 e.2).contains n = (n == e.1 || s.contains n) :=
        contains_add s e.1 n
      rw [List.foldl_cons, ih, hAdd, List.map_cons, List.contains_cons, Bool.or_assoc,
        Bool.or_left_comm]
  have hKeys : t.contains n = t.keys.contains n := by
    rw [Bool.eq_iff_iff, NameMap.contains_iff_mem_keys, List.contains_iff_mem]
  rw [hKeys]
  exact hFold t.entries s

end NameSet

end DeclSurface
