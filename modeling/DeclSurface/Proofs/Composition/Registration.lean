import DeclSurface.Proofs.Composition.Reach
import Mathlib.Logic.Basic
import Mathlib.Tactic.Set

/-!
# Registering fragments

Trees of fragments are offered to a store one after the other, and some are refused. Whether a name
is taken can be seen from the fragments of the store, or be looked up in an index of names that is
kept beside them. Such an index has to stay in step with the fragments over every run of calls, those
included that are refused after part of a tree has been looked at.

* `IsFirstClash`          — the first name of a tree that is taken or repeats an earlier one.
* `serve`, `History`      — a run of calls, and the trees that were offered with the answers.
* `IndexedStore`          — fragments with an index of their names.
* `Registers`             — what a store promises after a run of calls.
* `Fragment.searchOf`     — a fragment by name, tree by tree.
* `registers_and_finds`   — both stores keep the promise, and a library finds what its store has.
-/

namespace DeclSurface

/-! ## Names that clash -/

/-- `n` is the first of some names, in order, that is taken or repeats an earlier one. -/
def IsFirstClash (taken : String → Prop) (names : List String) (n : String) : Prop :=
  ∃ before after, names = before ++ n :: after ∧ (taken n ∨ n ∈ before) ∧
    before.Nodup ∧ ∀ m ∈ before, ¬ taken m

section Clash

variable {taken : String → Prop} {names : List String} {n m : String}

theorem not_isFirstClash_nil : ¬ IsFirstClash taken [] n := by
  rintro ⟨before, after, hNil, -⟩
  exact absurd hNil.symm (by simp)

/-- A name at the head is the first to clash, or counts as taken for those behind it. -/
theorem isFirstClash_cons_iff :
    IsFirstClash taken (m :: names) n ↔
      taken m ∧ n = m ∨ ¬ taken m ∧ IsFirstClash (fun k => k = m ∨ taken k) names n := by
  constructor
  · rintro ⟨before, after, hNames, hClash, hNodup, hFree⟩
    cases before with
    | nil =>
      obtain ⟨rfl, -⟩ := List.cons.inj hNames
      exact Or.inl ⟨hClash.resolve_right List.not_mem_nil, rfl⟩
    | cons k before =>
      obtain ⟨rfl, hRest⟩ := List.cons.inj hNames
      obtain ⟨hNew, hNodup⟩ := List.nodup_cons.mp hNodup
      refine Or.inr ⟨hFree m List.mem_cons_self, before, after, hRest, ?_, hNodup, ?_⟩
      · rcases hClash with hTaken | hBefore
        · exact Or.inl (Or.inr hTaken)
        · exact (List.mem_cons.mp hBefore).imp_left Or.inl
      · rintro k hk (rfl | hTaken)
        · exact hNew hk
        · exact hFree k (List.mem_cons_of_mem m hk) hTaken
  · rintro (⟨hm, rfl⟩ | ⟨hm, before, after, rfl, hClash, hNodup, hFree⟩)
    · exact ⟨[], names, rfl, Or.inl hm, List.nodup_nil, by simp⟩
    · have hNew : m ∉ before := fun hBefore => hFree m hBefore (Or.inl rfl)
      refine ⟨m :: before, after, rfl, ?_, List.nodup_cons.mpr ⟨hNew, hNodup⟩, ?_⟩
      · rcases hClash with (rfl | hTaken) | hBefore
        · exact Or.inr List.mem_cons_self
        · exact Or.inl hTaken
        · exact Or.inr (List.mem_cons_of_mem m hBefore)
      · intro k hk hTaken
        rcases List.mem_cons.mp hk with rfl | hk
        · exact hm hTaken
        · exact hFree k hk (Or.inr hTaken)

theorem firstClash_eq_some_iff {taken : List String} :
    firstClash taken names = some n ↔ IsFirstClash (· ∈ taken) names n := by
  induction names generalizing taken with
  | nil => exact iff_of_false (by simp [firstClash]) not_isFirstClash_nil
  | cons m names ih =>
    rw [firstClash, isFirstClash_cons_iff]
    -- behind a name that is free, the search goes on with that name taken
    by_cases hm : m ∈ taken
    · simp [hm, eq_comm]
    · simp [hm, ih]

end Clash

/-! ## Runs of calls -/

/-- The trees that were offered to a store, each with the error if it was refused. -/
abbrev History : Type := List (Fragment × Option ComposeError)

/-- The trees that were not refused, in the order of the calls. -/
def History.accepted (h : History) : List Fragment :=
  (h.filter (·.2.isNone)).map (·.1)

/-- Offers trees one after the other; `call` says what one call answers and leaves behind. -/
def serve {σ : Type} (call : σ → Fragment → Option ComposeError × σ) (s : σ) :
    List Fragment → History × σ
  | [] => ([], s)
  | f :: fs =>
    let (answer, s) := call s f
    let (history, s) := serve call s fs
    ((f, answer) :: history, s)

section Serve

variable {σ τ : Type} {call : σ → Fragment → Option ComposeError × σ}
  {call' : τ → Fragment → Option ComposeError × τ}

theorem map_serve (s : σ) (calls : List Fragment) : (serve call s calls).1.map (·.1) = calls := by
  induction calls generalizing s with
  | nil => rfl
  | cons f calls ih =>
    show f :: (serve call (call s f).2 calls).1.map (·.1) = f :: calls
    rw [ih]

/-- Stores that answer alike, and stay related while they do, answer alike over every run. -/
theorem serve_related {R : σ → τ → Prop}
    (hCall : ∀ s t f, R s t → (call s f).1 = (call' t f).1 ∧ R (call s f).2 (call' t f).2)
    (calls : List Fragment) {s : σ} {t : τ} (hStart : R s t) :
    (serve call s calls).1 = (serve call' t calls).1 ∧
      R (serve call s calls).2 (serve call' t calls).2 := by
  induction calls generalizing s t with
  | nil => exact ⟨rfl, hStart⟩
  | cons f calls ih =>
    obtain ⟨hAnswer, hNext⟩ := hCall s t f hStart
    obtain ⟨hHistory, hEnd⟩ := ih hNext
    refine ⟨?_, hEnd⟩
    show (f, (call s f).1) :: (serve call (call s f).2 calls).1
      = (f, (call' t f).1) :: (serve call' (call' t f).2 calls).1
    rw [hAnswer, hHistory]

end Serve

/--
What a store promises after a run of calls, whichever way it keeps its names. `fragments` and
`contains` are what it shows.
-/
structure Registers {σ : Type} (call : σ → Fragment → Option ComposeError × σ)
    (fragments : σ → List Fragment) (contains : σ → String → Bool) (history : History) (s : σ) :
    Prop where
  accepted : fragments s = history.accepted
  /-- The names it knows are those of the accepted trees, at any depth. -/
  contains_iff : ∀ n, contains s n = true ↔ ∃ f ∈ history.accepted, ∃ g ∈ f.all, g.name = n
  distinct : (history.accepted.flatMap Fragment.names).Nodup
  refuses_iff : ∀ f, (∃ e, (call s f).1 = some e) ↔
    ¬ f.names.Nodup ∨ ∃ n ∈ f.names, contains s n = true
  /-- The error is about the first name, depth first, that clashes. -/
  error : ∀ f e, (call s f).1 = some e →
    ∃ n, e = .duplicateFragment n ∧ IsFirstClash (contains s · = true) f.names n
  unchanged : ∀ f e, (call s f).1 = some e →
    fragments (call s f).2 = fragments s ∧ ∀ n, contains (call s f).2 n = contains s n

/-! ## Names seen from the fragments -/

namespace FragmentStore

variable {s t : FragmentStore} {f : Fragment} {e : ComposeError} {n : String}

theorem contains_iff_mem : s.contains n = true ↔ n ∈ s.names :=
  List.contains_iff_mem

theorem register_eq_error_iff :
    s.register f = .error e ↔
      ∃ n, e = .duplicateFragment n ∧ firstClash s.names f.names = some n := by
  unfold register
  split
  · rename_i n hClash
    constructor
    · intro h
      exact ⟨n, (Except.error.inj h).symm, hClash⟩
    · rintro ⟨n', rfl, hClash'⟩
      obtain rfl := Option.some.inj (hClash.symm.trans hClash')
      rfl
  · rename_i hFree
    refine iff_of_false (by simp) ?_
    rintro ⟨n', -, hClash⟩
    exact absurd (hFree.symm.trans hClash) (by simp)

theorem exists_register_eq_ok (h : firstClash s.names f.names = none) :
    ∃ t, s.register f = .ok t := by
  cases hRegister : s.register f with
  | ok t => exact ⟨t, rfl⟩
  | error e =>
    obtain ⟨n, -, hClash⟩ := register_eq_error_iff.mp hRegister
    exact absurd (h.symm.trans hClash) (by simp)

/-- A tree is refused exactly when it repeats a name or shares one with the store. -/
theorem exists_register_eq_error_iff :
    (∃ e, s.register f = .error e) ↔
      ¬ f.names.Nodup ∨ ∃ n ∈ f.names, s.contains n = true := by
  have hClash : (∃ e, s.register f = .error e) ↔ ¬ firstClash s.names f.names = none := by
    constructor
    · rintro ⟨e, hRegister⟩ hFree
      obtain ⟨t, hRegister'⟩ := exists_register_eq_ok hFree
      exact absurd (hRegister.symm.trans hRegister') (by simp)
    · intro hSome
      obtain ⟨n, hClash⟩ := Option.ne_none_iff_exists'.mp hSome
      exact ⟨_, register_eq_error_iff.mpr ⟨n, rfl, hClash⟩⟩
  rw [hClash, firstClash_eq_none_iff, not_and_or]
  simp only [not_forall, not_not, exists_prop, contains_iff_mem]

theorem contains_of_register (h : s.register f = .ok t) (n : String) :
    t.contains n = (s.contains n || f.names.contains n) := by
  have hNames : t.names = s.names ++ f.names := by
    rw [names, fragments_of_register h, namesOf_append, Fragment.namesOf, Fragment.namesOf,
      List.append_nil, names]
  rw [contains, hNames, List.contains_append, contains]

/-- One call: the answer, and the store behind it. A refused tree leaves the store as it was. -/
def offer (s : FragmentStore) (f : Fragment) : Option ComposeError × FragmentStore :=
  match s.register f with
  | .ok t => (none, t)
  | .error e => (some e, s)

theorem offer_of_register (h : s.register f = .ok t) : s.offer f = (none, t) := by
  rw [offer, h]

theorem offer_of_register_error (h : s.register f = .error e) : s.offer f = (some e, s) := by
  rw [offer, h]

theorem offer_eq_some_iff : (s.offer f).1 = some e ↔ s.register f = .error e := by
  cases hRegister : s.register f with
  | ok t => simp [offer_of_register hRegister]
  | error e' => simp [offer_of_register_error hRegister]

/-- The fragments behind a run of calls are those in front of it, then the trees accepted in it. -/
theorem fragments_serve (calls : List Fragment) (s : FragmentStore) :
    (serve offer s calls).2.fragments
      = s.fragments ++ (serve offer s calls).1.accepted := by
  induction calls generalizing s with
  | nil => exact (List.append_nil _).symm
  | cons f calls ih =>
    rw [serve]
    cases hRegister : s.register f with
    | ok t =>
      rw [offer_of_register hRegister]
      show (serve offer t calls).2.fragments
        = s.fragments ++ f :: (serve offer t calls).1.accepted
      rw [ih t, fragments_of_register hRegister, List.append_assoc, List.singleton_append]
    | error e =>
      rw [offer_of_register_error hRegister]
      exact ih s

theorem registers_serve (calls : List Fragment) :
    Registers offer fragments contains (serve offer empty calls).1
      (serve offer empty calls).2 := by
  set s := (serve offer empty calls).2
  have hAccepted : s.fragments = (serve offer empty calls).1.accepted := fragments_serve calls empty
  refine
    { accepted := hAccepted, contains_iff := ?contains_iff, distinct := ?distinct
      refuses_iff := ?refuses_iff, error := ?error, unchanged := ?unchanged }
  case contains_iff =>
    intro n
    rw [← hAccepted, contains_iff_mem, names, Fragment.mem_namesOf]
    simp only [← Fragment.map_name_all, List.mem_map]
  case distinct =>
    rw [← hAccepted, ← Fragment.namesOf_eq_flatMap]
    exact s.distinct
  case refuses_iff =>
    intro f
    simp only [offer_eq_some_iff]
    exact exists_register_eq_error_iff
  case error =>
    intro f e hError
    obtain ⟨n, rfl, hClash⟩ := register_eq_error_iff.mp (offer_eq_some_iff.mp hError)
    simp only [contains_iff_mem]
    exact ⟨n, rfl, firstClash_eq_some_iff.mp hClash⟩
  case unchanged =>
    intro f e hError
    rw [offer_of_register_error (offer_eq_some_iff.mp hError)]
    exact ⟨rfl, fun _ => rfl⟩

end FragmentStore

/-! ## Names in an index -/

/-- Top-level fragments, and beside them the names of all fragments at any depth. -/
structure IndexedStore where
  fragments : List Fragment := []
  index : NameSet := ∅

namespace IndexedStore

variable {s : FragmentStore} {t : IndexedStore} {f : Fragment}

/-- Whether a name is in the index. -/
def contains (t : IndexedStore) (n : String) : Bool :=
  t.index.contains n

/--
Collects the names of a tree in order, on top of `incoming`, until one is known already or has been
collected before.
-/
def gather (index incoming : NameSet) : List String → Except ComposeError NameSet
  | [] => .ok incoming
  | n :: ns =>
    if index.contains n || incoming.contains n then .error (.duplicateFragment n)
    else gather index (incoming.add n) ns

/-- One call: only a tree whose names have all been collected changes the store. -/
def offer (t : IndexedStore) (f : Fragment) : Option ComposeError × IndexedStore :=
  match gather t.index ∅ f.names with
  | .error e => (some e, t)
  | .ok incoming => (none, { fragments := t.fragments ++ [f], index := t.index.join incoming })

/-- The indexed store has the same fragments, and its index has just their names. -/
structure InStep (s : FragmentStore) (t : IndexedStore) : Prop where
  fragments : t.fragments = s.fragments
  index : ∀ n, t.index.contains n = s.contains n

/-- Names are collected until the first that clashes with the index or with those before it. -/
theorem gather_eq {taken : List String} {index incoming : NameSet}
    (hTaken : ∀ m, m ∈ taken ↔ index.contains m = true ∨ incoming.contains m = true)
    (names : List String) :
    (∃ n, firstClash taken names = some n ∧
        gather index incoming names = .error (.duplicateFragment n)) ∨
      firstClash taken names = none ∧ ∃ collected, gather index incoming names = .ok collected ∧
        ∀ m, collected.contains m = (incoming.contains m || names.contains m) := by
  induction names generalizing taken incoming with
  | nil => exact Or.inr ⟨rfl, incoming, rfl, by simp⟩
  | cons n names ih =>
    rw [firstClash, gather]
    by_cases hn : n ∈ taken
    · have hKnown : (index.contains n || incoming.contains n) = true := by
        rw [Bool.or_eq_true]
        exact (hTaken n).mp hn
      refine Or.inl ⟨n, ?_, ?_⟩
      · rw [if_pos (List.contains_iff_mem.mpr hn)]
      · rw [if_pos hKnown]
    · have hNew : ¬ (index.contains n || incoming.contains n) = true := by
        rw [Bool.or_eq_true]
        exact fun hKnown => hn ((hTaken n).mpr hKnown)
      -- the name that has been collected is taken from here on
      have hNext : ∀ m, m ∈ n :: taken ↔
          index.contains m = true ∨ (incoming.add n).contains m = true := by
        intro m
        rw [List.mem_cons, hTaken, NameSet.contains_add, Bool.or_eq_true, beq_iff_eq]
        exact or_left_comm
      rw [if_neg (by simpa using hn), if_neg hNew]
      rcases ih hNext with hClash | ⟨hFree, collected, hGather, hCollected⟩
      · exact Or.inl hClash
      · refine Or.inr ⟨hFree, collected, hGather, ?_⟩
        intro m
        rw [hCollected, NameSet.contains_add, List.contains_cons, Bool.or_assoc, Bool.or_left_comm]

/-- A call on a store and on one that is in step with it has the same answer and keeps step. -/
theorem inStep_offer (h : InStep s t) (f : Fragment) :
    (s.offer f).1 = (t.offer f).1 ∧ InStep (s.offer f).2 (t.offer f).2 := by
  have hTaken : ∀ m, m ∈ s.names ↔
      t.index.contains m = true ∨ (∅ : NameSet).contains m = true := by
    intro m
    rw [h.index, FragmentStore.contains_iff_mem]
    exact (or_iff_left Bool.false_ne_true).symm
  rw [offer]
  rcases gather_eq hTaken f.names with ⟨n, hClash, hGather⟩ | ⟨hFree, all, hGather, hAll⟩
  · have hRegister : s.register f = .error (.duplicateFragment n) :=
      FragmentStore.register_eq_error_iff.mpr ⟨n, rfl, hClash⟩
    rw [hGather, FragmentStore.offer_of_register_error hRegister]
    exact ⟨rfl, h⟩
  · obtain ⟨u, hRegister⟩ := FragmentStore.exists_register_eq_ok hFree
    rw [hGather, FragmentStore.offer_of_register hRegister]
    refine ⟨rfl, ?_, ?_⟩
    · show t.fragments ++ [f] = u.fragments
      rw [h.fragments, FragmentStore.fragments_of_register hRegister]
    · intro n
      show (t.index.join all).contains n = u.contains n
      rw [NameSet.contains_join, hAll, h.index, FragmentStore.contains_of_register hRegister]
      rfl

/-- Step is kept over every run of calls, refused ones included. -/
theorem inStep_serve (h : InStep s t) (calls : List Fragment) :
    (serve FragmentStore.offer s calls).1 = (serve offer t calls).1 ∧
      InStep (serve FragmentStore.offer s calls).2 (serve offer t calls).2 :=
  serve_related (R := InStep) (fun _ _ f hStep => inStep_offer hStep f) calls h

/-- What a store promises is seen from outside, so a store that is in step promises it too. -/
theorem InStep.registers {history : History} (h : InStep s t)
    (hStore : Registers FragmentStore.offer FragmentStore.fragments FragmentStore.contains
      history s) : Registers offer IndexedStore.fragments contains history t := by
  have hContains : contains t = s.contains := funext h.index
  have hAnswer : ∀ f, (t.offer f).1 = (s.offer f).1 := fun f => (inStep_offer h f).1.symm
  refine
    { accepted := h.fragments.trans hStore.accepted, contains_iff := ?contains_iff
      distinct := hStore.distinct, refuses_iff := ?refuses_iff, error := ?error
      unchanged := ?unchanged }
  case contains_iff =>
    rw [hContains]
    exact hStore.contains_iff
  case refuses_iff =>
    intro f
    rw [hAnswer, hContains]
    exact hStore.refuses_iff f
  case error =>
    intro f e hError
    rw [hContains]
    exact hStore.error f e ((hAnswer f).symm.trans hError)
  case unchanged =>
    intro f e hError
    obtain ⟨hFragments, hNames⟩ := hStore.unchanged f e ((hAnswer f).symm.trans hError)
    have hNext : InStep (s.offer f).2 (t.offer f).2 := (inStep_offer h f).2
    refine ⟨?_, ?_⟩
    · rw [hNext.fragments, hFragments, h.fragments]
    · intro n
      rw [hContains, ← hNames n]
      exact hNext.index n

end IndexedStore

/-! ## Finding fragments by name -/

namespace Fragment

variable {fs : List Fragment} {f : Fragment} {n : String}

mutual
/-- Searches a tree: a fragment is found itself, or else what is found of those nested in it. -/
def search (n : String) : Fragment → Option Fragment
  | ⟨name, gate, items, constraints, children⟩ =>
    if name = n then some ⟨name, gate, items, constraints, children⟩ else searchOf n children

/-- Searches one tree after the other. -/
def searchOf (n : String) : List Fragment → Option Fragment
  | [] => none
  | f :: fs =>
    match search n f with
    | some g => some g
    | none => searchOf n fs
end

-- the search goes down trees just as their fragments are listed
mutual
theorem search_eq_find? (n : String) : ∀ f : Fragment, search n f = (all f).find? (·.name == n)
  | ⟨name, _, _, _, children⟩ => by
    rw [search, all, List.find?_cons, searchOf_eq_find? n children, find?]
    by_cases hName : name = n
    · rw [if_pos hName, beq_iff_eq.mpr hName]
    · rw [if_neg hName, beq_eq_false_iff_ne.mpr hName]

theorem searchOf_eq_find? (n : String) : ∀ fs : List Fragment, searchOf n fs = find? fs n
  | [] => rfl
  | f :: fs => by
    rw [searchOf, find?, allOf, List.find?_append, search_eq_find? n f, searchOf_eq_find? n fs,
      find?]
    cases (all f).find? (·.name == n) with
    | none => rfl
    | some g => rfl
end

theorem isSome_find?_iff : (find? fs n).isSome = true ↔ n ∈ namesOf fs := by
  rw [find?, List.find?_isSome, ← map_name_allOf, List.mem_map]
  simp only [beq_iff_eq]

/-- Where names are distinct, the fragment that is found is the only one of its name. -/
theorem filter_name_of_find? (hNodup : (namesOf fs).Nodup) (h : find? fs n = some f) :
    (allOf fs).filter (·.name == n) = [f] := by
  obtain ⟨hName, before, after, hSplit, hBefore⟩ := List.find?_eq_some_iff_append.mp h
  obtain rfl : f.name = n := by simpa using hName
  have hFront : before.filter (·.name == f.name) = [] := by
    rw [List.filter_eq_nil_iff]
    intro g hg
    simpa using hBefore g hg
  have hBack : after.filter (·.name == f.name) = [] := by
    rw [← map_name_allOf, hSplit, List.map_append, List.map_cons, List.nodup_append] at hNodup
    have hNew : f.name ∉ after.map (·.name) := (List.nodup_cons.mp hNodup.2.1).1
    rw [List.filter_eq_nil_iff]
    intro g hg hSame
    exact hNew (List.mem_map.mpr ⟨g, hg, by simpa using hSame⟩)
  have hKept : (f :: after).filter (·.name == f.name) = [f] := by
    rw [List.filter_cons, if_pos hName, hBack]
  rw [hSplit, List.filter_append, hFront, hKept, List.nil_append]

end Fragment

/--
After every run of calls, a store has the trees that it accepted and knows just their names, refuses
a tree exactly for a name that clashes, and is not changed by that. So does a store that looks names
up in an index. A library that searches its trees one after the other finds a fragment just when its
store has the name, and then there is no other of that name.
-/
theorem registers_and_finds (calls : List Fragment) (l : Library) :
    (serve FragmentStore.offer .empty calls).1.map (·.1) = calls ∧
      Registers FragmentStore.offer FragmentStore.fragments FragmentStore.contains
        (serve FragmentStore.offer .empty calls).1 (serve FragmentStore.offer .empty calls).2 ∧
      (serve IndexedStore.offer {} calls).1 = (serve FragmentStore.offer .empty calls).1 ∧
      Registers IndexedStore.offer IndexedStore.fragments IndexedStore.contains
        (serve IndexedStore.offer {} calls).1 (serve IndexedStore.offer {} calls).2 ∧
      (∀ n, l.fragment? n = Fragment.searchOf n l.fragments) ∧
      ∀ s, l.store = .ok s → ∀ n,
        ((l.fragment? n).isSome = true ↔ s.contains n = true) ∧
          ∀ f, l.fragment? n = some f →
            (Fragment.allOf l.fragments).filter (·.name == n) = [f] := by
  have hStart : IndexedStore.InStep .empty {} := ⟨rfl, fun _ => rfl⟩
  obtain ⟨hHistory, hStep⟩ := IndexedStore.inStep_serve hStart calls
  have hRegisters := FragmentStore.registers_serve calls
  refine ⟨map_serve _ calls, hRegisters, hHistory.symm, ?_, ?_, ?_⟩
  · rw [← hHistory]
    exact hStep.registers hRegisters
  · intro n
    exact (Fragment.searchOf_eq_find? n l.fragments).symm
  · intro s hStore n
    have hFragments : s.fragments = l.fragments := FragmentStore.fragments_of_ofFragments hStore
    refine ⟨?_, ?_⟩
    · rw [Library.fragment?, Fragment.isSome_find?_iff, FragmentStore.contains_iff_mem,
        FragmentStore.names, hFragments]
    · intro f hFound
      exact Fragment.filter_name_of_find? (hFragments ▸ s.distinct) hFound

/-- Offered twice, every tree of the sample is accepted once and then refused. -/
theorem registers_and_finds_sample :
    (serve FragmentStore.offer .empty (Sample.fragments ++ Sample.fragments)).1.map (·.2)
        = [none, none, none, some (.duplicateFragment "late"), some (.duplicateFragment "extra"),
            some (.duplicateFragment "early")] ∧
      Registers IndexedStore.offer IndexedStore.fragments IndexedStore.contains
        (serve FragmentStore.offer .empty (Sample.fragments ++ Sample.fragments)).1
        (serve IndexedStore.offer {} (Sample.fragments ++ Sample.fragments)).2 ∧
      ∃ f, Library.fragment? { name := "sample", fragments := Sample.fragments } "open" = some f ∧
        Library.store { name := "sample", fragments := Sample.fragments } = .ok Sample.store ∧
        (Fragment.allOf Sample.fragments).filter (·.name == "open") = [f] := by
  obtain ⟨-, -, hHistory, hIndexed, -, hFinds⟩ := registers_and_finds
    (Sample.fragments ++ Sample.fragments) { name := "sample", fragments := Sample.fragments }
  rw [hHistory] at hIndexed
  exact ⟨rfl, hIndexed, _, rfl, rfl, (hFinds Sample.store rfl "open").2 _ rfl⟩

end DeclSurface
