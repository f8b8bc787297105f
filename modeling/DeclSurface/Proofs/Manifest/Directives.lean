import DeclSurface.Manifest.Header
import Mathlib.Data.List.TakeWhile

/-!
# Directives in a header

A header is written in one pass over the items, with a cursor in the rewrite log: in front of an
item goes every event that the cursor meets until the first that belongs further down. Nothing is
lost by that, whatever the positions are. It is read from top to bottom, so it matters what stands
in front of a directive: an event stands as far down as it, or some event before it in the log, has to.

* `Header.Piece.item?`, `Header.Piece.event?` — the item or the event that a piece shows.
* `Header.textOf`             — the text of several pieces.
* `Header.furthest`           — the highest position of several events.
* `Header.length_items_before` — how many items stand in front of an event.
* `Manifest.exists_layout_split`, `Manifest.toHeader_of_layout` — the place of an event in a header.
-/

namespace DeclSurface

namespace Header

variable {n : Nat} {is : List ManifestItem} {log : List RewriteEvent}
  {before after : List Piece} {r : RewriteEvent}

/-- The item that a piece shows. -/
def Piece.item? : Piece → Option ManifestItem
  | .event _ => none
  | .item i => some i

/-- The event that a piece shows. -/
def Piece.event? : Piece → Option RewriteEvent
  | .event e => some e
  | .item _ => none

theorem Piece.event?_eq_some_iff {piece : Piece} : piece.event? = some r ↔ piece = .event r := by
  cases piece <;> simp [event?]

/-- The text of several pieces. -/
def textOf (pieces : List Piece) : String :=
  String.join (pieces.map Piece.text)

/-! ## Nothing is lost -/

theorem filterMap_item?_events (log : List RewriteEvent) :
    (log.map Piece.event).filterMap Piece.item? = [] := by
  induction log with
  | nil => rfl
  | cons ev log ih => exact ih

theorem filterMap_event?_events (log : List RewriteEvent) :
    (log.map Piece.event).filterMap Piece.event? = log := by
  induction log with
  | nil => rfl
  | cons e log ih => exact congrArg (e :: ·) ih

theorem filterMap_item?_layoutFrom (n : Nat) (is : List ManifestItem) (log : List RewriteEvent) :
    (layoutFrom n is log).filterMap Piece.item? = is := by
  induction is generalizing n log with
  | nil => exact filterMap_item?_events log
  | cons i is ih =>
    rw [layoutFrom, List.filterMap_append, filterMap_item?_events, List.nil_append]
    show i :: (layoutFrom (n + 1) is _).filterMap Piece.item? = i :: is
    rw [ih]

theorem filterMap_event?_layoutFrom (n : Nat) (is : List ManifestItem) (log : List RewriteEvent) :
    (layoutFrom n is log).filterMap Piece.event? = log := by
  induction is generalizing n log with
  | nil => exact filterMap_event?_events log
  | cons i is ih =>
    rw [layoutFrom, List.filterMap_append, filterMap_event?_events]
    show _ ++ (layoutFrom (n + 1) is _).filterMap Piece.event? = log
    rw [ih]
    exact List.takeWhile_append_dropWhile

/-! ## Places of events -/

/-- The highest position of some events. -/
def furthest (log : List RewriteEvent) : Nat :=
  log.foldr (fun e p => max e.position p) 0

theorem furthest_le_iff : furthest log ≤ n ↔ ∀ e ∈ log, e.position ≤ n := by
  induction log with
  | nil => simp [furthest]
  | cons e log ih =>
    rw [List.forall_mem_cons, ← ih]
    exact Nat.max_le

theorem position_le_furthest (h : r ∈ log) : r.position ≤ furthest log :=
  furthest_le_iff.mp (Nat.le_refl _) r h

theorem furthest_append (log log' : List RewriteEvent) :
    furthest (log ++ log') = max (furthest log) (furthest log') := by
  refine Nat.le_antisymm ?_ ?_
  · refine furthest_le_iff.mpr fun e he => ?_
    rcases List.mem_append.mp he with he | he
    · exact Nat.le_trans (position_le_furthest he) (Nat.le_max_left _ _)
    · exact Nat.le_trans (position_le_furthest he) (Nat.le_max_right _ _)
  · refine Nat.max_le.mpr ⟨?_, ?_⟩
    · exact furthest_le_iff.mpr fun e he => position_le_furthest (List.mem_append_left _ he)
    · exact furthest_le_iff.mpr fun e he => position_le_furthest (List.mem_append_right _ he)

theorem position_le_of_mem_takeWhile (h : r ∈ log.takeWhile (·.position ≤ n)) :
    r.position ≤ n := by
  simpa using List.mem_takeWhile_imp h

/-- The first event that is left belongs further down, so some event up to any of those left does. -/
theorem lt_furthest_of_dropWhile {pre post : List RewriteEvent}
    (h : log.dropWhile (·.position ≤ n) = pre ++ r :: post) : n < furthest (pre ++ [r]) := by
  have hHead : ∀ e rest, log.dropWhile (·.position ≤ n) = e :: rest → n < e.position := by
    intro e rest hDrop
    have hNot := List.head?_dropWhile_not (fun e : RewriteEvent => decide (e.position ≤ n)) log
    rw [hDrop] at hNot
    simpa using hNot
  cases pre with
  | nil => exact Nat.lt_of_lt_of_le (hHead r post h) (position_le_furthest List.mem_cons_self)
  | cons e pre =>
    exact Nat.lt_of_lt_of_le (hHead e _ h) (position_le_furthest List.mem_cons_self)

/-- An event stands in front of the first item, with events only, or somewhere behind it. -/
theorem layoutFrom_cons_split {i : ManifestItem}
    (h : layoutFrom n (i :: is) log = before ++ .event r :: after) :
    (∃ mid, (log.takeWhile (·.position ≤ n)).map Piece.event = before ++ .event r :: mid) ∨
      ∃ mid, before = (log.takeWhile (·.position ≤ n)).map Piece.event ++ .item i :: mid ∧
        layoutFrom (n + 1) is (log.dropWhile (·.position ≤ n)) = mid ++ .event r :: after := by
  rw [layoutFrom] at h
  rcases List.append_eq_append_iff.mp h with ⟨mid, hBefore, hMid⟩ | ⟨mid, hTaken, hMid⟩
  · cases mid with
    | nil => cases (List.cons.inj hMid).1
    | cons piece mid =>
      obtain rfl : Piece.item i = piece := (List.cons.inj hMid).1
      exact Or.inr ⟨mid, hBefore, (List.cons.inj hMid).2⟩
  · cases mid with
    | nil => cases (List.cons.inj hMid).1
    | cons piece mid =>
      obtain rfl : Piece.event r = piece := (List.cons.inj hMid).1
      exact Or.inl ⟨mid, hTaken⟩

/--
In front of an event stand as many items as the highest position says among the events up to it, or
all items if there are fewer.
-/
theorem length_items_before (h : layoutFrom n is log = before ++ .event r :: after) :
    n + (before.filterMap Piece.item?).length
      = min (n + is.length) (max n (furthest (before.filterMap Piece.event? ++ [r]))) := by
  induction is generalizing n log before with
  | nil =>
    have hItems := filterMap_item?_layoutFrom n [] log
    rw [h, List.filterMap_append, List.append_eq_nil_iff] at hItems
    rw [hItems.1, List.length_nil]
    omega
  | cons i is ih =>
    have hLow : furthest (log.takeWhile (·.position ≤ n)) ≤ n :=
      furthest_le_iff.mpr fun e he => position_le_of_mem_takeWhile he
    rcases layoutFrom_cons_split h with ⟨mid, hTaken⟩ | ⟨mid, rfl, hRest⟩
    · have hItems := filterMap_item?_events (log.takeWhile (·.position ≤ n))
      have hEvents := filterMap_event?_events (log.takeWhile (·.position ≤ n))
      rw [hTaken, List.filterMap_append, List.append_eq_nil_iff] at hItems
      rw [hTaken, List.filterMap_append] at hEvents
      -- the events up to this one are among those that are taken in front of the item
      have hSplit : log.takeWhile (·.position ≤ n)
          = before.filterMap Piece.event? ++ [r] ++ mid.filterMap Piece.event? := by
        rw [← hEvents, List.append_assoc]
        rfl
      rw [hSplit, furthest_append] at hLow
      rw [hItems.1, List.length_nil, List.length_cons]
      omega
    · have hEvents := filterMap_event?_layoutFrom (n + 1) is (log.dropWhile (·.position ≤ n))
      rw [hRest, List.filterMap_append] at hEvents
      have hFurther : n < furthest (mid.filterMap Piece.event? ++ [r]) :=
        lt_furthest_of_dropWhile hEvents.symm
      have hCount := ih hRest
      rw [List.filterMap_append, List.filterMap_append, filterMap_item?_events,
        filterMap_event?_events, List.nil_append, List.append_assoc, furthest_append]
      show n + ((mid.filterMap Piece.item?).length + 1) = min (n + (is.length + 1))
        (max n (max _ (furthest (mid.filterMap Piece.event? ++ [r]))))
      omega

/-- Whatever a layout starts with shows the first items. -/
theorem prefixed_items {m : Manifest} (h : layout m = before ++ after) :
    before.filterMap Piece.item? <+: m.items := by
  have hItems : (layout m).filterMap Piece.item? = m.items :=
    filterMap_item?_layoutFrom 0 m.items m.rewrites
  rw [← hItems, h, List.filterMap_append]
  exact List.prefix_append _ _

theorem length_items_before_layout {m : Manifest} (h : layout m = before ++ .event r :: after) :
    (before.filterMap Piece.item?).length
      = min m.items.length (furthest (before.filterMap Piece.event? ++ [r])) := by
  have hCount := length_items_before (n := 0) h
  simpa using hCount

end Header

/-- Every event of a manifest has its place in the header, behind the items in front of it. -/
theorem Manifest.exists_layout_split {m : Manifest} {r : RewriteEvent} (h : r ∈ m.rewrites) :
    ∃ before after count, Header.layout m = before ++ .event r :: after ∧
      before.filterMap Header.Piece.item? = m.items.take count ∧
      ∀ i < m.items.length, i < r.position → i < count := by
  have hEvents : (Header.layout m).filterMap Header.Piece.event? = m.rewrites :=
    Header.filterMap_event?_layoutFrom 0 m.items m.rewrites
  rw [← hEvents, List.mem_filterMap] at h
  obtain ⟨piece, hPiece, hShows⟩ := h
  obtain rfl : piece = .event r := Header.Piece.event?_eq_some_iff.mp hShows
  obtain ⟨before, after, hLayout⟩ := List.append_of_mem hPiece
  refine ⟨before, after, (before.filterMap Header.Piece.item?).length, hLayout, ?_, ?_⟩
  · exact List.prefix_iff_eq_take.mp (Header.prefixed_items hLayout)
  · intro i hi hBefore
    have hPosition : r.position
        ≤ Header.furthest (before.filterMap Header.Piece.event? ++ [r]) :=
      Header.position_le_furthest (List.mem_append_right _ List.mem_cons_self)
    rw [Header.length_items_before_layout hLayout]
    omega

/-- A header from its banner to an event, and on to its end. -/
theorem Manifest.toHeader_of_layout {m : Manifest} {r : RewriteEvent}
    {before after : List Header.Piece} (h : Header.layout m = before ++ .event r :: after)
    (fingerprint : Bool) :
    m.toHeader fingerprint = Header.banner m fingerprint ++ Header.textOf before
      ++ Header.event r ++ Header.textOf after := by
  rw [toHeader, h, List.map_append, List.map_cons, String.join_append, String.join_cons,
    String.append_assoc, String.append_assoc]
  rfl

end DeclSurface
