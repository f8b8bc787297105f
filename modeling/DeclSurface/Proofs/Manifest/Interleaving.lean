import DeclSurface.Proofs.Composition.Bracketing
import DeclSurface.Proofs.Manifest.Directives

/-!
# Items and events in a header

Every item and every event of a manifest is in its header, each once and in order, and no event
stands in front of an item that belongs before it. Where positions never fall along the log, each
event stands at its own position, so the header can be written down item by item.

* `Header.write`              — the pass over the items with a cursor in the log.
* `Header.positional`         — the layout that positions ask for, item by item.
* `Header.Interleaves`        — how the items and the events of a manifest are laid out.
* `Manifest.toHeader_interleaved` — what every header is made of, and the layout of composed ones.
-/

namespace DeclSurface

namespace Header

variable {n : Nat} {is : List ManifestItem} {log : List RewriteEvent} {r : RewriteEvent}

/-! ## One pass with a cursor -/

/-- Writes the events that the cursor meets, until one belongs behind the item numbered `n`. -/
def catchUp (n : Nat) : String → List RewriteEvent → String × List RewriteEvent
  | output, [] => (output, [])
  | output, e :: log =>
    if e.position ≤ n then catchUp n (output ++ event e) log else (output, e :: log)

/--
Writes the items from the one numbered `n` on, each behind the events that are due there, and then
the events that are left.
-/
def write (n : Nat) : List ManifestItem → String → List RewriteEvent → String
  | [], output, log => log.foldl (fun output e => output ++ event e) output
  | i :: is, output, log =>
    let (output, log) := catchUp n output log
    write (n + 1) is (output ++ item i.item.kind) log

theorem textOf_cons (piece : Piece) (pieces : List Piece) :
    textOf (piece :: pieces) = piece.text ++ textOf pieces := by
  rw [textOf, List.map_cons, String.join_cons, textOf]

theorem textOf_append (pieces pieces' : List Piece) :
    textOf (pieces ++ pieces') = textOf pieces ++ textOf pieces' := by
  rw [textOf, List.map_append, String.join_append, textOf, textOf]

theorem catchUp_eq (n : Nat) (output : String) (log : List RewriteEvent) :
    catchUp n output log
      = (output ++ textOf ((log.takeWhile (·.position ≤ n)).map .event),
          log.dropWhile (·.position ≤ n)) := by
  induction log generalizing output with
  | nil =>
    show (output, []) = (output ++ "", [])
    rw [String.append_empty]
  | cons e log ih =>
    rw [catchUp, List.takeWhile_cons, List.dropWhile_cons]
    by_cases hDue : e.position ≤ n
    · have hTrue : decide (e.position ≤ n) = true := decide_eq_true hDue
      rw [if_pos hDue, if_pos hTrue, if_pos hTrue, ih, List.map_cons, textOf_cons,
        String.append_assoc]
      rfl
    · have hFalse : ¬ decide (e.position ≤ n) = true := by simpa using hDue
      rw [if_neg hDue, if_neg hFalse, if_neg hFalse]
      show (output, e :: log) = (output ++ "", e :: log)
      rw [String.append_empty]

theorem foldl_event_eq (output : String) (log : List RewriteEvent) :
    log.foldl (fun output e => output ++ event e) output = output ++ textOf (log.map .event) := by
  induction log generalizing output with
  | nil => exact String.append_empty.symm
  | cons e log ih =>
    rw [List.foldl_cons, ih, List.map_cons, textOf_cons, String.append_assoc]
    rfl

/-- Writing adds the text of the pieces that are laid out. -/
theorem write_eq (n : Nat) (is : List ManifestItem) (output : String) (log : List RewriteEvent) :
    write n is output log = output ++ textOf (layoutFrom n is log) := by
  induction is generalizing n output log with
  | nil => exact foldl_event_eq output log
  | cons i is ih =>
    rw [write, catchUp_eq, layoutFrom, textOf_append, textOf_cons]
    show write (n + 1) is _ _ = _
    rw [ih, String.append_assoc, String.append_assoc]
    rfl

/-! ## Logs in order -/

theorem lt_of_mem_dropWhile (hOrdered : log.Pairwise fun a b => a.position ≤ b.position)
    (h : r ∈ log.dropWhile (·.position ≤ n)) : n < r.position := by
  induction log with
  | nil => exact absurd h List.not_mem_nil
  | cons e log ih =>
    obtain ⟨hLater, hRest⟩ := List.pairwise_cons.mp hOrdered
    rw [List.dropWhile_cons] at h
    split at h
    · exact ih hRest h
    · -- the first event that is left is the lowest of those left
      rename_i hStop
      have hStop : n < e.position := by simpa using hStop
      rcases List.mem_cons.mp h with rfl | hr
      · exact hStop
      · exact Nat.lt_of_lt_of_le hStop (hLater r hr)

/-- The pieces that positions ask for, from the item numbered `n` on. -/
def positionalFrom (n : Nat) (is : List ManifestItem) (log : List RewriteEvent) : List Piece :=
  (is.zipIdx n).flatMap (fun p => (log.filter (·.position == p.2)).map .event ++ [.item p.1])
    ++ (log.filter (n + is.length ≤ ·.position)).map .event

/-- In front of every item stand the events at its place; those behind all items come last. -/
def positional (m : Manifest) : List Piece :=
  m.items.zipIdx.flatMap (fun p => (m.eventsAt p.2).map .event ++ [.item p.1])
    ++ (m.rewrites.filter (m.items.length ≤ ·.position)).map .event

theorem positional_eq_positionalFrom (m : Manifest) :
    positional m = positionalFrom 0 m.items m.rewrites := by
  rw [positionalFrom, Nat.zero_add]
  rfl

theorem positionalFrom_cons (n : Nat) (i : ManifestItem) (is : List ManifestItem)
    (log : List RewriteEvent) :
    positionalFrom n (i :: is) log
      = (log.filter (·.position == n)).map .event ++ .item i :: positionalFrom (n + 1) is log := by
  rw [positionalFrom, List.zipIdx_cons, List.flatMap_cons, List.length_cons, positionalFrom,
    List.append_assoc, List.append_assoc, List.singleton_append, Nat.add_right_comm,
    ← Nat.add_assoc n is.length 1]

/-- Events in front of an item take no part in the layout behind it. -/
theorem positionalFrom_append {front back : List RewriteEvent}
    (hFront : ∀ e ∈ front, e.position < n) :
    positionalFrom n is (front ++ back) = positionalFrom n is back := by
  have hNone (p : RewriteEvent → Bool) (hp : ∀ e, p e = true → n ≤ e.position) :
      (front ++ back).filter p = back.filter p := by
    rw [List.filter_append, List.filter_eq_nil_iff.mpr, List.nil_append]
    intro e he hTrue
    have hLow := hFront e he
    have hHigh := hp e hTrue
    omega
  have hItems : (is.zipIdx n).flatMap
        (fun p => ((front ++ back).filter (·.position == p.2)).map Piece.event ++ [.item p.1])
      = (is.zipIdx n).flatMap
        (fun p => (back.filter (·.position == p.2)).map Piece.event ++ [.item p.1]) := by
    refine List.flatMap_congr fun p hp => ?_
    have hFrom : n ≤ p.2 := List.le_snd_of_mem_zipIdx hp
    rw [hNone _ fun e hEq => ?_]
    have hEq : e.position = p.2 := by simpa using hEq
    omega
  rw [positionalFrom, positionalFrom, hItems, hNone _ fun e hLe => ?_]
  have hLe : n + is.length ≤ e.position := by simpa using hLe
  omega

/-- Where positions never fall, every event stands at its own. -/
theorem layoutFrom_eq_positionalFrom
    (hOrdered : log.Pairwise fun a b => a.position ≤ b.position)
    (hFrom : ∀ e ∈ log, n ≤ e.position) : layoutFrom n is log = positionalFrom n is log := by
  induction is generalizing n log with
  | nil =>
    have hAll : log.filter (n + 0 ≤ ·.position) = log := by
      rw [List.filter_eq_self]
      intro e he
      exact decide_eq_true (hFrom e he)
    show log.map Piece.event = (log.filter (n + 0 ≤ ·.position)).map Piece.event
    rw [hAll]
  | cons i is ih =>
    set front := log.takeWhile (·.position ≤ n)
    set back := log.dropWhile (·.position ≤ n)
    have hSplit : log = front ++ back := List.takeWhile_append_dropWhile.symm
    have hLow : ∀ e ∈ front, e.position ≤ n := fun e he => position_le_of_mem_takeWhile he
    have hHigh : ∀ e ∈ back, n < e.position := fun e he => lt_of_mem_dropWhile hOrdered he
    -- what is taken in front of the item are the events at its place
    have hHere : log.filter (·.position == n) = front := by
      have hFront : front.filter (·.position == n) = front := by
        rw [List.filter_eq_self]
        intro e he
        have hAtLeast : n ≤ e.position := hFrom e (hSplit ▸ List.mem_append_left _ he)
        exact beq_iff_eq.mpr (Nat.le_antisymm (hLow e he) hAtLeast)
      have hBack : back.filter (·.position == n) = [] := by
        rw [List.filter_eq_nil_iff]
        intro e he hEq
        exact Nat.ne_of_gt (hHigh e he) (beq_iff_eq.mp hEq)
      rw [hSplit, List.filter_append, hFront, hBack, List.append_nil]
    have hRest : positionalFrom (n + 1) is log = positionalFrom (n + 1) is back := by
      rw [hSplit]
      exact positionalFrom_append fun e he => Nat.lt_succ_of_le (hLow e he)
    have hBackOrdered : back.Pairwise fun a b => a.position ≤ b.position :=
      hOrdered.sublist (List.dropWhile_sublist _)
    rw [positionalFrom_cons, hHere, hRest, ← ih hBackOrdered hHigh]
    rfl

/-- How a header lays out the items and the events of a manifest. -/
structure Interleaves (m : Manifest) : Prop where
  /-- The items are written in order, each once. -/
  items : (layout m).filterMap Piece.item? = m.items
  /-- So are the events. -/
  events : (layout m).filterMap Piece.event? = m.rewrites
  /-- No event is written too early. -/
  behind : ∀ before r after, layout m = before ++ .event r :: after →
    r.position ≤ (before.filterMap Piece.item?).length ∨ before.filterMap Piece.item? = m.items
  /-- Nor is any later than an event up to it in the log asks for. -/
  placed : ∀ before r after, layout m = before ++ .event r :: after →
    (before.filterMap Piece.item?).length
      = min m.items.length (furthest (before.filterMap Piece.event? ++ [r]))

theorem interleaves_layout (m : Manifest) : Interleaves m := by
  refine
    { items := filterMap_item?_layoutFrom 0 m.items m.rewrites
      events := filterMap_event?_layoutFrom 0 m.items m.rewrites
      behind := ?behind, placed := fun _ _ _ => length_items_before_layout }
  intro before r after hSplit
  have hCount := length_items_before_layout hSplit
  have hPosition : r.position ≤ furthest (before.filterMap Piece.event? ++ [r]) :=
    position_le_furthest (List.mem_append_right _ List.mem_cons_self)
  -- with as many items in front as there are, those in front are all
  by_cases hAll : (before.filterMap Piece.item?).length = m.items.length
  · exact Or.inr ((prefixed_items hSplit).eq_of_length hAll)
  · exact Or.inl (by omega)

/-- Where positions never fall, the cursor lays out what positions ask for. -/
theorem layout_eq_positional {m : Manifest}
    (hOrdered : m.rewrites.Pairwise fun a b => a.position ≤ b.position) :
    layout m = positional m := by
  rw [positional_eq_positionalFrom]
  exact layoutFrom_eq_positionalFrom hOrdered fun e _ => Nat.zero_le _

end Header

/-- The events of a composed manifest stand in order. -/
theorem Plan.ordered_rewrites {plan : Plan} {store : FragmentStore} {flags : FlagSet}
    {m : Manifest} (h : plan.compose store flags = .ok m) :
    m.rewrites.Pairwise fun a b => a.position ≤ b.position := by
  obtain ⟨-, order, -, p, hPerform, rfl⟩ := Plan.compose_eq_ok_iff.mp h
  exact (Progress.stamped_perform hPerform).ordered

/--
A header is written in one pass. Behind its banner, it is the text of all items in order and of all
events in the order of the log. No event stands in front of an item that belongs before it. Where
positions never fall along the log, as in every composed manifest, the events at a position stand
just in front of the item there.
-/
theorem Manifest.toHeader_interleaved (m : Manifest) (fingerprint : Bool) :
    m.toHeader fingerprint
        = Header.write 0 m.items (Header.banner m fingerprint) m.rewrites ∧
      m.toHeader fingerprint
        = Header.banner m fingerprint ++ Header.textOf (Header.layout m) ∧
      Header.Interleaves m ∧
      (m.rewrites.Pairwise (fun a b => a.position ≤ b.position) →
        m.toHeader fingerprint
          = Header.banner m fingerprint ++ Header.textOf (Header.positional m)) ∧
      ∀ (plan : Plan) (store : FragmentStore) (flags : FlagSet), plan.compose store flags = .ok m →
        m.rewrites.Pairwise fun a b => a.position ≤ b.position := by
  have hText : m.toHeader fingerprint
      = Header.banner m fingerprint ++ Header.textOf (Header.layout m) := rfl
  refine ⟨?_, hText, Header.interleaves_layout m, ?_, ?_⟩
  · rw [Header.write_eq, hText]
    rfl
  · intro hOrdered
    rw [hText, Header.layout_eq_positional hOrdered]
  · intro plan store flags hCompose
    exact Plan.ordered_rewrites hCompose

theorem Manifest.toHeader_interleaved_sample :
    ∃ m, Sample.plan.compose Sample.store .empty = .ok m ∧
      (Header.layout m).map (Header.Piece.event? · |>.map (·.position))
        = [some 0, none, some 1, some 1, none, none, some 3, some 3, some 3] ∧
      m.toHeader false = Header.banner m false ++ Header.textOf (Header.positional m) := by
  refine ⟨_, rfl, rfl, ?_⟩
  obtain ⟨-, -, -, hPositional, hComposed⟩ := toHeader_interleaved _ false
  exact hPositional (hComposed Sample.plan Sample.store .empty rfl)

end DeclSurface
