import DeclSurface.Proofs.Rewrite.Pairing
import DeclSurface.Proofs.Rewrite.Tracking

/-!
# Rewrites that give back

A rewrite gives back the value that it found. Inside another rewrite of the macro that is the value
of the other one, which is its own value too. A rewrite with no other around it found what the
engine started from, if no rewrite of the macro leaves it undefined.

Which rewrites have another around them can be read off the log, because a log is paired in one way
only. While rewrites are active, those count as well: they will have their ends behind all that the
log holds so far.

* `WellBracketed.unique` — the pairs of a log are determined by it.
* `ConcernsAt`, `Covered` — a place of a log is about a macro, and another rewrite of it is around.
* `RewriteEvent.Closes`  — what the end of a rewrite does to its macro.
* `Engine.Returning`     — the invariant; `returning_begin`, `returning_endLast` keep it.
* `Engine.GivesBack`     — the same without the places of the active rewrites.
-/

namespace DeclSurface

/-! ## One pairing -/

variable {log : List RewriteEvent} {pair pair' : Nat → Nat → Prop} {n : String} {i j k : Nat}

/-- A pair of one pairing is a pair of every other, by induction on the place of its end. -/
theorem WellBracketed.pair_of_pair (h : WellBracketed log pair) (h' : WellBracketed log pair')
    (hPair : pair i j) : pair' i j := by
  induction j using Nat.strongRecOn generalizing i with
  | ind j ih =>
    obtain ⟨hLt, a, r, ha, hr, hApply, hRestore, -⟩ := h.partners i j hPair
    obtain ⟨i', hPair', -⟩ := h'.restored j r hr hRestore
    obtain ⟨hLt', a', -, ha', -, hApply', -⟩ := h'.partners i' j hPair'
    rcases Nat.lt_trichotomy i i' with hBefore | rfl | hBehind
    · -- the pair of `i'` lies inside the pair of `i`, so it is known to both
      obtain ⟨j', hInner, -⟩ := h.applied i' a' ha' hApply'
      have hj' : j' < j := h.nested i j i' j' hPair hInner hBefore hLt'
      have hSame : j' = j := (h'.applied i' a' ha' hApply').unique (ih j' hj' hInner) hPair'
      omega
    · exact hPair'
    · -- the same with the pairings exchanged
      obtain ⟨j', hInner, -⟩ := h'.applied i a ha hApply
      have hj' : j' < j := h'.nested i' j i j' hPair' hInner hBehind hLt
      obtain ⟨-, -, r', -, hr', -, hRestore', -⟩ := h'.partners i j' hInner
      obtain ⟨i₀, hOld, -⟩ := h.restored j' r' hr' hRestore'
      obtain rfl : i₀ = i := (h'.restored j' r' hr' hRestore').unique (ih j' hj' hOld) hInner
      have hSame : j' = j := (h.applied i₀ a ha hApply).unique hOld hPair
      omega

/-- The pairs of a log are determined by it. -/
theorem WellBracketed.unique (h : WellBracketed log pair) (h' : WellBracketed log pair') :
    pair = pair' := by
  funext i j
  exact propext ⟨h.pair_of_pair h', h'.pair_of_pair h⟩

/-! ## Places of a log -/

/-- The event at a place of a log is about a macro. -/
def ConcernsAt (log : List RewriteEvent) (n : String) (i : Nat) : Prop :=
  ∃ ev, log[i]? = some ev ∧ macroName ev.symbol = n

/-- A pair of a macro stands around a place: the macro is rewritten there already. -/
def Covered (log : List RewriteEvent) (pair : Nat → Nat → Prop) (n : String) (i : Nat) : Prop :=
  ∃ i' j', pair i' j' ∧ i' < i ∧ i < j' ∧ ConcernsAt log n i'

theorem concernsAt_iff {ev : RewriteEvent} (h : log[i]? = some ev) :
    ConcernsAt log n i ↔ macroName ev.symbol = n := by
  unfold ConcernsAt
  rw [h]
  simp

theorem concernsAt_append_iff {events : List RewriteEvent} (h : i < log.length) :
    ConcernsAt (log ++ events) n i ↔ ConcernsAt log n i := by
  unfold ConcernsAt
  rw [List.getElem?_append_left h]

theorem covered_append_iff {events : List RewriteEvent} (h : i < log.length) :
    Covered (log ++ events) pair n i ↔ Covered log pair n i := by
  refine exists₂_congr fun i' j' => and_congr_right fun _ => and_congr_right fun hBefore => ?_
  rw [concernsAt_append_iff (Nat.lt_trans hBefore h)]

/-- A pair with its end behind the log covers what stands behind its beginning. -/
theorem covered_or_iff (h : i < log.length) :
    Covered log (fun i j => pair i j ∨ (i = k ∧ j = log.length)) n i ↔
      Covered log pair n i ∨ (k < i ∧ ConcernsAt log n k) := by
  constructor
  · rintro ⟨i', j', hPair | ⟨rfl, rfl⟩, hBefore, hInside, hConcerns⟩
    · exact Or.inl ⟨i', j', hPair, hBefore, hInside, hConcerns⟩
    · exact Or.inr ⟨hBefore, hConcerns⟩
  · rintro (⟨i', j', hPair, hAround⟩ | ⟨hBefore, hConcerns⟩)
    · exact ⟨i', j', Or.inl hPair, hAround⟩
    · exact ⟨k, log.length, Or.inr ⟨rfl, rfl⟩, hBefore, h, hConcerns⟩

/-- A beginning with only one event behind it is the partner of that, with no pair around them. -/
theorem WellBracketed.pair_of_last {a : RewriteEvent} (h : WellBracketed log pair)
    (hLength : log.length = i + 2) (ha : log[i]? = some a) (hApply : a.action = .apply) :
    pair i (i + 1) ∧ ¬ Covered log pair n i := by
  have hIn (i' j' : Nat) (hPair : pair i' j') : i' < j' ∧ j' < i + 2 :=
    ⟨(h.partners i' j' hPair).1, hLength ▸ (h.partners i' j' hPair).lt_length.2⟩
  obtain ⟨j, hPair, -⟩ := h.applied i a ha hApply
  obtain rfl : j = i + 1 := by
    have hj := hIn i j hPair
    omega
  refine ⟨hPair, ?_⟩
  rintro ⟨i', j', hPair', hBefore, hInside, -⟩
  obtain rfl : j' = i + 1 := by
    have hj' := hIn i' j' hPair'
    omega
  obtain ⟨-, -, r, -, hr, -, hRestore, -⟩ := h.partners i (i + 1) hPair
  have hSame : i' = i := (h.restored (i + 1) r hr hRestore).unique hPair' hPair
  omega

/-! ## Ends of rewrites -/

/-- An event about a macro leaves it with a value, if any, under its own name. -/
structure RewriteEvent.Returns (r : RewriteEvent) (n : String) (value : Option String) : Prop where
  value : r.value = value
  name : macroName r.symbol = n
  /-- A value that is given back is given to the plain name. -/
  plain : r.value ≠ none → r.symbol = n

/--
The event `r` ends a rewrite of the macro `n` that began with `a`. Inside another rewrite of the
macro nothing changes; else the macro is given back, if that is known to be possible.
-/
structure RewriteEvent.Closes (base : NameMap String) (given : String → Prop) (covered : Prop)
    (n : String) (a r : RewriteEvent) : Prop where
  inside : covered → r.symbol = a.symbol ∧ r.value = a.value
  outermost : given n → ¬ covered → r.Returns n (base.get? n)

namespace Engine

variable {base : NameMap String} {given : String → Prop} {e e' : Engine} {rule : RewriteRule}
  {fragment : String} {a : ActiveRewrite} {outer : List ActiveRewrite} {opens : List Nat}

/-- The innermost rewrite of a macro with no other around it found what is below all rewrites. -/
theorem underlying_of_uncovered (hActive : e.active = a :: outer)
    (hOuter : ∀ b ∈ outer, b.name ≠ a.name) : e.underlying a.name = a.previous := by
  have hNone : outer.reverse.find? (·.name == a.name) = none := by
    rw [List.find?_eq_none]
    intro b hb
    rw [beq_iff_eq]
    exact hOuter b (List.mem_reverse.mp hb)
  unfold underlying
  rw [outermost?_of_active_cons hActive, hNone, Option.none_or, if_pos rfl]

theorem returns_endEvent {position : Nat} (hRestore : a.restore ≠ .undefine)
    (hOuter : ∀ b ∈ outer, b.name ≠ a.name) :
    (endEvent a outer position).Returns a.name a.previous := by
  have hUncovered : outer.any (fun b => b.name == a.name) = false := by
    simpa using hOuter
  refine ⟨value_endEvent_of_reinstate hRestore, macroName_endEvent, ?_⟩
  intro hSome
  rw [value_endEvent_of_reinstate hRestore] at hSome
  have hIsSome : a.previous.isSome = true := Option.isSome_iff_ne_none.mpr hSome
  simp [endEvent, hRestore, hUncovered, hIsSome]

/-- The end of the innermost active rewrite. -/
theorem closes_endEvent {begun : RewriteEvent} (hActive : e.active = a :: outer)
    (h : e.Tracks base given) (hSymbol : begun.symbol = a.symbol)
    (hValue : begun.value = some a.value) (position : Nat) :
    begun.Closes base given (∃ b ∈ outer, b.name = a.name) a.name
      (endEvent a outer position) := by
  refine { inside := ?inside, outermost := ?outermost }
  case inside =>
    rintro ⟨b, hb, hName⟩
    have hIn : b ∈ e.active := hActive ▸ List.mem_cons_of_mem _ hb
    -- the event is written as the outer rewrite is, and that is as this one is
    have hAgree := h.sound.agree hIn (hActive ▸ List.mem_cons_self) hName
    rw [endEvent_of_covered h.sound (show e.active = [] ++ a :: outer from hActive) hb hName]
    exact ⟨hAgree.1.trans hSymbol.symm, (congrArg some hAgree.2).trans hValue.symm⟩
  case outermost =>
    intro hn hNone
    have hOuter : ∀ b ∈ outer, b.name ≠ a.name := fun b hb hName => hNone ⟨b, hb, hName⟩
    have hFound : a.previous = base.get? a.name := by
      rw [← underlying_of_uncovered hActive hOuter]
      exact h.settled a.name hn
    rw [← hFound]
    exact returns_endEvent (h.restoring a (hActive ▸ List.mem_cons_self) hn) hOuter

/-- The macros of the active rewrites are those that the open beginnings are about. -/
theorem BegunAt.exists_concernsAt_iff {active : List ActiveRewrite} (h : BegunAt log active opens) :
    (∃ k ∈ opens, ConcernsAt log n k) ↔ ∃ b ∈ active, b.name = n := by
  induction h with
  | nil => simp
  | cons hHead _ ih =>
    obtain ⟨ev, hev, -, hName, -⟩ := hHead
    rw [List.exists_mem_cons_iff, List.exists_mem_cons_iff, concernsAt_iff hev, hName, ih]

/-! ## The invariant -/

/-- Another rewrite of a macro is around a place: a pair, or a beginning that is still open. -/
def CoveredSoFar (e : Engine) (opens : List Nat) (pair : Nat → Nat → Prop) (n : String)
    (i : Nat) : Prop :=
  Covered e.log pair n i ∨ ∃ k ∈ opens, k < i ∧ ConcernsAt e.log n k

/-- The log is paired, and every end of a rewrite has done what it has to do. -/
structure Returning (base : NameMap String) (given : String → Prop) (e : Engine)
    (opens : List Nat) (pair : Nat → Nat → Prop) : Prop where
  tracks : e.Tracks base given
  pairing : e.Pairing opens pair
  /-- An open beginning has the symbol and the value of its rewrite. -/
  written : ∀ p ∈ e.active.zip opens, ∃ ev, e.log[p.2]? = some ev ∧ ev.symbol = p.1.symbol ∧
    ev.value = some p.1.value
  closed : ∀ n i j, pair i j → ConcernsAt e.log n i → ∃ a r, e.log[i]? = some a ∧
    e.log[j]? = some r ∧ a.Closes base given (e.CoveredSoFar opens pair n i) n r

theorem returning_ofBaseline (base : NameMap String) (given : String → Prop) :
    Returning base given (.ofBaseline base) [] fun _ _ => False where
  tracks := tracks_ofBaseline base given
  pairing := pairing_ofBaseline base
  written _ h := absurd h List.not_mem_nil
  closed _ _ _ h := h.elim

theorem Returning.setPosition (h : e.Returning base given opens pair) (position : Nat) :
    (e.setPosition position).Returning base given opens pair :=
  ⟨h.tracks.setPosition position, h.pairing.setPosition position, h.written, h.closed⟩

theorem getElem?_append_of_some {events : List RewriteEvent} {ev : RewriteEvent}
    (h : log[i]? = some ev) : (log ++ events)[i]? = some ev := by
  rw [List.getElem?_append_left (List.getElem?_eq_some_iff.mp h).1, h]

/-- A beginning that is added covers no place before it. -/
theorem coveredSoFar_begin (h : i < e.log.length) :
    (e.begin rule fragment).CoveredSoFar (e.log.length :: opens) pair n i ↔
      e.CoveredSoFar opens pair n i := by
  refine or_congr (covered_append_iff h) ?_
  rw [List.exists_mem_cons_iff]
  have hNew : ¬ (e.log.length < i ∧ ConcernsAt (e.begin rule fragment).log n e.log.length) :=
    fun hLater => Nat.lt_asymm h hLater.1
  rw [or_iff_right hNew]
  refine exists_congr fun k => and_congr_right fun _ => and_congr_right fun hBefore => ?_
  exact concernsAt_append_iff (Nat.lt_trans hBefore h)

/-- What has just ended covers the places that it covered before its end. -/
theorem coveredSoFar_endLast (hActive : e.active = a :: outer) (h : i < e.log.length) :
    e.endLast.CoveredSoFar opens (fun i j => pair i j ∨ (i = k ∧ j = e.log.length)) n i ↔
      e.CoveredSoFar (k :: opens) pair n i := by
  unfold CoveredSoFar
  rw [log_endLast hActive, covered_append_iff h, covered_or_iff h, List.exists_mem_cons_iff,
    or_assoc]
  refine or_congr_right (or_congr_right ?_)
  refine exists_congr fun k => and_congr_right fun _ => and_congr_right fun hBefore => ?_
  exact concernsAt_append_iff (Nat.lt_trans hBefore h)

/-- Around the innermost open beginning there are only the outer active rewrites. -/
theorem coveredSoFar_innermost_iff (hActive : e.active = a :: outer)
    (h : e.Pairing (k :: opens) pair) :
    e.CoveredSoFar (k :: opens) pair n k ↔ ∃ b ∈ outer, b.name = n := by
  have hBegun := h.begun
  rw [hActive] at hBegun
  obtain ⟨-, hOuter⟩ := List.forall₂_cons.mp hBegun
  obtain ⟨hInner, -⟩ := List.pairwise_cons.mp h.inner
  -- no pair has an open beginning inside it
  have hNoPair : ¬ Covered e.log pair n k := by
    intro hCovered
    obtain ⟨i', j', hPair, hBefore, hInside, -⟩ := hCovered
    have hApart := h.apart i' j' hPair k List.mem_cons_self hBefore
    omega
  rw [CoveredSoFar, or_iff_right hNoPair, ← BegunAt.exists_concernsAt_iff hOuter]
  constructor
  · intro hOpen
    obtain ⟨k', hk', hBefore, hConcerns⟩ := hOpen
    rcases List.mem_cons.mp hk' with rfl | hk'
    · exact absurd hBefore (Nat.lt_irrefl _)
    · exact ⟨k', hk', hConcerns⟩
  · intro hOpen
    obtain ⟨k', hk', hConcerns⟩ := hOpen
    exact ⟨k', List.mem_cons_of_mem _ hk', hInner k' hk', hConcerns⟩

theorem returning_begin (h : e.Returning base given opens pair)
    (hTracks : (e.begin rule fragment).Tracks base given) :
    (e.begin rule fragment).Returning base given (e.log.length :: opens) pair := by
  refine
    { tracks := hTracks, pairing := pairing_begin h.pairing, written := ?written
      closed := ?closed }
  case written =>
    intro p hp
    rw [active_begin, List.zip_cons_cons] at hp
    rcases List.mem_cons.mp hp with rfl | hp
    · exact ⟨_, List.getElem?_concat_length, rfl, rfl⟩
    · obtain ⟨ev, hev, hWritten⟩ := h.written p hp
      exact ⟨ev, getElem?_append_of_some hev, hWritten⟩
  case closed =>
    intro n i j hPair hConcerns
    have hi := (h.pairing.partners i j hPair).lt_length.1
    obtain ⟨b, r, hb, hr, hCloses⟩ := h.closed n i j hPair ((concernsAt_append_iff hi).mp hConcerns)
    -- what begins now is behind all pairs, so it covers none of them
    rw [coveredSoFar_begin hi]
    exact ⟨b, r, getElem?_append_of_some hb, getElem?_append_of_some hr, hCloses⟩

theorem returning_endLast (hActive : e.active = a :: outer)
    (h : e.Returning base given (k :: opens) pair) :
    e.endLast.Returning base given opens fun i j => pair i j ∨ (i = k ∧ j = e.log.length) := by
  have hLog := log_endLast hActive
  have hWritten := h.written
  rw [hActive, List.zip_cons_cons, List.forall_mem_cons] at hWritten
  obtain ⟨⟨begun, hBegun, hSymbol, hValue⟩, hOuter⟩ := hWritten
  refine
    { tracks := tracks_endLast h.tracks, pairing := pairing_endLast hActive h.pairing
      written := ?written, closed := ?closed }
  case written =>
    intro p hp
    rw [active_endLast, hActive, List.tail_cons] at hp
    obtain ⟨ev, hev, hFields⟩ := hOuter p hp
    rw [hLog]
    exact ⟨ev, getElem?_append_of_some hev, hFields⟩
  case closed =>
    rintro n i j (hPair | ⟨rfl, rfl⟩) hConcerns
    · have hi := (h.pairing.partners i j hPair).lt_length.1
      rw [hLog, concernsAt_append_iff hi] at hConcerns
      obtain ⟨b, r, hb, hr, hCloses⟩ := h.closed n i j hPair hConcerns
      -- what was open around the pair has become a pair around it, or is still open
      rw [coveredSoFar_endLast hActive hi, hLog]
      exact ⟨b, r, getElem?_append_of_some hb, getElem?_append_of_some hr, hCloses⟩
    · -- the rewrite that ends now
      have hi : i < e.log.length := h.pairing.begun.lt_length List.mem_cons_self
      rw [hLog, concernsAt_append_iff hi, concernsAt_iff hBegun, hSymbol] at hConcerns
      obtain rfl : a.name = n := hConcerns
      rw [coveredSoFar_endLast hActive hi, coveredSoFar_innermost_iff hActive h.pairing, hLog]
      exact ⟨begun, endEvent a outer e.position, getElem?_append_of_some hBegun,
        List.getElem?_concat_length, closes_endEvent hActive h.tracks hSymbol hValue e.position⟩

/-! ## Scopes -/

/-- In an engine that began without active rewrites, what can be given back is given back. -/
def GivesBack (base : NameMap String) (given : String → Prop) (e : Engine) : Prop :=
  ∃ opens pair, e.Returning base given opens pair

theorem givesBack_ofBaseline (base : NameMap String) (given : String → Prop) :
    GivesBack base given (.ofBaseline base) :=
  ⟨_, _, returning_ofBaseline base given⟩

theorem GivesBack.setPosition (h : e.GivesBack base given) (position : Nat) :
    (e.setPosition position).GivesBack base given := by
  obtain ⟨opens, pair, hReturning⟩ := h
  exact ⟨opens, pair, hReturning.setPosition position⟩

theorem givesBack_apply (h : e.GivesBack base given)
    (hGiven : given (macroName rule.symbol) → rule.restore ≠ .undefine)
    (hApply : e.apply rule fragment = .ok e') : e'.GivesBack base given := by
  obtain ⟨opens, pair, hReturning⟩ := h
  have hTracks := tracks_apply hReturning.tracks hGiven hApply
  obtain ⟨-, rfl⟩ := apply_eq_ok_iff.mp hApply
  exact ⟨_, _, returning_begin hReturning hTracks⟩

theorem givesBack_applyAll {rules : List RewriteRule} (h : e.GivesBack base given)
    (hGiven : ∀ r ∈ rules, given (macroName r.symbol) → r.restore ≠ .undefine)
    (hApply : e.applyAll fragment rules = .ok e') : e'.GivesBack base given :=
  applyAll_invariant (fun r hr _ _ hGives => givesBack_apply hGives (hGiven r hr)) h hApply

theorem givesBack_endLast (h : e.GivesBack base given) : e.endLast.GivesBack base given := by
  obtain ⟨opens, pair, hReturning⟩ := h
  cases hActive : e.active with
  | nil =>
    rw [endLast_of_nil hActive]
    exact ⟨opens, pair, hReturning⟩
  | cons a outer =>
    have hBegun := hReturning.pairing.begun
    rw [hActive] at hBegun
    obtain ⟨k, rest, -, -, rfl⟩ := List.forall₂_cons_left_iff.mp hBegun
    exact ⟨_, _, returning_endLast hActive hReturning⟩

theorem givesBack_endMany {count : Nat} (h : e.GivesBack base given) :
    (endMany count e).GivesBack base given :=
  endMany_invariant (fun _ => givesBack_endLast) h

/-- With no rewrite active any more, only pairs are around a place. -/
theorem GivesBack.closed (h : e.GivesBack base given) (hActive : e.active = [])
    (hLog : WellBracketed e.log pair) (hPair : pair i j) (hConcerns : ConcernsAt e.log n i) :
    ∃ a r, e.log[i]? = some a ∧ e.log[j]? = some r ∧
      a.Closes base given (Covered e.log pair n i) n r := by
  obtain ⟨opens, pair', hReturning⟩ := h
  have hBegun := hReturning.pairing.begun
  rw [hActive] at hBegun
  obtain rfl := List.forall₂_nil_left_iff.mp hBegun
  have hLog' : WellBracketed e.log pair' := hReturning.pairing.wellBracketed
  obtain rfl := hLog.unique hLog'
  have hClosed := hReturning.closed n i j hPair hConcerns
  have hNoneOpen : ¬ ∃ k ∈ [], k < i ∧ ConcernsAt e.log n k := by
    simp
  rwa [CoveredSoFar, or_iff_left hNoneOpen] at hClosed

end Engine

end DeclSurface
