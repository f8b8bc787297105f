import DeclSurface.Proofs.Gate.Places
import DeclSurface.Proofs.Gate.Reading
import Mathlib.Data.List.Basic

/-!
# Why a text is no gate expression

A text is rejected at the first place where it can no longer become an expression. For its
characters that is the first stray one. For its tokens it is the first one up to which they do not
begin any expression; where there is none, the text ends too early.

* `Viable`                  — tokens with which some expression begins.
* `Reader.completable`     — whatever has been read can be completed.
* `viable_iff_feed`         — the tokens that can be read are the viable ones.
* `parse_rejects`           — each kind of error, by the place at which the text goes wrong.
-/

namespace DeclSurface

/-- The byte at which an error points, if it points at one. -/
def GateError.offset? : GateError → Option Nat
  | .empty => none
  | .unexpectedChar _ offset => some offset
  | .unexpectedToken _ offset _ => some offset
  | .unexpectedEnd _ => none

namespace Gate

open Token

/-! ## Beginnings of expressions -/

/-- The tokens are those of an expression. -/
def Derived (ts : List Token) : Prop :=
  ∃ d : Disjunction, d.tokens = ts

/-- Some expression begins with the tokens. -/
def Viable (ts : List Token) : Prop :=
  ∃ us, Derived (ts ++ us)

namespace Reader

variable {r q : Reader} {l : Level} {ls : List Level} {t : Token} {ts : List Token}

/-- Some tokens complete what has been read. -/
def Completable (r : Reader) : Prop :=
  ∃ us q g, r.feed us = .ok q ∧ q.finish = .ok g

theorem Completable.of_feed (hFeed : r.feed ts = .ok q) (h : q.Completable) : r.Completable := by
  obtain ⟨us, q', g, hFeed', hFinish⟩ := h
  exact ⟨ts ++ us, q', g, by rw [feed_append_of_ok hFeed, hFeed'], hFinish⟩

/-- After an operand it takes a parenthesis for each one that is open. -/
theorem completable_of_settled (h : r.settled = ⟨ls, l, .operator⟩) : r.Completable := by
  induction ls generalizing r l with
  | nil =>
    refine ⟨[], r, l.gate, rfl, ?_⟩
    rw [← finish_settled, h]
    rfl
  | cons l' ls ih =>
    have hStep : r.settled.step .rparen = .ok ⟨ls, l'.place l.gate, .operator⟩ := by
      rw [h]
      rfl
    have hFeed : r.feed [.rparen] = .ok ⟨ls, l'.place l.gate, .operator⟩ := by
      rw [feed_cons_of_settled (by simp) hStep, feed]
    exact Completable.of_feed hFeed (ih rfl)

/-- Whatever has been read can be completed. -/
theorem completable (r : Reader) : r.Completable := by
  obtain ⟨ls, l, phase⟩ := r
  -- by the tokens that are due before an operator, or the end, may follow
  cases phase with
  | operand =>
    have hFeed :
        feed ⟨ls, l, .operand⟩ [.word "A"] = .ok ⟨ls, l.place (.flag "A"), .operator⟩ := rfl
    exact Completable.of_feed hFeed (completable_of_settled rfl)
  | defined => exact completable_of_settled rfl
  | definedName =>
    have hFeed : feed ⟨ls, l, .definedName⟩ [.word "A", .rparen]
        = .ok ⟨ls, l.place (.flag "A"), .operator⟩ := rfl
    exact Completable.of_feed hFeed (completable_of_settled rfl)
  | definedClose n =>
    have hFeed : feed ⟨ls, l, .definedClose n⟩ [.rparen]
        = .ok ⟨ls, l.place (.flag n), .operator⟩ := rfl
    exact Completable.of_feed hFeed (completable_of_settled rfl)
  | operator => exact completable_of_settled rfl

end Reader

/-- The tokens that can be read are those with which some expression begins. -/
theorem viable_iff_feed {ts : List Token} : Viable ts ↔ ∃ q, Reader.feed {} ts = .ok q := by
  constructor
  · -- an expression is read to its end, so its beginnings are read too
    rintro ⟨us, d, hTokens⟩
    obtain ⟨q, _, hFeed, -⟩ := Reader.feed_disjunction [] d []
    have hAll : Reader.feed {} (ts ++ us) = .ok q := by
      rw [← hTokens]
      exact hFeed
    rw [Reader.feed_append, bind_eq_ok_iff] at hAll
    obtain ⟨q', hBegin, -⟩ := hAll
    exact ⟨q', hBegin⟩
  · -- what has been read is completed to an expression, which then has a derivation
    rintro ⟨q, hFeed⟩
    obtain ⟨us, q', g, hFeed', hFinish⟩ := q.completable
    have hAll : Reader.feed {} (ts ++ us) = .ok q' := by
      rw [Reader.feed_append_of_ok hFeed, hFeed']
    obtain ⟨d, hTokens, -⟩ :=
      (Reader.holds_feed Reader.holds_nil hAll).exists_disjunction hFinish
    exact ⟨us, d, hTokens⟩

/-- A token goes wrong after viable ones exactly if the reader does not take it. -/
theorem not_viable_concat_iff {q : Reader} {ts : List Token} {t : Token}
    (h : Reader.feed {} ts = .ok q) : ¬ Viable (ts ++ [t]) ↔ ∃ x, q.step t = .error x := by
  rw [viable_iff_feed, Reader.feed_append_of_ok h, Reader.feed]
  cases q.step t with
  | error x => simp [bind, Except.bind]
  | ok q' => simp [Reader.feed, bind, Except.bind]

theorem not_derived_iff {q : Reader} {ts : List Token} (h : Reader.feed {} ts = .ok q) :
    ¬ Derived ts ↔ ∃ x, q.finish = .error x := by
  cases hFinish : q.finish with
  | error x =>
    refine iff_of_true ?_ ⟨x, rfl⟩
    rintro ⟨d, hTokens⟩
    -- a derivation would be read to its end, and by the same reader
    obtain ⟨q', level, hFeed, hSettled, -⟩ := Reader.feed_disjunction [] d []
    rw [hTokens] at hFeed
    obtain rfl := Except.ok.inj (h.symm.trans hFeed)
    rw [← Reader.finish_settled, hSettled] at hFinish
    exact absurd hFinish (by simp [Reader.finish, Reader.finish.complete])
  | ok g =>
    refine iff_of_false ?_ (by simp)
    obtain ⟨d, hTokens, -⟩ := (Reader.holds_feed Reader.holds_nil h).exists_disjunction hFinish
    exact not_not_intro ⟨d, hTokens⟩

/-! ## Where a reader stops -/

namespace Reader

variable {r : Reader} {ps : List Placed} {t : Token} {o : Nat} {x : Expected}

theorem run_eq_unexpectedToken_iff :
    r.run ps = .error (.unexpectedToken t o x) ↔
      ∃ qs rest q, ps = qs ++ ⟨t, o⟩ :: rest ∧ r.feed (qs.map (·.token)) = .ok q ∧
        q.step t = .error x := by
  induction ps generalizing r with
  | nil =>
    rw [run]
    cases r.finish <;> simp
  | cons p ps ih =>
    rw [run]
    cases hStep : r.step p.token with
    | error y =>
      constructor
      · intro h
        obtain ⟨rfl, rfl, rfl⟩ := GateError.unexpectedToken.inj (Except.error.inj h)
        exact ⟨[], ps, r, rfl, rfl, hStep⟩
      · rintro ⟨qs, rest, q, hSplit, hFeed, hError⟩
        cases qs with
        | nil =>
          obtain ⟨rfl, rfl⟩ := List.cons.inj hSplit
          obtain rfl := Except.ok.inj hFeed
          rw [hError] at hStep
          rw [Except.error.inj hStep]
        | cons p' qs =>
          -- the reader does not get past the first token
          obtain ⟨rfl, rfl⟩ := List.cons.inj hSplit
          rw [List.map_cons, feed, hStep] at hFeed
          exact absurd hFeed (by simp [bind, Except.bind])
    | ok r' =>
      dsimp only
      rw [ih]
      constructor
      · rintro ⟨qs, rest, q, rfl, hFeed, hError⟩
        exact ⟨p :: qs, rest, q, rfl, by rw [List.map_cons, feed_cons hStep, hFeed], hError⟩
      · rintro ⟨qs, rest, q, hSplit, hFeed, hError⟩
        cases qs with
        | nil =>
          obtain ⟨rfl, rfl⟩ := List.cons.inj hSplit
          obtain rfl := Except.ok.inj hFeed
          rw [hError] at hStep
          exact absurd hStep (by simp)
        | cons p' qs =>
          obtain ⟨rfl, rfl⟩ := List.cons.inj hSplit
          rw [List.map_cons, feed_cons hStep] at hFeed
          exact ⟨qs, rest, q, rfl, hFeed, hError⟩

theorem run_eq_unexpectedEnd_iff :
    r.run ps = .error (.unexpectedEnd x) ↔
      ∃ q, r.feed (ps.map (·.token)) = .ok q ∧ q.finish = .error x := by
  induction ps generalizing r with
  | nil =>
    rw [run]
    cases hFinish : r.finish <;> simp [feed, hFinish]
  | cons p ps ih =>
    rw [run, List.map_cons, feed]
    cases r.step p.token with
    | error y => simp [bind, Except.bind]
    | ok r' => exact ih

/-- A reader that is given tokens stops at one of them or at their end. -/
theorem cases_of_run_eq_error {e : GateError} (h : r.run ps = .error e) :
    (∃ t o x, e = .unexpectedToken t o x) ∨ ∃ x, e = .unexpectedEnd x := by
  induction ps generalizing r with
  | nil =>
    rw [run] at h
    cases hFinish : r.finish with
    | ok g => simp [hFinish] at h
    | error x =>
      rw [hFinish] at h
      exact Or.inr ⟨x, (Except.error.inj h).symm⟩
  | cons p ps ih =>
    rw [run] at h
    cases hStep : r.step p.token with
    | ok q =>
      rw [hStep] at h
      exact ih h
    | error x =>
      rw [hStep] at h
      exact Or.inl ⟨_, _, x, (Except.error.inj h).symm⟩

end Reader

/-! ## Texts that are rejected -/

section Rejected

variable {s : String} {e : GateError} {c : Char} {t : Token} {o : Nat}

/-- A text is rejected for a character, for having no token, or by the reader of its tokens. -/
theorem parse_eq_error_iff :
    parse s = .error e ↔
      (∃ c o, scan s.toList = .error ⟨c, o⟩ ∧ e = .unexpectedChar c o) ∨
      (scan s.toList = .ok [] ∧ e = .empty) ∨
      ∃ ps, scan s.toList = .ok ps ∧ ps ≠ [] ∧ Reader.run {} ps = .error e := by
  rw [parse, parseChars]
  cases scan s.toList with
  | error stray =>
    obtain ⟨c, o⟩ := stray
    simp [eq_comm]
  | ok ps =>
    cases ps with
    | nil => simp [ofTokens, eq_comm]
    | cons p ps => simp [ofTokens]

theorem parse_eq_empty_iff : parse s = .error .empty ↔ Lexes s.toList [] := by
  have hTokens : Lexes s.toList [] ↔ scan s.toList = .ok [] := by
    simp [lexes_iff_scan]
  rw [hTokens, parse_eq_error_iff]
  constructor
  · rintro (⟨c, o, -, hEq⟩ | ⟨hScan, -⟩ | ⟨ps, -, -, hRun⟩)
    · exact absurd hEq (by simp)
    · exact hScan
    · -- with a token at hand the reader says more than that
      rcases Reader.cases_of_run_eq_error hRun with ⟨t, o, x, hEq⟩ | ⟨x, hEq⟩
      · exact absurd hEq (by simp)
      · exact absurd hEq (by simp)
  · exact fun hScan => Or.inr (Or.inl ⟨hScan, rfl⟩)

theorem parse_eq_unexpectedChar_iff :
    parse s = .error (.unexpectedChar c o) ↔
      ∃ pre, FirstStray [] s.toList pre c ∧ o = bytes pre := by
  rw [← scan_eq_error_iff, parse_eq_error_iff]
  constructor
  · rintro (⟨d, k, hScan, hEq⟩ | ⟨-, hEq⟩ | ⟨ps, -, -, hRun⟩)
    · obtain ⟨rfl, rfl⟩ := GateError.unexpectedChar.inj hEq
      exact hScan
    · exact absurd hEq (by simp)
    · rcases Reader.cases_of_run_eq_error hRun with ⟨t, o, x, hEq⟩ | ⟨x, hEq⟩
      · exact absurd hEq (by simp)
      · exact absurd hEq (by simp)
  · exact fun hScan => Or.inl ⟨c, o, hScan, rfl⟩

theorem parse_eq_unexpectedToken_iff :
    (∃ x, parse s = .error (.unexpectedToken t o x)) ↔
      ∃ ps rest, LexesAt 0 s.toList (ps ++ ⟨t, o⟩ :: rest) ∧ Viable (ps.map (·.token)) ∧
        ¬ Viable (ps.map (·.token) ++ [t]) := by
  simp only [parse_eq_error_iff]
  constructor
  · rintro ⟨x, ⟨_, _, -, hEq⟩ | ⟨-, hEq⟩ | ⟨ps, hScan, -, hRun⟩⟩
    · exact absurd hEq (by simp)
    · exact absurd hEq (by simp)
    · obtain ⟨qs, rest, q, rfl, hFeed, hError⟩ := Reader.run_eq_unexpectedToken_iff.mp hRun
      exact ⟨qs, rest, lexesAt_iff_scanFrom.mpr hScan, viable_iff_feed.mpr ⟨q, hFeed⟩,
        (not_viable_concat_iff hFeed).mpr ⟨x, hError⟩⟩
  · rintro ⟨ps, rest, hAt, hViable, hNot⟩
    obtain ⟨q, hFeed⟩ := viable_iff_feed.mp hViable
    obtain ⟨x, hError⟩ := (not_viable_concat_iff hFeed).mp hNot
    refine ⟨x, Or.inr (Or.inr ⟨_, lexesAt_iff_scanFrom.mp hAt, by simp, ?_⟩)⟩
    exact Reader.run_eq_unexpectedToken_iff.mpr ⟨ps, rest, q, rfl, hFeed, hError⟩

theorem parse_eq_unexpectedEnd_iff :
    (∃ x, parse s = .error (.unexpectedEnd x)) ↔
      ∃ ts, Lexes s.toList ts ∧ ts ≠ [] ∧ Viable ts ∧ ¬ Derived ts := by
  simp only [parse_eq_error_iff]
  constructor
  · rintro ⟨x, ⟨_, _, -, hEq⟩ | ⟨-, hEq⟩ | ⟨ps, hScan, hne, hRun⟩⟩
    · exact absurd hEq (by simp)
    · exact absurd hEq (by simp)
    · obtain ⟨q, hFeed, hError⟩ := Reader.run_eq_unexpectedEnd_iff.mp hRun
      exact ⟨_, lexes_iff_scan.mpr ⟨ps, hScan, rfl⟩, by simpa using hne,
        viable_iff_feed.mpr ⟨q, hFeed⟩, (not_derived_iff hFeed).mpr ⟨x, hError⟩⟩
  · rintro ⟨ts, hLexes, hne, hViable, hNot⟩
    obtain ⟨ps, hScan, rfl⟩ := lexes_iff_scan.mp hLexes
    obtain ⟨q, hFeed⟩ := viable_iff_feed.mp hViable
    obtain ⟨x, hError⟩ := (not_derived_iff hFeed).mp hNot
    refine ⟨x, Or.inr (Or.inr ⟨ps, hScan, by simpa using hne, ?_⟩)⟩
    exact Reader.run_eq_unexpectedEnd_iff.mpr ⟨q, hFeed, hError⟩

theorem utf8ByteSize_ofList (cs : List Char) : (String.ofList cs).utf8ByteSize = bytes cs := by
  induction cs with
  | nil => rfl
  | cons c cs ih =>
    rw [String.ofList_cons, String.utf8ByteSize_append, String.utf8ByteSize_singleton, ih, bytes]

/-- A character of a text starts at a boundary inside it. -/
theorem isValid_bytes {v u : List Char} (h : s.toList = v ++ c :: u) :
    String.Pos.Raw.IsValid s ⟨bytes v⟩ ∧ bytes v < s.utf8ByteSize := by
  have hText : s = String.ofList v ++ String.ofList (c :: u) := by
    rw [← String.ofList_append, ← h, String.ofList_toList]
  constructor
  · refine String.Pos.Raw.isValid_iff_exists_append.mpr ⟨_, _, hText, ?_⟩
    rw [String.Pos.Raw.ext_iff]
    exact (utf8ByteSize_ofList v).symm
  · have hPositive := c.utf8Size_pos
    rw [hText, String.utf8ByteSize_append, utf8ByteSize_ofList, utf8ByteSize_ofList, bytes]
    omega

/-- Wherever an error points, there stands a character of the text. -/
theorem isValid_offset (h : parse s = .error e) (ho : e.offset? = some o) :
    String.Pos.Raw.IsValid s ⟨o⟩ ∧ o < s.utf8ByteSize := by
  cases e with
  | empty => simp [GateError.offset?] at ho
  | unexpectedChar c k =>
    obtain rfl := Option.some.inj ho
    obtain ⟨pre, ⟨⟨u, hStands⟩, -, -⟩, rfl⟩ := parse_eq_unexpectedChar_iff.mp h
    exact isValid_bytes (c := c) (u := u) (by simpa using hStands.symm)
  | unexpectedToken t k x =>
    obtain rfl := Option.some.inj ho
    obtain ⟨ps, rest, hAt, -, -⟩ := parse_eq_unexpectedToken_iff.mp ⟨x, h⟩
    obtain ⟨v, w, u, hSplit, rfl, hSpelling⟩ := hAt.exists_split (t := t) (k := k) (by simp)
    -- a token has a first character
    obtain ⟨c, w, rfl⟩ : ∃ c w', w = c :: w' := by
      cases hSpelling with
      | word hIdent _ =>
        refine List.exists_cons_of_ne_nil ?_
        rintro rfl
        simp [Text.isIdentifier] at hIdent
      | _ => exact ⟨_, _, rfl⟩
    rw [Nat.zero_add]
    exact isValid_bytes (c := c) (u := w ++ u) (by simpa using hSplit)
  | unexpectedEnd x => simp [GateError.offset?] at ho

end Rejected

/--
A text is rejected at the first place where it can no longer become an expression, and the error
says which place that is: a text without tokens has none, a stray character comes before any wrong
token, and a text whose tokens are all right can only end too early.
-/
theorem parse_rejects (s : String) :
    (parse s = .error .empty ↔ Lexes s.toList []) ∧
    ((∃ c o, parse s = .error (.unexpectedChar c o)) ↔
      ∃ pre c, pre ++ [c] <+: s.toList ∧ IsStray pre c) ∧
    (∀ c o, parse s = .error (.unexpectedChar c o) ↔
      ∃ pre, FirstStray [] s.toList pre c ∧ o = bytes pre) ∧
    (∀ t o, (∃ x, parse s = .error (.unexpectedToken t o x)) ↔
      ∃ ps rest, LexesAt 0 s.toList (ps ++ ⟨t, o⟩ :: rest) ∧ Viable (ps.map (·.token)) ∧
        ¬ Viable (ps.map (·.token) ++ [t])) ∧
    ((∃ x, parse s = .error (.unexpectedEnd x)) ↔
      ∃ ts, Lexes s.toList ts ∧ ts ≠ [] ∧ Viable ts ∧ ¬ Derived ts) ∧
    (∀ e o, parse s = .error e → e.offset? = some o →
      String.Pos.Raw.IsValid s ⟨o⟩ ∧ o < s.utf8ByteSize) := by
  have hStray : (∃ c o, parse s = .error (.unexpectedChar c o)) ↔
      ∃ pre c, pre ++ [c] <+: s.toList ∧ IsStray pre c := by
    simp only [parse_eq_unexpectedChar_iff]
    constructor
    · rintro ⟨c, _, pre, hFirst, -⟩
      exact ⟨pre, c, hFirst.stands, hFirst.stray⟩
    · intro hSome
      have hFirst : ∃ pre c, FirstStray [] s.toList pre c := exists_firstStray hSome
      obtain ⟨pre, c, hFirst⟩ := hFirst
      exact ⟨c, _, pre, hFirst, rfl⟩
  exact ⟨parse_eq_empty_iff, hStray, fun _ _ => parse_eq_unexpectedChar_iff,
    fun _ _ => parse_eq_unexpectedToken_iff, parse_eq_unexpectedEnd_iff,
    fun _ _ h ho => isValid_offset h ho⟩

/-- Blanks and characters of more than one byte count, and the parenthesis closes nothing. -/
example : parse "A\u00a0| )" = .error (.unexpectedToken .rparen 5 .operand) := rfl

end Gate

end DeclSurface
