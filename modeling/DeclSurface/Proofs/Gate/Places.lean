import DeclSurface.Proofs.Gate.Lexing

/-!
# Places in a text

Errors point at places, so the reading of a text is needed with the byte at which every token
starts, and for a text without a reading the first character that is to blame. Both are said here
from the spellings of tokens alone, and the scanner is shown to find just these.

* `LexesAt`            — the longest-match reading with places; `lexesAt_iff_scanFrom`.
* `IsStray`            — a character that neither begins a token nor goes on with one.
* `Pending.After`      — the invariant of a scanner: what is pending after some characters.
* `FirstStray`         — the first stray character; `scan_eq_error_iff`.
-/

namespace DeclSurface.Gate

open Text Token

variable {o : Nat} {c : Char} {cs pre w : List Char} {p next : Pending} {ps done : List Placed}

/-! ## Readings with places -/

/-- The longest-match reading of a text that starts at byte `o`. -/
inductive LexesAt : Nat → List Char → List Placed → Prop where
  | done {o : Nat} : LexesAt o [] []
  | blank {o : Nat} {c : Char} {cs : List Char} {ps : List Placed} (hBlank : isBlank c = true)
      (hRest : LexesAt (o + c.utf8Size) cs ps) : LexesAt o (c :: cs) ps
  | token {o : Nat} {w cs : List Char} {t : Token} {ps : List Placed} (hSpelling : Spelling w t)
      (hLongest : Longest w cs) (hRest : LexesAt (o + bytes w) cs ps) :
      LexesAt o (w ++ cs) (⟨t, o⟩ :: ps)

/-- Places are added to a reading without any change to it, wherever the text starts. -/
theorem lexes_iff_exists_lexesAt {ts : List Token} (o : Nat) :
    Lexes cs ts ↔ ∃ ps, LexesAt o cs ps ∧ ps.map (·.token) = ts := by
  constructor
  · intro h
    induction h generalizing o with
    | done => exact ⟨[], .done, rfl⟩
    | blank hBlank _ ih =>
      obtain ⟨ps, hAt, hTokens⟩ := ih _
      exact ⟨ps, .blank hBlank hAt, hTokens⟩
    | token hSpelling hLongest _ ih =>
      obtain ⟨ps, hAt, rfl⟩ := ih _
      exact ⟨_, .token hSpelling hLongest hAt, rfl⟩
  · rintro ⟨ps, h, rfl⟩
    induction h with
    | done => exact .done
    | blank hBlank _ ih => exact .blank hBlank ih
    | token hSpelling hLongest _ ih => exact .token hSpelling hLongest ih

/-- The scanner gives the tokens of the reading with their places. -/
theorem lexesAt_iff_scanFrom : LexesAt o cs ps ↔ scanFrom .none o cs = .ok ps := by
  have hScan : ∀ {qs : List Placed}, LexesAt o cs qs → scanFrom .none o cs = .ok qs := by
    intro qs h
    induction h with
    | done => rfl
    | @blank o c cs qs hBlank _ ih =>
      have hAdvance : advance .none c o = .ok ([], .none) := by
        rw [advance, start, if_pos hBlank]
      rw [scanFrom_of_advance hAdvance, ih]
      rfl
    | token hSpelling hLongest _ ih =>
      rw [scanFrom_append hSpelling hLongest, ih]
      rfl
  constructor
  · exact hScan
  · intro h
    -- the text has some reading with places, and that one is scanned too
    have hLexes := lexes_of_scanFrom (p := .none) trivial h
    obtain ⟨qs, hAt, -⟩ := (lexes_iff_exists_lexesAt o).mp hLexes
    have hSame := hScan hAt
    rw [h] at hSame
    rw [Except.ok.inj hSame]
    exact hAt

theorem bytes_append (v w : List Char) : bytes (v ++ w) = bytes v + bytes w := by
  induction v with
  | nil => exact (Nat.zero_add _).symm
  | cons c v ih => rw [List.cons_append, bytes, bytes, ih, Nat.add_assoc]

/-- A token of a reading stands where its place says. -/
theorem LexesAt.exists_split (h : LexesAt o cs ps) {t : Token} {k : Nat} (ht : ⟨t, k⟩ ∈ ps) :
    ∃ v w u, cs = v ++ w ++ u ∧ k = o + bytes v ∧ Spelling w t := by
  induction h with
  | done => simp at ht
  | @blank o c cs ps _ _ ih =>
    obtain ⟨v, w, u, rfl, rfl, hSpelling⟩ := ih ht
    exact ⟨c :: v, w, u, rfl, by rw [bytes, Nat.add_assoc], hSpelling⟩
  | @token o w cs t' ps hSpelling _ _ ih =>
    rcases List.mem_cons.mp ht with hHead | hTail
    · obtain ⟨rfl, rfl⟩ := Placed.mk.inj hHead
      exact ⟨[], w, cs, rfl, rfl, hSpelling⟩
    · obtain ⟨v, w', u, rfl, rfl, hSpelling'⟩ := ih hTail
      exact ⟨w ++ v, w', u, by simp, by rw [bytes_append, Nat.add_assoc], hSpelling'⟩

/-! ## Stray characters -/

/-- After the characters `before`, the character begins no token and goes on with none. -/
structure IsStray (before : List Char) (c : Char) : Prop where
  notBlank : isBlank c = false
  begins : ¬ ∃ w t, Spelling (c :: w) t
  continues : ¬ ∃ w t, w <:+ before ∧ w ≠ [] ∧ Spelling (w ++ [c]) t

/-- In the text `cs` behind `before`, the character that follows `pre` is the first stray one. -/
structure FirstStray (before cs pre : List Char) (c : Char) : Prop where
  stands : pre ++ [c] <+: cs
  stray : IsStray (before ++ pre) c
  first : ∀ v d, v ++ [d] <+: pre → ¬ IsStray (before ++ v) d

theorem exists_spelling_cons_iff :
    (∃ w t, Spelling (c :: w) t) ↔ c ∈ ['!', '&', '|', '(', ')'] ∨ isIdentStart c = true := by
  constructor
  · rintro ⟨w, t, h⟩
    rcases spelling_cases h with ⟨hIdent, -⟩ | hSymbol
    · exact Or.inr (isIdentStart_of_isIdentifier hIdent)
    · left
      simp only [symbols, List.mem_cons, Prod.mk.injEq, List.cons.injEq, List.not_mem_nil,
        or_false] at hSymbol
      simp only [List.mem_cons, List.not_mem_nil, or_false]
      tauto
  · rintro (hSymbol | hStart)
    · simp only [List.mem_cons, List.not_mem_nil, or_false] at hSymbol
      rcases hSymbol with rfl | rfl | rfl | rfl | rfl
      · exact ⟨[], _, .notSymbol⟩
      · exact ⟨[], _, .andSymbol⟩
      · exact ⟨[], _, .orSymbol⟩
      · exact ⟨[], _, .lparen⟩
      · exact ⟨[], _, .rparen⟩
    · have hIdent : isIdentifier [c] = true := by
        rw [isIdentifier, hStart]
        rfl
      exact ⟨[], _, spelling_ofWord hIdent⟩

/-- A character stops a scanner that has nothing pending exactly if it begins no token. -/
theorem start_eq_error_iff {e : Stray} :
    start c o = .error e ↔
      e = ⟨c, o⟩ ∧ isBlank c = false ∧ ¬ ∃ w t, Spelling (c :: w) t := by
  rw [exists_spelling_cons_iff, start]
  split_ifs <;> simp_all
  exact eq_comm

theorem isIdentPart_of_mem (h : isIdentifier w = true) (hc : c ∈ w) : isIdentPart c = true := by
  cases w with
  | nil => simp at hc
  | cons d w =>
    rw [isIdentifier, Bool.and_eq_true, List.all_eq_true] at h
    rcases List.mem_cons.mp hc with rfl | hc
    · exact isIdentPart_of_isIdentStart h.1
    · exact h.2 c hc

theorem isBlank_of_isIdentPart (h : isIdentPart c = true) : isBlank c = false := by
  cases hStart : isIdentStart c with
  | true => exact isBlank_of_isIdentStart hStart
  | false =>
    -- what goes on with an identifier and starts none is a digit
    have hDigit : c.isDigit = true := by
      simp only [isIdentPart, Char.isAlphanum, isIdentStart, Bool.or_eq_true,
        Bool.or_eq_false_iff] at h hStart
      simp_all
    have hRange : 48 ≤ c.toNat ∧ c.toNat ≤ 57 := by
      simpa [Char.isDigit, UInt32.le_iff_toNat_le] using hDigit
    simp only [isBlank, blankRanges, List.any_cons, List.any_nil, Bool.or_false,
      Bool.or_eq_false_iff, Bool.and_eq_false_iff, decide_eq_false_iff_not]
    omega

/-- A character read on its own is pending or not, and is when it goes on with an identifier. -/
theorem pending_of_start (h : start c o = .ok (done, next)) :
    next.chars <:+ [c] ∧ (isIdentPart c = true → next = .ident o [c]) := by
  unfold start at h
  split_ifs at h with hBlank h1 h2 h3 h4 h5 hStart
  all_goals obtain ⟨rfl, rfl⟩ := Prod.mk.inj (Except.ok.inj h)
  · refine ⟨List.nil_suffix, fun hPart => ?_⟩
    rw [isBlank_of_isIdentPart hPart] at hBlank
    exact absurd hBlank Bool.false_ne_true
  · subst h1
    exact ⟨List.nil_suffix, fun hPart => absurd hPart (by decide)⟩
  · subst h2
    exact ⟨List.nil_suffix, fun hPart => absurd hPart (by decide)⟩
  · subst h3
    exact ⟨List.nil_suffix, fun hPart => absurd hPart (by decide)⟩
  · subst h4
    exact ⟨List.suffix_refl _, fun hPart => absurd hPart (by decide)⟩
  · subst h5
    exact ⟨List.suffix_refl _, fun hPart => absurd hPart (by decide)⟩
  · exact ⟨List.suffix_refl _, fun _ => rfl⟩

/-- A pending identifier takes in what goes on with it; otherwise the character is on its own. -/
theorem advance_eq_error_iff {e : Stray} (hp : p.Valid) :
    advance p c o = .error e ↔
      start c o = .error e ∧ ¬ (isIdentPart c = true ∧ ∃ k read, p = .ident k read) := by
  cases p with
  | none => simp [advance]
  | symbol d =>
    by_cases hSame : c = d
    · subst hSame
      rw [start_operator hp]
      simp [advance]
    · simp [advance, hSame]
  | ident k read =>
    by_cases hPart : isIdentPart c = true
    · simp [advance, hPart]
    · rw [advance, if_neg hPart]
      cases start c o <;> simp [hPart]

/-- What is pending after the characters `before`: the identifier in which they end, if any. -/
structure Token.Pending.After (p : Pending) (before : List Char) : Prop where
  valid : p.Valid
  suffix : p.chars <:+ before
  word : ∀ d ∈ before.getLast?, isIdentPart d = true → ∃ k read, p = .ident k read

section After

variable {before : List Char}

/-- What begins no token goes on with one exactly if that one is a pending identifier. -/
theorem Token.Pending.After.continues_iff (h : p.After before)
    (hNone : ¬ ∃ w t, Spelling (c :: w) t) :
    (∃ w t, w <:+ before ∧ w ≠ [] ∧ Spelling (w ++ [c]) t) ↔
      isIdentPart c = true ∧ ∃ k read, p = .ident k read := by
  constructor
  · rintro ⟨w, t, hSuffix, hne, hSpelling⟩
    rcases spelling_cases hSpelling with ⟨hIdent, -⟩ | hSymbol
    · -- the identifier has the character in it and the last one before
      obtain ⟨v, d, rfl⟩ := (List.eq_nil_or_concat' w).resolve_left hne
      have hBefore : isIdentPart d = true := isIdentPart_of_mem hIdent (by simp)
      refine ⟨isIdentPart_of_mem hIdent (by simp), h.word d ?_ hBefore⟩
      obtain ⟨u, rfl⟩ := hSuffix
      simp
    · -- every character of a symbol begins one
      have hAll : ∀ s ∈ symbols, ∀ d ∈ s.1, d ∈ ['!', '&', '|', '(', ')'] := by simp [symbols]
      have hBegins := hAll _ hSymbol c (by simp)
      exact absurd (exists_spelling_cons_iff.mpr (Or.inl hBegins)) hNone
  · rintro ⟨hPart, k, read, rfl⟩
    have hIdent : isIdentifier read = true := h.valid
    refine ⟨read, _, h.suffix, ?_, spelling_ofWord (isIdentifier_append hIdent ?_)⟩
    · rintro rfl
      simp [isIdentifier] at hIdent
    · rw [List.all_cons, hPart]
      rfl

/-- A character that stops the scanner is stray, and every stray character stops it. -/
theorem Token.Pending.After.advance_eq_error_iff {e : Stray}
    (h : p.After before) : advance p c o = .error e ↔ e = ⟨c, o⟩ ∧ IsStray before c := by
  rw [Gate.advance_eq_error_iff h.valid, start_eq_error_iff]
  constructor
  · rintro ⟨⟨rfl, hBlank, hNone⟩, hAlone⟩
    exact ⟨rfl, hBlank, hNone, fun hGoes => hAlone ((h.continues_iff hNone).mp hGoes)⟩
  · rintro ⟨rfl, hBlank, hNone, hAlone⟩
    exact ⟨⟨rfl, hBlank, hNone⟩, fun hGoes => hAlone ((h.continues_iff hNone).mpr hGoes)⟩

theorem Token.Pending.After.advance (h : p.After before)
    (hAdvance : Token.advance p c o = .ok (done, next)) : next.After (before ++ [c]) := by
  have hValid := (lexes_of_advance [] h.valid hAdvance).1
  -- a character that is read on its own leaves at most itself pending
  have hStart : ∀ {done next}, start c o = .ok (done, next) → next.Valid →
      next.After (before ++ [c]) := by
    intro done next hOk hValid
    obtain ⟨hSuffix, hWord⟩ := pending_of_start hOk
    refine ⟨hValid, hSuffix.trans (List.suffix_append _ _), ?_⟩
    intro d hd hPart
    obtain rfl : c = d := by simpa using hd
    exact ⟨o, [c], hWord hPart⟩
  cases p with
  | none => exact hStart hAdvance hValid
  | symbol d =>
    by_cases hSame : c = d
    · subst hSame
      rw [Token.advance, if_pos rfl] at hAdvance
      obtain ⟨rfl, rfl⟩ := Prod.mk.inj (Except.ok.inj hAdvance)
      refine ⟨hValid, List.nil_suffix, ?_⟩
      intro d hd hPart
      obtain rfl : c = d := by simpa using hd
      rcases h.valid with rfl | rfl
      · exact absurd hPart (by decide)
      · exact absurd hPart (by decide)
    · rw [Token.advance, if_neg hSame] at hAdvance
      exact hStart hAdvance hValid
  | ident k read =>
    by_cases hPart : isIdentPart c = true
    · rw [Token.advance, if_pos hPart] at hAdvance
      obtain ⟨rfl, rfl⟩ := Prod.mk.inj (Except.ok.inj hAdvance)
      refine ⟨hValid, ?_, fun _ _ _ => ⟨k, read ++ [c], rfl⟩⟩
      obtain ⟨u, rfl⟩ := h.suffix
      exact ⟨u, (List.append_assoc _ _ _).symm⟩
    · rw [Token.advance, if_neg hPart] at hAdvance
      cases hOk : start c o with
      | error e => simp [hOk] at hAdvance
      | ok r =>
        rw [hOk] at hAdvance
        obtain ⟨-, rfl⟩ := Prod.mk.inj (Except.ok.inj hAdvance)
        exact hStart hOk hValid

end After

theorem not_firstStray_nil {before : List Char} : ¬ FirstStray before [] pre c := by
  intro h
  simpa using h.stands

/-- The first stray character is the one at hand or the first among those behind it. -/
theorem firstStray_cons_iff {before : List Char} {b : Char} :
    FirstStray before (b :: cs) pre c ↔
      (IsStray before b ∧ pre = [] ∧ c = b) ∨
      (¬ IsStray before b ∧ ∃ pre', pre = b :: pre' ∧ FirstStray (before ++ [b]) cs pre' c) := by
  constructor
  · rintro ⟨hStands, hStray, hFirst⟩
    cases pre with
    | nil =>
      obtain ⟨rfl, -⟩ := List.cons_prefix_cons.mp hStands
      exact Or.inl ⟨by simpa using hStray, rfl, rfl⟩
    | cons d pre =>
      obtain ⟨rfl, hTail⟩ := List.cons_prefix_cons.mp hStands
      have hHere : ¬ IsStray before d := by
        simpa using hFirst [] d (by simp)
      refine Or.inr ⟨hHere, pre, rfl, hTail, by simpa using hStray, ?_⟩
      intro v e hv
      have hLater := hFirst (d :: v) e (List.cons_prefix_cons.mpr ⟨rfl, hv⟩)
      simpa using hLater
  · rintro (⟨hStray, rfl, rfl⟩ | ⟨hHere, pre', rfl, hStands, hStray, hFirst⟩)
    · exact ⟨by simp, by simpa using hStray, by simp⟩
    · refine ⟨List.cons_prefix_cons.mpr ⟨rfl, hStands⟩, by simpa using hStray, ?_⟩
      intro v e hv
      cases v with
      | nil =>
        obtain ⟨rfl, -⟩ := List.cons_prefix_cons.mp hv
        simpa using hHere
      | cons d v =>
        obtain ⟨rfl, hTail⟩ := List.cons_prefix_cons.mp hv
        simpa using hFirst v e hTail

theorem exists_firstStray {before : List Char}
    (h : ∃ pre c, pre ++ [c] <+: cs ∧ IsStray (before ++ pre) c) :
    ∃ pre c, FirstStray before cs pre c := by
  obtain ⟨pre, c, hStands, hStray⟩ := h
  induction cs generalizing before pre with
  | nil => simp at hStands
  | cons b cs ih =>
    by_cases hHere : IsStray before b
    · exact ⟨[], b, firstStray_cons_iff.mpr (Or.inl ⟨hHere, rfl, rfl⟩)⟩
    · cases pre with
      | nil =>
        obtain ⟨rfl, -⟩ := List.cons_prefix_cons.mp hStands
        exact absurd (by simpa using hStray) hHere
      | cons d pre =>
        obtain ⟨rfl, hTail⟩ := List.cons_prefix_cons.mp hStands
        have hLater : IsStray (before ++ [d] ++ pre) c := by simpa using hStray
        obtain ⟨pre', c', hFirst⟩ := ih pre hTail hLater
        exact ⟨d :: pre', c', firstStray_cons_iff.mpr (Or.inr ⟨hHere, pre', rfl, hFirst⟩)⟩

/-- The scanner stops at the first stray character, at its byte offset. -/
theorem scanFrom_eq_error_iff {before : List Char} {k : Nat} (h : p.After before) :
    scanFrom p o cs = .error ⟨c, k⟩ ↔ ∃ pre, FirstStray before cs pre c ∧ k = o + bytes pre := by
  induction cs generalizing p o before with
  | nil => simp [scanFrom, not_firstStray_nil]
  | cons b cs ih =>
    cases hAdvance : Token.advance p b o with
    | error e =>
      obtain ⟨rfl, hStray⟩ := h.advance_eq_error_iff.mp hAdvance
      rw [scanFrom_of_advance_error hAdvance]
      simp only [firstStray_cons_iff, hStray, true_and, not_true, false_and, or_false,
        Except.error.injEq, Stray.mk.injEq]
      constructor
      · rintro ⟨rfl, rfl⟩
        exact ⟨[], ⟨rfl, rfl⟩, rfl⟩
      · rintro ⟨_, ⟨rfl, rfl⟩, rfl⟩
        exact ⟨rfl, rfl⟩
    | ok r =>
      have hHere : ¬ IsStray before b := by
        intro hStray
        rw [h.advance_eq_error_iff.mpr ⟨rfl, hStray⟩] at hAdvance
        exact absurd hAdvance (by simp)
      -- what is wrong with the text is wrong with what follows
      have hLater : scanFrom p o (b :: cs) = .error ⟨c, k⟩ ↔
          scanFrom r.2 (o + b.utf8Size) cs = .error ⟨c, k⟩ := by
        rw [scanFrom_of_advance hAdvance]
        cases scanFrom r.2 (o + b.utf8Size) cs <;> simp [Except.map]
      rw [hLater, ih (h.advance hAdvance)]
      simp only [firstStray_cons_iff, hHere, false_and, false_or, not_false_eq_true, true_and]
      constructor
      · rintro ⟨pre, hFirst, rfl⟩
        exact ⟨b :: pre, ⟨pre, rfl, hFirst⟩, by rw [bytes, Nat.add_assoc]⟩
      · rintro ⟨_, ⟨pre, rfl, hFirst⟩, rfl⟩
        exact ⟨pre, hFirst, by rw [bytes, Nat.add_assoc]⟩

theorem scan_eq_error_iff {k : Nat} :
    scan cs = .error ⟨c, k⟩ ↔ ∃ pre, FirstStray [] cs pre c ∧ k = bytes pre := by
  have hStart : Pending.After .none [] := ⟨trivial, List.nil_suffix, by simp⟩
  rw [scan, scanFrom_eq_error_iff hStart]
  simp only [Nat.zero_add]

end DeclSurface.Gate
