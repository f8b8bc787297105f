import DeclSurface.Gate.Token
import Mathlib.Data.List.Basic

/-!
# Tokens of a text

The scanner reads a text once, character by character, and keeps what may still grow. What it is to
find can be said without any scanning: cut the text into blanks and spellings of tokens, and take
the longest spelling wherever there is a choice.

* `Token.Spelling`   — the texts of a token.
* `Lexes`            — the longest-match reading of a text.
* `scanFrom_append`  — a longest spelling is scanned as one token.
* `lexes_of_scanFrom` — what a scan finds is the reading, whatever was pending.
* `lexes_iff_scan`   — the scanner finds the reading of every text that has one.
-/

namespace DeclSurface.Gate

open Text

namespace Token

/-- The identifiers that stand for operators. -/
def keywords : List (List Char) :=
  [['a', 'n', 'd'], ['o', 'r'], ['n', 'o', 't']]

/-- How a token may be written. -/
inductive Spelling : List Char → Token → Prop where
  | word {w : List Char} (hIdent : isIdentifier w = true) (hFree : w ∉ keywords) :
    Spelling w (.word (String.ofList w))
  | notSymbol : Spelling ['!'] .not
  | notWord : Spelling ['n', 'o', 't'] .not
  | andSymbol : Spelling ['&'] .and
  | andDoubled : Spelling ['&', '&'] .and
  | andWord : Spelling ['a', 'n', 'd'] .and
  | orSymbol : Spelling ['|'] .or
  | orDoubled : Spelling ['|', '|'] .or
  | orWord : Spelling ['o', 'r'] .or
  | lparen : Spelling ['('] .lparen
  | rparen : Spelling [')'] .rparen

end Token

/-- No spelling goes on from `w` into `cs`. -/
def Longest (w cs : List Char) : Prop :=
  ∀ v t, v <+: w ++ cs → Token.Spelling v t → v.length ≤ w.length

/-- The tokens of a text, each as long as it can be, with blanks anywhere between them. -/
inductive Lexes : List Char → List Token → Prop where
  | done : Lexes [] []
  | blank {c : Char} {cs : List Char} {ts : List Token} (hBlank : isBlank c = true)
      (hRest : Lexes cs ts) : Lexes (c :: cs) ts
  | token {w cs : List Char} {t : Token} {ts : List Token} (hSpelling : Token.Spelling w t)
      (hLongest : Longest w cs) (hRest : Lexes cs ts) : Lexes (w ++ cs) (t :: ts)

/-- No identifier goes on into `cs`. -/
def Separate (cs : List Char) : Prop :=
  ∀ c ∈ cs.head?, isIdentPart c = false

/-! ## Spellings -/

namespace Token

variable {c : Char} {v w : List Char} {t : Token}

theorem isIdentStart_of_isIdentifier (h : isIdentifier (c :: w) = true) :
    isIdentStart c = true := by
  rw [isIdentifier, Bool.and_eq_true] at h
  exact h.1

theorem isBlank_of_isIdentStart (h : isIdentStart c = true) : isBlank c = false := by
  have hClass : isIdentStart c = (decide (c.val ≥ 'A'.val ∧ c.val ≤ 'Z'.val)
      || (decide (c.val ≥ 'a'.val) && decide (c.val ≤ 'z'.val)) || c == '_') := rfl
  have hRange : 65 ≤ c.toNat ∧ c.toNat ≤ 122 := by
    simp only [hClass, Bool.or_eq_true, decide_eq_true_eq, Bool.and_eq_true, beq_iff_eq, ge_iff_le,
      UInt32.le_iff_toNat_le] at h
    rcases h with (h | h) | rfl
    · exact ⟨h.1, Nat.le_trans h.2 (by decide)⟩
    · exact ⟨Nat.le_trans (by decide) h.1, h.2⟩
    · decide
  simp only [isBlank, blankRanges, List.any_cons, List.any_nil, Bool.or_false,
    Bool.or_eq_false_iff, Bool.and_eq_false_iff, decide_eq_false_iff_not]
  omega

theorem isIdentifier_append (hw : isIdentifier w = true) (hv : v.all isIdentPart = true) :
    isIdentifier (w ++ v) = true := by
  cases w with
  | nil => simp [isIdentifier] at hw
  | cons c w =>
    rw [isIdentifier, Bool.and_eq_true] at hw
    rw [List.cons_append, isIdentifier, List.all_append, hw.1, hw.2, hv]
    rfl

/-- Every identifier is a spelling, of an operator or of a word. -/
theorem spelling_ofWord (h : isIdentifier w = true) : Spelling w (ofWord (String.ofList w)) := by
  unfold ofWord
  split
  · rename_i hAnd
    obtain rfl : w = ['a', 'n', 'd'] := String.ofList_injective hAnd
    exact .andWord
  · split
    · rename_i hOr
      obtain rfl : w = ['o', 'r'] := String.ofList_injective hOr
      exact .orWord
    · split
      · rename_i hNot
        obtain rfl : w = ['n', 'o', 't'] := String.ofList_injective hNot
        exact .notWord
      · rename_i hAnd hOr hNot
        refine .word h ?_
        simp only [keywords, List.mem_cons, List.not_mem_nil, or_false]
        rintro (rfl | rfl | rfl)
        · exact hAnd rfl
        · exact hOr rfl
        · exact hNot rfl

/-- What is spelled with a symbol alone. -/
def symbols : List (List Char × Token) :=
  [(['!'], .not), (['&'], .and), (['&', '&'], .and), (['|'], .or), (['|', '|'], .or),
   (['('], .lparen), ([')'], .rparen)]

/-- A spelling is an identifier or made of symbols. -/
theorem spelling_cases (h : Spelling w t) :
    (isIdentifier w = true ∧ t = ofWord (String.ofList w)) ∨ (w, t) ∈ symbols := by
  cases h with
  | word hIdent hFree =>
    refine Or.inl ⟨hIdent, ?_⟩
    simp only [keywords, List.mem_cons, List.not_mem_nil, or_false, not_or] at hFree
    have hNe (k : List Char) (hk : w ≠ k) : String.ofList w ≠ String.ofList k :=
      fun hEq => hk (String.ofList_injective hEq)
    rw [ofWord, if_neg (hNe ['a', 'n', 'd'] hFree.1), if_neg (hNe ['o', 'r'] hFree.2.1),
      if_neg (hNe ['n', 'o', 't'] hFree.2.2)]
  | notWord => exact Or.inl ⟨by decide, by decide⟩
  | andWord => exact Or.inl ⟨by decide, by decide⟩
  | orWord => exact Or.inl ⟨by decide, by decide⟩
  | notSymbol | andSymbol | andDoubled | orSymbol | orDoubled | lparen | rparen =>
    exact Or.inr (by decide)

theorem isIdentStart_of_mem_symbols (h : (c :: v, t) ∈ symbols) : isIdentStart c = false := by
  have hAll : ∀ s ∈ symbols, s.1.all (!isIdentStart ·) = true := by decide
  have hNone := hAll _ h
  rw [List.all_cons, Bool.and_eq_true, Bool.not_eq_true'] at hNone
  exact hNone.1

/-- A spelling that does not start an identifier is made of symbols. -/
theorem mem_symbols_of_spelling (hc : isIdentStart c = false) (h : Spelling (c :: v) t) :
    (c :: v, t) ∈ symbols := by
  rcases spelling_cases h with ⟨hIdent, -⟩ | hSymbol
  · rw [isIdentStart_of_isIdentifier hIdent] at hc
    exact absurd hc.symm Bool.false_ne_true
  · exact hSymbol

/-- No spelling goes on after `!`, `(` and `)`. -/
theorem eq_nil_of_spelling (hc : c = '!' ∨ c = '(' ∨ c = ')') (h : Spelling (c :: v) t) :
    v = [] := by
  have hStart : isIdentStart c = false := by
    rcases hc with rfl | rfl | rfl <;> decide
  have hSymbol := mem_symbols_of_spelling hStart h
  rcases hc with rfl | rfl | rfl <;> simp [symbols] at hSymbol <;> exact hSymbol.1

/-- After `&` and `|` the same symbol may follow once. -/
theorem eq_nil_or_of_spelling (hc : c = '&' ∨ c = '|') (h : Spelling (c :: v) t) :
    v = [] ∨ v = [c] := by
  have hStart : isIdentStart c = false := by
    rcases hc with rfl | rfl <;> decide
  have hSymbol := mem_symbols_of_spelling hStart h
  rcases hc with rfl | rfl <;> simp [symbols] at hSymbol <;> tauto

/-- What starts as an identifier is one. -/
theorem isIdentifier_of_spelling (hc : isIdentStart c = true) (h : Spelling (c :: v) t) :
    isIdentifier (c :: v) = true := by
  rcases spelling_cases h with ⟨hIdent, -⟩ | hSymbol
  · exact hIdent
  · rw [isIdentStart_of_mem_symbols hSymbol] at hc
    exact absurd hc Bool.false_ne_true

end Token

/-! ## Longest spellings -/

section Longest

open Token

variable {c : Char} {w cs : List Char}

theorem longest_cons (h : ∀ v t, v <+: w ++ cs → Spelling (c :: v) t → v.length ≤ w.length) :
    Longest (c :: w) cs := by
  intro v t hPrefix hSpelling
  cases v with
  | nil => exact Nat.zero_le _
  | cons d v =>
    rw [List.cons_append, List.cons_prefix_cons] at hPrefix
    obtain ⟨rfl, hPrefix⟩ := hPrefix
    exact Nat.succ_le_succ (h v t hPrefix hSpelling)

theorem longest_single (hc : c = '!' ∨ c = '(' ∨ c = ')') : Longest [c] cs := by
  refine longest_cons fun v t _ hSpelling => ?_
  obtain rfl := eq_nil_of_spelling hc hSpelling
  exact Nat.le_refl _

theorem longest_doubled (hc : c = '&' ∨ c = '|') : Longest [c, c] cs := by
  refine longest_cons fun v t _ hSpelling => ?_
  rcases eq_nil_or_of_spelling hc hSpelling with rfl | rfl
  · exact Nat.zero_le _
  · exact Nat.le_refl _

theorem longest_symbol_iff (hc : c = '&' ∨ c = '|') : Longest [c] cs ↔ cs.head? ≠ some c := by
  constructor
  · intro h hHead
    obtain ⟨rest, rfl⟩ := List.head?_eq_some_iff.mp hHead
    have hDoubled : ∃ t, Spelling [c, c] t := by
      rcases hc with rfl | rfl
      · exact ⟨_, .andDoubled⟩
      · exact ⟨_, .orDoubled⟩
    obtain ⟨t, hSpelling⟩ := hDoubled
    have hLe := h [c, c] t ⟨rest, rfl⟩ hSpelling
    simp at hLe
  · intro hHead
    refine longest_cons fun v t hPrefix hSpelling => ?_
    rcases eq_nil_or_of_spelling hc hSpelling with rfl | rfl
    · exact Nat.le_refl _
    · -- the same symbol would have to come next
      obtain ⟨rest, hRest⟩ := hPrefix
      rw [List.nil_append] at hRest
      exact absurd (by rw [← hRest]; rfl) hHead

theorem longest_word_iff (hw : isIdentifier w = true) : Longest w cs ↔ Separate cs := by
  constructor
  · intro h c hHead
    obtain ⟨rest, rfl⟩ := List.head?_eq_some_iff.mp hHead
    rw [Bool.eq_false_iff]
    intro hPart
    have hLonger : isIdentifier (w ++ [c]) = true :=
      isIdentifier_append hw (by rw [List.all_cons, hPart]; rfl)
    have hLe := h (w ++ [c]) _ ⟨rest, by simp⟩ (spelling_ofWord hLonger)
    rw [List.length_append, List.length_singleton] at hLe
    omega
  · intro hSeparate
    cases w with
    | nil => simp [isIdentifier] at hw
    | cons c w =>
      refine longest_cons fun v t hPrefix hSpelling => ?_
      have hIdent := isIdentifier_of_spelling (isIdentStart_of_isIdentifier hw) hSpelling
      rw [isIdentifier, Bool.and_eq_true, List.all_eq_true] at hIdent
      by_contra hLonger
      -- a longer identifier would reach into `cs`, whose first character is no part of one
      obtain ⟨u, rfl⟩ : w <+: v :=
        List.prefix_of_prefix_length_le (List.prefix_append w cs) hPrefix (by omega)
      rw [List.prefix_append_right_inj] at hPrefix
      cases u with
      | nil => simp at hLonger
      | cons d u =>
        obtain ⟨rest, rfl⟩ := hPrefix
        have hPart : isIdentPart d = true := hIdent.2 d (by simp)
        rw [hSeparate d rfl] at hPart
        exact Bool.false_ne_true hPart

end Longest

/-! ## Scanning a longest spelling -/

namespace Token

variable {c : Char} {w cs : List Char} {t : Token} {p next : Pending} {done : List Placed}
  {o k : Nat}

/-- The number of bytes that characters take. -/
def bytes : List Char → Nat
  | [] => 0
  | c :: cs => c.utf8Size + bytes cs

theorem scanFrom_of_advance (h : advance p c o = .ok (done, next)) :
    scanFrom p o (c :: cs) = (scanFrom next (o + c.utf8Size) cs).map (done ++ ·) := by
  rw [scanFrom, h]
  dsimp only
  cases scanFrom next (o + c.utf8Size) cs with
  | error e => rfl
  | ok rest => rfl

theorem scanFrom_of_advance_error {e : Stray} (h : advance p c o = .error e) :
    scanFrom p o (c :: cs) = .error e := by
  rw [scanFrom, h]

theorem map_map (x : Except Stray (List Placed)) (as bs : List Placed) :
    (x.map (bs ++ ·)).map (as ++ ·) = x.map ((as ++ bs) ++ ·) := by
  cases x with
  | error e => rfl
  | ok rest => simp [Except.map]

/-- A pending word takes in all that belongs to it, and ends where no identifier goes on. -/
theorem scanFrom_ident (read : List Char) (hw : w.all isIdentPart = true) (hcs : Separate cs) :
    scanFrom (.ident o read) k (w ++ cs)
      = (scanFrom .none (k + bytes w) cs).map ((Pending.ident o (read ++ w)).close ++ ·) := by
  induction w generalizing read k with
  | nil =>
    rw [List.append_nil, List.nil_append]
    cases cs with
    | nil => rfl
    | cons c cs =>
      have hPart : isIdentPart c = false := hcs c rfl
      have hAdvance : advance (.ident o read) c k
          = (start c k).map fun r => ((Pending.ident o read).close ++ r.1, r.2) := by
        rw [advance, hPart, if_neg Bool.false_ne_true]
        cases start c k with
        | error e => rfl
        | ok r => rfl
      show _ = (scanFrom .none k (c :: cs)).map _
      cases hStart : start c k with
      | error e =>
        rw [hStart] at hAdvance
        rw [scanFrom_of_advance_error hAdvance, scanFrom_of_advance_error (p := .none) hStart]
        rfl
      | ok r =>
        rw [hStart] at hAdvance
        rw [scanFrom_of_advance hAdvance, scanFrom_of_advance (p := .none) hStart, map_map]
  | cons c w ih =>
    rw [List.all_cons, Bool.and_eq_true] at hw
    have hAdvance : advance (.ident o read) c k = .ok ([], .ident o (read ++ [c])) := by
      rw [advance, if_pos hw.1]
    rw [List.cons_append, scanFrom_of_advance hAdvance, ih (read ++ [c]) hw.2, map_map,
      List.nil_append, List.append_assoc, List.singleton_append, bytes, Nat.add_assoc]

/-- A symbol that has been read is complete when another character follows. -/
theorem scanFrom_symbol (hcs : cs.head? ≠ some c) :
    scanFrom (.symbol c) k cs = scanFrom .none k cs := by
  cases cs with
  | nil => rfl
  | cons d cs =>
    have hNe : d ≠ c := fun hEq => hcs (by rw [hEq]; rfl)
    have hAdvance : advance (.symbol c) d k = start d k := by
      rw [advance, if_neg hNe]
    rw [scanFrom, scanFrom, hAdvance, advance]

theorem start_ident (hc : isIdentStart c = true) : start c o = .ok ([], .ident o [c]) := by
  have hNe (d : Char) (hd : isIdentStart d = false) : c ≠ d := by
    rintro rfl
    rw [hc] at hd
    exact Bool.false_ne_true hd.symm
  rw [start, isBlank_of_isIdentStart hc, if_neg Bool.false_ne_true, if_neg (hNe '(' (by decide)),
    if_neg (hNe ')' (by decide)), if_neg (hNe '!' (by decide)), if_neg (hNe '&' (by decide)),
    if_neg (hNe '|' (by decide)), if_pos hc]

/-- The operator that a symbol stands for, doubled or not. -/
def operator (c : Char) : Token :=
  if c = '&' then .and else .or

theorem start_operator (hc : c = '&' ∨ c = '|') :
    start c o = .ok ([⟨operator c, o⟩], .symbol c) := by
  rcases hc with rfl | rfl <;> rfl

theorem scanFrom_operator (hc : c = '&' ∨ c = '|') (hcs : cs.head? ≠ some c) :
    scanFrom .none o (c :: cs)
      = (scanFrom .none (o + bytes [c]) cs).map ([⟨operator c, o⟩] ++ ·) := by
  rw [scanFrom_of_advance (p := .none) (start_operator hc), scanFrom_symbol hcs]
  rfl

theorem scanFrom_doubled (hc : c = '&' ∨ c = '|') :
    scanFrom .none o (c :: c :: cs)
      = (scanFrom .none (o + bytes [c, c]) cs).map ([⟨operator c, o⟩] ++ ·) := by
  have hAdvance : advance (.symbol c) c (o + c.utf8Size) = .ok ([], .none) := by
    rw [advance, if_pos rfl]
  rw [scanFrom_of_advance (p := .none) (start_operator hc), scanFrom_of_advance hAdvance,
    map_map, List.append_nil, bytes, Nat.add_assoc]
  rfl

/-- A longest spelling is scanned as one token. -/
theorem scanFrom_append (h : Spelling w t) (hLongest : Longest w cs) :
    scanFrom .none o (w ++ cs) = (scanFrom .none (o + bytes w) cs).map ([⟨t, o⟩] ++ ·) := by
  rcases spelling_cases h with ⟨hIdent, rfl⟩ | hSymbol
  · have hSeparate := (longest_word_iff hIdent).mp hLongest
    cases w with
    | nil => simp [isIdentifier] at hIdent
    | cons c w =>
      rw [isIdentifier, Bool.and_eq_true] at hIdent
      rw [List.cons_append, scanFrom_of_advance (p := .none) (start_ident hIdent.1),
        scanFrom_ident [c] hIdent.2 hSeparate, map_map, bytes, Nat.add_assoc]
      rfl
  · have hAnd : '&' = '&' ∨ '&' = '|' := Or.inl rfl
    have hOr : '|' = '&' ∨ '|' = '|' := Or.inr rfl
    simp only [symbols, List.mem_cons, Prod.mk.injEq, List.not_mem_nil, or_false] at hSymbol
    rcases hSymbol with h | h | h | h | h | h | h
    all_goals obtain ⟨rfl, rfl⟩ := h
    · exact scanFrom_of_advance rfl
    · exact scanFrom_operator hAnd ((longest_symbol_iff hAnd).mp hLongest)
    · exact scanFrom_doubled hAnd
    · exact scanFrom_operator hOr ((longest_symbol_iff hOr).mp hLongest)
    · exact scanFrom_doubled hOr
    · exact scanFrom_of_advance rfl
    · exact scanFrom_of_advance rfl

/-! ## What is pending -/

/-- The characters read that a pending token is made of. -/
def Pending.chars : Pending → List Char
  | .none => []
  | .ident _ read => read
  | .symbol c => [c]

/-- The tokens given out for the characters of a pending one. -/
def Pending.emitted : Pending → List Token
  | .none => []
  | .ident _ _ => []
  | .symbol c => [operator c]

/-- What a scanner may be left with. -/
def Pending.Valid : Pending → Prop
  | .none => True
  | .ident _ read => isIdentifier read = true
  | .symbol c => c = '&' ∨ c = '|'

theorem spelling_operator (hc : c = '&' ∨ c = '|') : Spelling [c] (operator c) := by
  rcases hc with rfl | rfl
  · exact .andSymbol
  · exact .orSymbol

theorem spelling_doubled (hc : c = '&' ∨ c = '|') : Spelling [c, c] (operator c) := by
  rcases hc with rfl | rfl
  · exact .andDoubled
  · exact .orDoubled

/-- A character read on its own begins a reading, if what it leaves pending goes on with one. -/
theorem lexes_of_start (cs : List Char) (h : start c o = .ok (done, next)) :
    next.Valid ∧ ∀ ts, Lexes (next.chars ++ cs) (next.emitted ++ ts) →
      Lexes (c :: cs) (done.map (·.token) ++ ts) := by
  unfold start at h
  have hSingle {d : Char} {u : Token} (hd : d = '!' ∨ d = '(' ∨ d = ')') (hu : Spelling [d] u)
      (hSome : (Except.ok ([⟨u, o⟩], .none) : Except Stray _) = .ok (done, next)) :
      next.Valid ∧ ∀ ts, Lexes (next.chars ++ cs) (next.emitted ++ ts) →
        Lexes (d :: cs) (done.map (·.token) ++ ts) := by
    obtain ⟨rfl, rfl⟩ := Prod.mk.inj (Except.ok.inj hSome)
    exact ⟨trivial, fun ts hRest => Lexes.token hu (longest_single hd) hRest⟩
  split at h
  · rename_i hBlank
    obtain ⟨rfl, rfl⟩ := Prod.mk.inj (Except.ok.inj h)
    exact ⟨trivial, fun ts hRest => Lexes.blank hBlank hRest⟩
  split at h
  · rename_i hc
    subst hc
    exact hSingle (Or.inr (Or.inl rfl)) .lparen h
  split at h
  · rename_i hc
    subst hc
    exact hSingle (Or.inr (Or.inr rfl)) .rparen h
  split at h
  · rename_i hc
    subst hc
    exact hSingle (Or.inl rfl) .notSymbol h
  split at h
  · rename_i hc
    subst hc
    obtain ⟨rfl, rfl⟩ := Prod.mk.inj (Except.ok.inj h)
    exact ⟨Or.inl rfl, fun ts hRest => hRest⟩
  split at h
  · rename_i hc
    subst hc
    obtain ⟨rfl, rfl⟩ := Prod.mk.inj (Except.ok.inj h)
    exact ⟨Or.inr rfl, fun ts hRest => hRest⟩
  split at h
  · rename_i hc
    obtain ⟨rfl, rfl⟩ := Prod.mk.inj (Except.ok.inj h)
    refine ⟨?_, fun ts hRest => hRest⟩
    rw [Pending.Valid, isIdentifier, hc]
    rfl
  · exact absurd h (by simp)

/-- So does one that is read while something is pending. -/
theorem lexes_of_advance (cs : List Char) (hp : p.Valid) (h : advance p c o = .ok (done, next)) :
    next.Valid ∧ ∀ ts, Lexes (next.chars ++ cs) (next.emitted ++ ts) →
      Lexes (p.chars ++ c :: cs) (p.emitted ++ (done.map (·.token) ++ ts)) := by
  cases p with
  | none => exact lexes_of_start _ h
  | symbol d =>
    by_cases hc : c = d
    · rw [advance, if_pos hc] at h
      obtain ⟨rfl, rfl⟩ := Prod.mk.inj (Except.ok.inj h)
      subst hc
      refine ⟨trivial, fun ts hRest => ?_⟩
      show Lexes ([c, c] ++ cs) (operator c :: ts)
      exact Lexes.token (spelling_doubled hp) (longest_doubled hp) hRest
    · rw [advance, if_neg hc] at h
      obtain ⟨hValid, hLexes⟩ := lexes_of_start cs h
      have hLongest : Longest [d] (c :: cs) := (longest_symbol_iff hp).mpr (by simpa using hc)
      exact ⟨hValid, fun ts hRest => Lexes.token (spelling_operator hp) hLongest (hLexes ts hRest)⟩
  | ident k read =>
    by_cases hc : isIdentPart c = true
    · rw [advance, if_pos hc] at h
      obtain ⟨rfl, rfl⟩ := Prod.mk.inj (Except.ok.inj h)
      refine ⟨isIdentifier_append hp (by rw [List.all_cons, hc]; rfl), fun ts hRest => ?_⟩
      rw [Pending.chars, List.append_assoc] at hRest
      exact hRest
    · rw [advance, if_neg hc] at h
      cases hStart : start c o with
      | error e => simp [hStart] at h
      | ok r =>
        rw [hStart] at h
        obtain ⟨rfl, rfl⟩ := Prod.mk.inj (Except.ok.inj h)
        obtain ⟨hValid, hLexes⟩ := lexes_of_start cs hStart
        have hSeparate : Separate (c :: cs) := by
          intro d hd
          obtain rfl : c = d := Option.some.inj hd
          exact Bool.eq_false_iff.mpr hc
        have hLongest : Longest read (c :: cs) := (longest_word_iff hp).mpr hSeparate
        exact ⟨hValid, fun ts hRest => Lexes.token (spelling_ofWord hp) hLongest (hLexes ts hRest)⟩

theorem scanFrom_cons_eq_ok {ps : List Placed} (h : scanFrom p o (c :: cs) = .ok ps) :
    ∃ done next rest, advance p c o = .ok (done, next) ∧
      scanFrom next (o + c.utf8Size) cs = .ok rest ∧ ps = done ++ rest := by
  cases hAdvance : advance p c o with
  | error e =>
    rw [scanFrom_of_advance_error hAdvance] at h
    exact absurd h (by simp)
  | ok r =>
    rw [scanFrom_of_advance hAdvance] at h
    cases hRest : scanFrom r.2 (o + c.utf8Size) cs with
    | error e =>
      rw [hRest] at h
      exact absurd h (by simp [Except.map])
    | ok rest =>
      rw [hRest] at h
      exact ⟨r.1, r.2, rest, rfl, hRest, (Except.ok.inj h).symm⟩

/-- What is scanned after something pending completes its reading. -/
theorem lexes_of_scanFrom {ps : List Placed} (hp : p.Valid) (h : scanFrom p o cs = .ok ps) :
    Lexes (p.chars ++ cs) (p.emitted ++ ps.map (·.token)) := by
  induction cs generalizing p o ps with
  | nil =>
    obtain rfl := Except.ok.inj h
    rw [List.append_nil]
    cases p with
    | none => exact .done
    | ident o read =>
      have hLongest : Longest read [] := (longest_word_iff hp).mpr fun _ hd => by simp at hd
      rw [← List.append_nil (Pending.chars _)]
      exact Lexes.token (spelling_ofWord hp) hLongest .done
    | symbol c =>
      have hLongest : Longest [c] [] := (longest_symbol_iff hp).mpr (by simp)
      exact Lexes.token (spelling_operator hp) hLongest .done
  | cons c cs ih =>
    obtain ⟨done, next, rest, hAdvance, hRest, rfl⟩ := scanFrom_cons_eq_ok h
    obtain ⟨hValid, hLexes⟩ := lexes_of_advance cs hp hAdvance
    rw [List.map_append]
    exact hLexes _ (ih hValid hRest)

/-- A text that has a reading is scanned, from whatever place on. -/
theorem scanFrom_of_lexes {ts : List Token} (h : Lexes cs ts) :
    ∃ ps, scanFrom .none o cs = .ok ps ∧ ps.map (·.token) = ts := by
  induction h generalizing o with
  | done => exact ⟨[], rfl, rfl⟩
  | @blank c cs ts hBlank _ ih =>
    obtain ⟨ps, hScan, hTokens⟩ := ih (o := o + c.utf8Size)
    have hAdvance : advance .none c o = .ok ([], .none) := by
      rw [advance, start, if_pos hBlank]
    exact ⟨ps, by rw [scanFrom_of_advance hAdvance, hScan]; rfl, hTokens⟩
  | @token w cs t ts hSpelling hLongest _ ih =>
    obtain ⟨ps, hScan, rfl⟩ := ih (o := o + bytes w)
    exact ⟨⟨t, o⟩ :: ps, by rw [scanFrom_append hSpelling hLongest, hScan]; rfl, rfl⟩

end Token

/-- The scanner gives the tokens of the longest-match reading, and fails where there is none. -/
theorem lexes_iff_scan {cs : List Char} {ts : List Token} :
    Lexes cs ts ↔ ∃ ps, Token.scan cs = .ok ps ∧ ps.map (·.token) = ts := by
  constructor
  · exact Token.scanFrom_of_lexes
  · rintro ⟨ps, hScan, rfl⟩
    exact Token.lexes_of_scanFrom (p := .none) trivial hScan

/-- A text has one reading at most. -/
theorem Lexes.unique {cs : List Char} {ts us : List Token} (ht : Lexes cs ts) (hu : Lexes cs us) :
    ts = us := by
  obtain ⟨ps, hScan, rfl⟩ := lexes_iff_scan.mp ht
  obtain ⟨qs, hScan', rfl⟩ := lexes_iff_scan.mp hu
  rw [hScan] at hScan'
  rw [Except.ok.inj hScan']

end DeclSurface.Gate
