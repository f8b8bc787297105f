import DeclSurface.Data.Json
import DeclSurface.Toml.Text
import Mathlib.Data.List.Basic

/-!
# Values are read back from their text

A value in JSON shows where it ends: a text at its closing quote, a list or a record at its closing
bracket, and a number at the first character that cannot belong to it. Its first character shows of
which form it is. So a reader that looks at one character at a time finds the value again that was
written, whatever follows it, and values that are written alike are the same. Real numbers are left
out: what can be told of them depends on how they are rounded.

There is one reader for each function of the printer. A reader that fails gives none.

* `Json.readChar_escaped` — a character is read back from the way in which it is written.
* `Json.read?`            — the value of a text.
* `Json.ReadBack`         — a value that is found again at the front of a text.
* `Json.readBack_of_exact` — every value without real numbers is one.
* `Json.read?_pretty`, `Json.pretty_inj` — the same for whole texts.
-/

namespace DeclSurface

/-- A value without real numbers. -/
inductive Datum.Exact : Datum → Prop where
  | null : Exact .null
  | bool (b : Bool) : Exact (.bool b)
  | integer (i : Int) : Exact (.integer i)
  | text (s : String) : Exact (.text s)
  | list {ds : List Datum} (h : ∀ d ∈ ds, Exact d) : Exact (.list ds)
  | record {fields : List (String × Datum)} (h : ∀ f ∈ fields, Exact f.2) : Exact (.record fields)

namespace Json

/-! ## Characters and texts -/

/-- The character that is written behind a backslash, and what follows it. -/
def readEscape : List Char → Option (Char × List Char)
  | '"' :: cs => some ('"', cs)
  | '\\' :: cs => some ('\\', cs)
  | '/' :: cs => some ('/', cs)
  | 'b' :: cs => some ('\x08', cs)
  | 'f' :: cs => some ('\x0c', cs)
  | 'n' :: cs => some ('\n', cs)
  | 'r' :: cs => some ('\r', cs)
  | 't' :: cs => some ('\t', cs)
  | 'u' :: cs => Toml.Parser.codePoint 4 cs
  | _ => none

/-- The character that is written at the front of a text, and what follows it. -/
def readChar : List Char → Option (Char × List Char)
  | [] => none
  | c :: cs =>
    if c = '\\' then readEscape cs
    else if c.toNat < 0x20 then none
    else some (c, cs)

/-- What stands before the closing quote, and what follows it; `fuel` bounds the characters. -/
def readText : (fuel : Nat) → List Char → Option (List Char × List Char)
  | 0, _ => none
  | fuel + 1, cs =>
    if cs.head? = some '"' then some ([], cs.tail)
    else do
      let (c, cs) ← readChar cs
      let (rest, cs) ← readText fuel cs
      some (c :: rest, cs)

section Texts

variable {c : Char} {cs r : List Char} {s : String} {fuel : Nat}

/-- The characters below the blank are written by their number, in four digits of base sixteen. -/
theorem codePoint_digits {n : Nat} (h : n < 0x20) :
    Toml.Parser.codePoint 4 ('0' :: '0' :: Nat.digitChar (n / 16) :: Nat.digitChar (n % 16) :: r)
      = some (Char.ofNat n, r) := by
  have hDigits : ∀ n < 0x20, Toml.Parser.hexValue?
      ['0', '0', Nat.digitChar (n / 16), Nat.digitChar (n % 16)] = some n := by decide
  have hValid : n.isValidChar := Or.inl (by omega)
  unfold Toml.Parser.codePoint
  simp [hDigits n h, hValid]

/-- A character is read back from the way in which it is written. -/
theorem readChar_escaped : readChar (escaped c ++ r) = some (c, r) := by
  unfold escaped
  split_ifs with _ hBackslash _ _ _ _ _ hSmall
  -- the characters with a letter of their own
  any_goals (subst c; rfl)
  · rw [List.cons_append, readChar, if_pos rfl, List.cons_append, readEscape]
    show Toml.Parser.codePoint 4 ('0' :: '0' :: _ :: _ :: r) = _
    rw [codePoint_digits hSmall, Char.ofNat_toNat]
  · show readChar (c :: r) = _
    rw [readChar, if_neg hBackslash, if_neg hSmall]

/-- No character is written with a quote in front. -/
theorem head_escaped_ne_quote : (escaped c ++ r).head? ≠ some '"' := by
  unfold escaped
  split_ifs with hQuote <;> simp [hQuote]

theorem length_le_length_escapes (cs : List Char) : cs.length ≤ (cs.flatMap escaped).length := by
  induction cs with
  | nil => exact Nat.le_refl 0
  | cons c cs ih =>
    have hSome : 0 < (escaped c).length := by
      unfold escaped
      split_ifs <;> exact Nat.succ_pos _
    rw [List.flatMap_cons, List.length_append, List.length_cons]
    omega

/-- A text is read up to its closing quote. -/
theorem readText_escapes (h : cs.length < fuel) :
    readText fuel (cs.flatMap escaped ++ '"' :: r) = some (cs, r) := by
  induction cs generalizing fuel with
  | nil =>
    obtain ⟨fuel, rfl⟩ := Nat.exists_eq_add_one_of_ne_zero (Nat.ne_zero_of_lt h)
    rfl
  | cons c cs ih =>
    obtain ⟨fuel, rfl⟩ := Nat.exists_eq_add_one_of_ne_zero (Nat.ne_zero_of_lt h)
    rw [List.length_cons] at h
    rw [List.flatMap_cons, List.append_assoc, readText, if_neg head_escaped_ne_quote,
      readChar_escaped]
    show (readText fuel _ >>= _) = _
    rw [ih (by omega)]
    rfl

theorem toList_quoted : (quoted s).toList = '"' :: (s.toList.flatMap escaped ++ ['"']) := by
  rw [quoted, String.toList_ofList]

end Texts

/-! ## Numbers -/

/-- A character of a number. -/
def isNumeral (c : Char) : Bool :=
  c.isDigit || c == '-'

/-- What follows does not continue a number. -/
def Stops (r : List Char) : Prop :=
  r.takeWhile isNumeral = []

/-- The number that decimal digits denote. -/
def naturalOf (ds : List Char) : Option Nat :=
  if ds.isEmpty || !ds.all Char.isDigit then none else some (Nat.ofDigitChars 10 ds 0)

/-- The number that decimal digits denote, with a minus in front of them or not. -/
def numberOf (cs : List Char) : Option Int :=
  if cs.head? = some '-' then (naturalOf cs.tail).map fun (n : Nat) => -(n : Int)
  else (naturalOf cs).map Int.ofNat

/-- The number at the front of a text, and what follows it. -/
def readNumber (cs : List Char) : Option (Int × List Char) :=
  (numberOf (cs.takeWhile isNumeral)).map (·, cs.dropWhile isNumeral)

section Numbers

variable {i : Int} {n : Nat} {r : List Char}

theorem isDigit_of_mem_repr : ∀ c ∈ n.repr.toList, c.isDigit = true := by
  intro c hc
  rw [Nat.toList_repr] at hc
  exact Nat.isDigit_of_mem_toDigits (by decide) (by decide) hc

theorem isNumeral_of_mem_repr : ∀ c ∈ n.repr.toList, isNumeral c = true := by
  intro c hc
  rw [isNumeral, isDigit_of_mem_repr c hc, Bool.true_or]

theorem isNumeral_of_mem : ∀ c ∈ (toString i).toList, isNumeral c = true := by
  intro c hc
  rw [Int.toString_eq_repr, Int.repr_eq_if] at hc
  split at hc
  · exact isNumeral_of_mem_repr c hc
  · rw [String.toList_append] at hc
    rcases List.mem_append.mp hc with hMinus | hc
    · obtain rfl : c = '-' := by simpa using hMinus
      rfl
    · exact isNumeral_of_mem_repr c hc

theorem repr_ne_nil : n.repr.toList ≠ [] := by
  rw [Nat.toList_repr]
  exact Nat.toDigits_ne_nil

/-- A number starts with one of its characters. -/
theorem exists_cons_toString (i : Int) :
    ∃ c cs, (toString i).toList = c :: cs ∧ isNumeral c = true := by
  have hSome : (toString i).toList ≠ [] := by
    rw [Int.toString_eq_repr, Int.repr_eq_if]
    split
    · exact repr_ne_nil
    · rw [String.toList_append]
      exact List.cons_ne_nil _ _
  obtain ⟨c, cs, hText⟩ := List.exists_cons_of_ne_nil hSome
  exact ⟨c, cs, hText, isNumeral_of_mem c (hText ▸ List.mem_cons_self)⟩

theorem naturalOf_repr : naturalOf n.repr.toList = some n := by
  have hDigits : n.repr.toList.all Char.isDigit = true :=
    List.all_eq_true.mpr isDigit_of_mem_repr
  rw [naturalOf, List.isEmpty_eq_false_iff.mpr repr_ne_nil, hDigits]
  show some (Nat.ofDigitChars 10 n.repr.toList 0) = some n
  rw [Nat.toList_repr, Nat.ofDigitChars_ten_toDigits]

theorem numberOf_toString : numberOf (toString i).toList = some i := by
  rw [Int.toString_eq_repr, Int.repr_eq_if]
  split
  · -- digits do not start with a minus
    have hHead : i.toNat.repr.toList.head? ≠ some '-' := by
      intro hMinus
      have hDigit := isDigit_of_mem_repr '-' (List.mem_of_head? hMinus)
      exact absurd hDigit (by decide)
    rw [numberOf, if_neg hHead, naturalOf_repr]
    show some (Int.ofNat i.toNat) = some i
    rw [Int.ofNat_eq_natCast, Int.toNat_of_nonneg ‹_›]
  · have hMinus : "-".toList = ['-'] := rfl
    rw [String.toList_append, hMinus, List.singleton_append, numberOf,
      if_pos List.head?_cons, List.tail_cons, naturalOf_repr, Option.map_some]
    congr 1
    omega

/-- A number ends at the first character that cannot belong to it. -/
theorem readNumber_toString (h : Stops r) :
    readNumber ((toString i).toList ++ r) = some (i, r) := by
  have hRest : r.dropWhile isNumeral = r := by
    have hAll := List.takeWhile_append_dropWhile (p := isNumeral) (l := r)
    rwa [h, List.nil_append] at hAll
  rw [readNumber, List.takeWhile_append_of_pos isNumeral_of_mem, h, List.append_nil,
    numberOf_toString, List.dropWhile_append_of_pos isNumeral_of_mem, hRest]
  rfl

end Numbers

/-! ## Values -/

/-- The forms of values. -/
inductive Form where
  | null
  | yes
  | no
  | number
  | text
  | list
  | record

/-- The form of a value, as the first character of its text shows it. -/
def lead (c : Char) : Form :=
  if c = 'n' then .null
  else if c = 't' then .yes
  else if c = 'f' then .no
  else if c = '"' then .text
  else if c = '[' then .list
  else if c = '\x7b' then .record
  else .number

/-- A character that a value can start with. -/
def begins (c : Char) : Bool :=
  isNumeral c || ['n', 't', 'f', '"', '[', '\x7b'].contains c

/-- A character between the elements of a text. -/
def isSpace (c : Char) : Bool :=
  c = ' ' || c = '\t' || c = '\n' || c = '\r'

/-- What follows the spaces at the front of a text. -/
def skip (cs : List Char) : List Char :=
  cs.dropWhile isSpace

/-- The value whose word ends with `rest`, and what follows it. -/
def readWord (rest : List Char) (d : Datum) (cs : List Char) : Option (Datum × List Char) :=
  (cs.dropPrefix? rest).map (d, ·)

mutual
/-- The value at the front of a text, and what follows it; `fuel` bounds its characters. -/
def readValue : (fuel : Nat) → List Char → Option (Datum × List Char)
  | 0, _ => none
  | _ + 1, [] => none
  | fuel + 1, c :: cs =>
    match lead c with
    | .null => readWord ['u', 'l', 'l'] .null cs
    | .yes => readWord ['r', 'u', 'e'] (.bool true) cs
    | .no => readWord ['a', 'l', 's', 'e'] (.bool false) cs
    | .number => (readNumber (c :: cs)).map fun (i, cs) => (.integer i, cs)
    | .text => (readText fuel cs).map fun (t, cs) => (.text (String.ofList t), cs)
    | .list =>
      if (skip cs).head? = some ']' then some (.list [], (skip cs).tail)
      else do
        let (x, cs) ← readValue fuel (skip cs)
        let (xs, cs) ← readItems fuel (skip cs)
        some (.list (x :: xs), cs)
    | .record =>
      if (skip cs).head? = some '\x7d' then some (.record [], (skip cs).tail)
      else do
        let (f, cs) ← readField fuel (skip cs)
        let (fields, cs) ← readFields fuel (skip cs)
        some (.record (f :: fields), cs)

/-- The items of a list after the first, and what follows its closing bracket. -/
def readItems : (fuel : Nat) → List Char → Option (List Datum × List Char)
  | _ + 1, ']' :: cs => some ([], cs)
  | fuel + 1, ',' :: cs => do
    let (x, cs) ← readValue fuel (skip cs)
    let (xs, cs) ← readItems fuel (skip cs)
    some (x :: xs, cs)
  | _, _ => none

/-- The fields of a record after the first, and what follows its closing brace. -/
def readFields : (fuel : Nat) → List Char → Option (List (String × Datum) × List Char)
  | _ + 1, '\x7d' :: cs => some ([], cs)
  | fuel + 1, ',' :: cs => do
    let (f, cs) ← readField fuel (skip cs)
    let (fields, cs) ← readFields fuel (skip cs)
    some (f :: fields, cs)
  | _, _ => none

/-- The name of a field, a colon and the value of the field, and what follows it. -/
def readField : (fuel : Nat) → List Char → Option ((String × Datum) × List Char)
  | fuel + 1, '"' :: cs => do
    let (k, cs) ← readText fuel cs
    if (skip cs).head? = some ':' then
      let (x, cs) ← readValue fuel (skip (skip cs).tail)
      some ((String.ofList k, x), cs)
    else none
  | _, _ => none
end

/-- The value that a text is, with spaces around it or not. -/
def read? (s : String) : Option Datum := do
  let (d, rest) ← readValue (s.length + 1) (skip s.toList)
  if skip rest = [] then some d else none

section Values

variable {d d' : Datum} {ds : List Datum} {fields : List (String × Datum)} {level outer fuel : Nat}
  {c : Char} {r : List Char}

theorem lead_of_isNumeral (h : isNumeral c = true) : lead c = .number := by
  have hNe {a : Char} (ha : isNumeral a = false) : c ≠ a :=
    ne_of_apply_ne isNumeral (by rw [h, ha]; decide)
  rw [lead, if_neg (hNe rfl), if_neg (hNe rfl), if_neg (hNe rfl), if_neg (hNe rfl),
    if_neg (hNe rfl), if_neg (hNe rfl)]

theorem readWord_append (rest : List Char) (d : Datum) (r : List Char) :
    readWord rest d (rest ++ r) = some (d, r) := by
  rw [readWord, List.dropPrefix?_append_of_beq r BEq.rfl, Option.map_some]

theorem begins_of_isNumeral (h : isNumeral c = true) : begins c = true := by
  rw [begins, h, Bool.true_or]

theorem begins_ne {a : Char} (h : begins c = true) (ha : begins a = false) : c ≠ a :=
  ne_of_apply_ne begins (by rw [h, ha]; decide)

theorem isSpace_of_begins (h : begins c = true) : isSpace c = false := by
  unfold isSpace
  simp only [Bool.or_eq_false_iff, decide_eq_false_iff_not]
  exact ⟨⟨⟨begins_ne h rfl, begins_ne h rfl⟩, begins_ne h rfl⟩, begins_ne h rfl⟩

theorem head_prettyAt (hd : d.Exact) (level : Nat) :
    (prettyAt level d).toList.head?.any begins = true := by
  cases hd with
  | null => simp [prettyAt, begins]
  | bool b => cases b <;> simp [prettyAt, begins]
  | integer i =>
    obtain ⟨c, cs, hText, hNumeral⟩ := exists_cons_toString i
    rw [prettyAt, hText]
    exact begins_of_isNumeral hNumeral
  | text s => simp [prettyAt, quoted, begins]
  | @list ds _ => cases ds <;> simp [prettyAt, begins]
  | @record fields _ => cases fields <;> simp [prettyAt, begins]

theorem exists_cons_prettyAt (hd : d.Exact) (level : Nat) :
    ∃ c cs, (prettyAt level d).toList = c :: cs ∧ begins c = true := by
  have hHead := head_prettyAt hd level
  cases hText : (prettyAt level d).toList with
  | nil => rw [hText] at hHead; exact absurd hHead (by decide)
  | cons c cs => exact ⟨c, cs, rfl, by rwa [hText] at hHead⟩

/-! ### Spaces -/

theorem toList_newline (level : Nat) :
    (newline level).toList = '\n' :: List.replicate (2 * level) ' ' := by
  simp [newline]

theorem skip_newline : skip ((newline level).toList ++ r) = skip r := by
  have hSpaces : ∀ c ∈ (newline level).toList, isSpace c = true := by
    intro c hc
    rw [toList_newline] at hc
    rcases List.mem_cons.mp hc with rfl | hc
    · rfl
    · rw [List.eq_of_mem_replicate hc]
      rfl
  exact List.dropWhile_append_of_pos hSpaces

theorem skip_cons (h : isSpace c = false) : skip (c :: r) = c :: r := by
  rw [skip, List.dropWhile_cons, h]
  rfl

theorem skip_prettyAt (hd : d.Exact) :
    skip ((prettyAt level d).toList ++ r) = (prettyAt level d).toList ++ r := by
  obtain ⟨c, cs, hText, hBegins⟩ := exists_cons_prettyAt hd level
  rw [hText, List.cons_append, skip_cons (isSpace_of_begins hBegins)]

theorem skip_quoted {s : String} : skip ((quoted s).toList ++ r) = (quoted s).toList ++ r := by
  rw [toList_quoted, List.cons_append, skip_cons rfl]

theorem head_quoted_ne {s : String} : ((quoted s).toList ++ r).head? ≠ some '\x7d' := by
  rw [toList_quoted, List.cons_append, List.head?_cons]
  decide

theorem head_prettyAt_ne {a : Char} (hd : d.Exact) (ha : begins a = false) :
    ((prettyAt level d).toList ++ r).head? ≠ some a := by
  obtain ⟨c, cs, hText, hBegins⟩ := exists_cons_prettyAt hd level
  rw [hText]
  exact fun h => begins_ne hBegins ha (Option.some.inj h)

/-! ### Values of all forms -/

/-- A value that is found again at the front of a text, whatever follows it. -/
def ReadBack (d : Datum) : Prop :=
  ∀ ⦃level fuel r⦄, (prettyAt level d).toList.length < fuel → Stops r →
    readValue fuel ((prettyAt level d).toList ++ r) = some (d, r)

theorem stops_items : Stops ((prettyItems level ds).toList ++ ((newline outer).toList ++ r)) := by
  cases ds with
  | nil => simp [prettyItems, toList_newline, Stops, isNumeral]
  | cons x xs => simp [prettyItems, Stops, isNumeral]

theorem stops_fields :
    Stops ((prettyFields level fields).toList ++ ((newline outer).toList ++ r)) := by
  cases fields with
  | nil => simp [prettyFields, toList_newline, Stops, isNumeral]
  | cons f fields => simp [prettyFields, Stops, isNumeral]

theorem readItems_prettyItems (hExact : ∀ d ∈ ds, d.Exact) (h : ∀ d ∈ ds, ReadBack d)
    (hFuel : (prettyItems level ds).toList.length < fuel) :
    readItems fuel (skip ((prettyItems level ds).toList ++ ((newline outer).toList ++ ']' :: r)))
      = some (ds, r) := by
  induction ds generalizing fuel with
  | nil =>
    obtain ⟨fuel, rfl⟩ := Nat.exists_eq_add_one_of_ne_zero (Nat.ne_zero_of_lt hFuel)
    rw [prettyItems, String.toList_empty, List.nil_append, skip_newline, skip_cons rfl, readItems]
  | cons x xs ih =>
    obtain ⟨fuel, rfl⟩ := Nat.exists_eq_add_one_of_ne_zero (Nat.ne_zero_of_lt hFuel)
    rw [List.forall_mem_cons] at hExact h
    have hComma : ",".toList = [','] := rfl
    simp only [prettyItems, String.toList_append, List.length_append, hComma,
      List.length_singleton] at hFuel
    simp only [prettyItems, String.toList_append, List.append_assoc, hComma, List.cons_append,
      List.nil_append]
    -- the item is read in front of those behind it, which begin with what ends every number
    rw [skip_cons rfl, readItems, skip_newline, skip_prettyAt hExact.1,
      h.1 (by omega) stops_items]
    show (readItems fuel (skip _) >>= _) = _
    rw [ih hExact.2 h.2 (by omega)]
    rfl

/-- The name of a field is read up to its closing quote, and its value behind the colon. -/
theorem readField_prettyField {k : String} (hExact : d.Exact) (h : ReadBack d)
    (hFuel : (quoted k).toList.length + (prettyAt level d).toList.length < fuel) (hStops : Stops r) :
    readField fuel ((quoted k).toList ++ (':' :: ' ' :: ((prettyAt level d).toList ++ r)))
      = some ((k, d), r) := by
  obtain ⟨fuel, rfl⟩ := Nat.exists_eq_add_one_of_ne_zero (Nat.ne_zero_of_lt hFuel)
  rw [toList_quoted] at hFuel ⊢
  rw [List.length_cons, List.length_append, List.length_singleton] at hFuel
  -- there are no more characters in the name than in the way it is written
  have hName := length_le_length_escapes k.toList
  rw [List.cons_append, List.append_assoc, List.singleton_append, readField,
    readText_escapes (by omega)]
  simp only [Option.bind_eq_bind, Option.bind_some]
  have hBlank : skip (' ' :: ((prettyAt level d).toList ++ r)) = (prettyAt level d).toList ++ r :=
    skip_prettyAt hExact
  rw [skip_cons rfl, if_pos List.head?_cons, List.tail_cons, hBlank, h (by omega) hStops,
    String.ofList_toList]
  rfl

theorem readFields_prettyFields (hExact : ∀ f ∈ fields, f.2.Exact)
    (h : ∀ f ∈ fields, ReadBack f.2) (hFuel : (prettyFields level fields).toList.length < fuel) :
    readFields fuel
        (skip ((prettyFields level fields).toList ++ ((newline outer).toList ++ '\x7d' :: r)))
      = some (fields, r) := by
  induction fields generalizing fuel with
  | nil =>
    obtain ⟨fuel, rfl⟩ := Nat.exists_eq_add_one_of_ne_zero (Nat.ne_zero_of_lt hFuel)
    rw [prettyFields, String.toList_empty, List.nil_append, skip_newline, skip_cons rfl,
      readFields]
  | cons f fields ih =>
    obtain ⟨fuel, rfl⟩ := Nat.exists_eq_add_one_of_ne_zero (Nat.ne_zero_of_lt hFuel)
    obtain ⟨k, x⟩ := f
    rw [List.forall_mem_cons] at hExact h
    have hComma : ",".toList = [','] := rfl
    have hColon : ": ".toList = [':', ' '] := rfl
    simp only [prettyFields, String.toList_append, List.length_append, hComma, hColon,
      List.length_cons, List.length_nil] at hFuel
    simp only [prettyFields, String.toList_append, List.append_assoc, hComma, hColon,
      List.cons_append, List.nil_append]
    rw [skip_cons rfl, readFields, skip_newline, skip_quoted,
      readField_prettyField (d := x) hExact.1 h.1 (by omega) stops_fields]
    show (readFields fuel (skip _) >>= _) = _
    rw [ih hExact.2 h.2 (by omega)]
    rfl

/-- It takes one step to look at the first character. -/
theorem readBack_of_succ (h : ∀ level fuel r, (prettyAt level d).toList.length ≤ fuel → Stops r →
    readValue (fuel + 1) ((prettyAt level d).toList ++ r) = some (d, r)) : ReadBack d := by
  intro level fuel r hFuel hStops
  obtain ⟨fuel, rfl⟩ := Nat.exists_eq_add_one_of_ne_zero (Nat.ne_zero_of_lt hFuel)
  exact h level fuel r (by omega) hStops

theorem readBack_null : ReadBack .null := by
  refine readBack_of_succ fun level fuel r _ _ => ?_
  have hWord : "null".toList = ['n', 'u', 'l', 'l'] := rfl
  rw [prettyAt, hWord]
  exact readWord_append ['u', 'l', 'l'] .null r

theorem readBack_bool (b : Bool) : ReadBack (.bool b) := by
  refine readBack_of_succ fun level fuel r _ _ => ?_
  have hYes : "true".toList = ['t', 'r', 'u', 'e'] := rfl
  have hNo : "false".toList = ['f', 'a', 'l', 's', 'e'] := rfl
  cases b with
  | false =>
    rw [prettyAt, hNo]
    exact readWord_append ['a', 'l', 's', 'e'] (.bool false) r
  | true =>
    rw [prettyAt, hYes]
    exact readWord_append ['r', 'u', 'e'] (.bool true) r

theorem readBack_integer (i : Int) : ReadBack (.integer i) := by
  refine readBack_of_succ fun level fuel r _ hStops => ?_
  obtain ⟨c, cs, hText, hNumeral⟩ := exists_cons_toString i
  have hNumber := readNumber_toString (i := i) hStops
  rw [hText, List.cons_append] at hNumber
  rw [prettyAt, hText, List.cons_append, readValue, lead_of_isNumeral hNumeral]
  dsimp only
  rw [hNumber]
  rfl

theorem readBack_text (s : String) : ReadBack (.text s) := by
  refine readBack_of_succ fun level fuel r hFuel _ => ?_
  rw [prettyAt, toList_quoted] at hFuel ⊢
  rw [List.length_cons, List.length_append, List.length_singleton] at hFuel
  have hLength := length_le_length_escapes s.toList
  rw [List.cons_append, List.append_assoc, List.singleton_append, readValue]
  show (readText fuel _).map _ = _
  rw [readText_escapes (by omega), Option.map_some]
  dsimp only
  rw [String.ofList_toList]

theorem readBack_list (hExact : ∀ d ∈ ds, d.Exact) (h : ∀ d ∈ ds, ReadBack d) :
    ReadBack (.list ds) := by
  refine readBack_of_succ fun level fuel r hFuel _ => ?_
  cases ds with
  | nil =>
    rw [prettyAt]
    rfl
  | cons x xs =>
    rw [List.forall_mem_cons] at hExact h
    have hOpen : "[".toList = ['['] := rfl
    have hClose : "]".toList = [']'] := rfl
    simp only [prettyAt, String.toList_append, List.length_append, hOpen, hClose,
      List.length_singleton] at hFuel
    simp only [prettyAt, String.toList_append, List.append_assoc, hOpen, hClose,
      List.cons_append, List.nil_append]
    rw [readValue]
    -- the first item does not start with the bracket that ends an empty list
    show (if (skip _).head? = some ']' then _ else _) = _
    rw [skip_newline, skip_prettyAt hExact.1, if_neg (head_prettyAt_ne hExact.1 rfl),
      h.1 (by omega) stops_items]
    simp only [Option.bind_eq_bind, Option.bind_some]
    rw [readItems_prettyItems hExact.2 h.2 (by omega), Option.bind_some]

theorem readBack_record (hExact : ∀ f ∈ fields, f.2.Exact) (h : ∀ f ∈ fields, ReadBack f.2) :
    ReadBack (.record fields) := by
  refine readBack_of_succ fun level fuel r hFuel _ => ?_
  cases fields with
  | nil =>
    rw [prettyAt]
    rfl
  | cons f fields =>
    obtain ⟨k, x⟩ := f
    rw [List.forall_mem_cons] at hExact h
    have hOpen : "\x7b".toList = ['\x7b'] := rfl
    have hClose : "\x7d".toList = ['\x7d'] := rfl
    have hColon : ": ".toList = [':', ' '] := rfl
    simp only [prettyAt, String.toList_append, List.length_append, hOpen, hClose, hColon,
      List.length_cons, List.length_nil] at hFuel
    simp only [prettyAt, String.toList_append, List.append_assoc, hOpen, hClose, hColon,
      List.cons_append, List.nil_append]
    rw [readValue]
    -- nor does a name start with the brace that ends an empty record
    show (if (skip _).head? = some '\x7d' then _ else _) = _
    rw [skip_newline, skip_quoted, if_neg head_quoted_ne,
      readField_prettyField (d := x) hExact.1 h.1 (by omega) stops_fields]
    simp only [Option.bind_eq_bind, Option.bind_some]
    rw [readFields_prettyFields hExact.2 h.2 (by omega), Option.bind_some]

/-- A value without real numbers is found again at the front of a text. -/
theorem readBack_of_exact (hd : d.Exact) : ReadBack d := by
  induction hd with
  | null => exact readBack_null
  | bool b => exact readBack_bool b
  | integer i => exact readBack_integer i
  | text s => exact readBack_text s
  | list hExact ih => exact readBack_list hExact ih
  | record hExact ih => exact readBack_record hExact ih

/-- A value that is written over several lines, with a line feed at the end, is read back. -/
theorem read?_pretty (hd : d.Exact) : read? (pretty d ++ "\n") = some d := by
  have hEnd : Stops ['\n'] := rfl
  have hFuel : (prettyAt 0 d).toList.length < (pretty d ++ "\n").length + 1 := by
    rw [String.length_append, String.length_toList]
    show (pretty d).length < _
    omega
  rw [read?, String.toList_append]
  show (readValue _ (skip ((prettyAt 0 d).toList ++ ['\n'])) >>= _) = _
  rw [skip_prettyAt hd, readBack_of_exact hd hFuel hEnd]
  rfl

/-- Other spaces and other ways of writing a character are read as well. -/
example : read? " [ 7, -20,\t\"\\u0041\\/\", \x7b\"k\":null\x7d ] "
    = some (.list [.integer 7, .integer (-20), .text "A/", .record [("k", .null)]]) := by
  cbv

/-- Values without real numbers that are written alike are the same. -/
theorem pretty_inj (hd : d.Exact) (hd' : d'.Exact) (h : pretty d = pretty d') : d = d' := by
  have hRead := read?_pretty hd
  rw [h, read?_pretty hd'] at hRead
  exact (Option.some.inj hRead).symm

end Values

end Json

end DeclSurface
