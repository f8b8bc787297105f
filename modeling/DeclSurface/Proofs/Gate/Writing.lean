import DeclSurface.FlagSet
import DeclSurface.Proofs.Gate.Reading

/-!
# Written gates are read again

The written form of a gate has parentheses only where the tree needs them, blanks around operators,
and the names of flags as they are. Reading it gives a gate again. Chains nested in a chain of the
same operator are joined, and a flag with the name `true` or `false` is taken for the constant: that
flag can be asked about as `defined(true)`, and is written without `defined`.

* `Writes`                — characters that are read as some tokens, whatever separate text follows.
* `Rereads`               — a gate whose written form is read again, wherever it is an operand.
* `rereads_all`, `rereads_any` — chains are, if their operands are.
* `parse_text`            — every gate that a text denotes is written and read again.
* `not_rereads_defined_true` — `defined(true)` is not read as what was written.
-/

namespace DeclSurface.Gate

open Text

/-! ## Characters and tokens -/

/-- The characters are read as the tokens, before any text that does not go on with a word. -/
def Writes (cs : List Char) (ts : List Token) : Prop :=
  ∀ rest us, Separate rest → Lexes rest us → Lexes (cs ++ rest) (ts ++ us)

section Writes

variable {cs ds : List Char} {ts us : List Token} {c : Char} {n : String}

theorem separate_cons (hc : isIdentPart c = false) : Separate (c :: cs) := by
  intro d hd
  obtain rfl : c = d := Option.some.inj hd
  exact hc

theorem lexes_single {t : Token} (hc : c = '!' ∨ c = '(' ∨ c = ')') (h : Token.Spelling [c] t)
    (hRest : Lexes cs us) : Lexes (c :: cs) (t :: us) :=
  Lexes.token h (longest_single hc) hRest

theorem isIdentifier_of_spelling_word (h : Token.Spelling n.toList (.word n)) :
    isIdentifier n.toList = true := by
  generalize n.toList = w at h
  cases h with
  | word hIdent _ => exact hIdent

theorem writes_word (h : Token.Spelling n.toList (.word n)) : Writes n.toList [.word n] := by
  -- the word ends here, since no identifier goes on into the text behind it
  intro rest us hSeparate hRest
  have hIdent := isIdentifier_of_spelling_word h
  exact Lexes.token h ((longest_word_iff hIdent).mpr hSeparate) hRest

theorem Writes.not (h : Writes cs ts) : Writes ('!' :: cs) (.not :: ts) := by
  intro rest us hSeparate hRest
  exact lexes_single (Or.inl rfl) .notSymbol (h rest us hSeparate hRest)

theorem Writes.paren (h : Writes cs ts) :
    Writes ('(' :: (cs ++ [')'])) (.lparen :: (ts ++ [.rparen])) := by
  -- whatever follows, a parenthesis ends what stands in it
  intro rest us _ hRest
  have hClose : Lexes (')' :: rest) (.rparen :: us) :=
    lexes_single (Or.inr (Or.inr rfl)) .rparen hRest
  have hInner := h _ _ (separate_cons (by decide)) hClose
  rw [List.cons_append, List.cons_append, List.append_assoc, List.append_assoc]
  exact lexes_single (Or.inr (Or.inl rfl)) .lparen hInner

/-- An operator with blanks around it ends what stands before it. -/
theorem Writes.operator (hc : c = '&' ∨ c = '|') (h : Writes cs ts) (h' : Writes ds us) :
    Writes (cs ++ [' ', c, c, ' '] ++ ds) (ts ++ Token.operator c :: us) := by
  intro rest vs hSeparate hRest
  have hBlank : isBlank ' ' = true := by decide
  have hAfter : Lexes (' ' :: (ds ++ rest)) (us ++ vs) := .blank hBlank (h' rest vs hSeparate hRest)
  have hOperator : Lexes (c :: c :: ' ' :: (ds ++ rest)) (Token.operator c :: (us ++ vs)) :=
    Lexes.token (Token.spelling_doubled hc) (longest_doubled hc) hAfter
  have hBefore := h _ _ (separate_cons (by decide)) (Lexes.blank hBlank hOperator)
  simpa using hBefore

end Writes

/-! ## Readings of characters -/

namespace Conjunction

/-- The chain of the conditions of both. -/
def append : Conjunction → Conjunction → Conjunction
  | .one u, d => .more u d
  | .more u c, d => .more u (c.append d)

theorem tokens_append : ∀ c d : Conjunction,
    (c.append d).tokens = c.tokens ++ .and :: d.tokens
  | .one _, _ => rfl
  | .more u c, d => by
    rw [append, tokens, tokens, tokens_append c d, List.append_assoc, List.cons_append]

theorem gates_append : ∀ c d : Conjunction, (c.append d).gates = c.gates ++ d.gates
  | .one _, _ => rfl
  | .more u c, d => by rw [append, gates, gates, gates_append c d, List.cons_append]

variable (c d : Conjunction) (f : String → Bool)

theorem eval_gate : c.gate.eval f = c.gates.all (eval f) := by
  cases c with
  | one u => simp [gate, gates]
  | more u c => rw [gate, eval, evalAll_eq_all, gates]

theorem eval_append : (c.append d).gate.eval f = (c.gate.eval f && d.gate.eval f) := by
  rw [eval_gate, eval_gate, eval_gate, gates_append, List.all_append]

end Conjunction

namespace Disjunction

/-- The chain of the alternatives of both. -/
def append : Disjunction → Disjunction → Disjunction
  | .one c, e => .more c e
  | .more c d, e => .more c (d.append e)

theorem tokens_append : ∀ d e : Disjunction,
    (d.append e).tokens = d.tokens ++ .or :: e.tokens
  | .one _, _ => rfl
  | .more c d, e => by
    rw [append, tokens, tokens, tokens_append d e, List.append_assoc, List.cons_append]

theorem gates_append : ∀ d e : Disjunction, (d.append e).gates = d.gates ++ e.gates
  | .one _, _ => rfl
  | .more c d, e => by rw [append, gates, gates, gates_append d e, List.cons_append]

variable (d e : Disjunction) (f : String → Bool)

theorem eval_gate : d.gate.eval f = d.gates.any (eval f) := by
  cases d with
  | one c => simp [gate, gates]
  | more c d => rw [gate, eval, evalAny_eq_any, gates]

theorem eval_append : (d.append e).gate.eval f = (d.gate.eval f || e.gate.eval f) := by
  rw [eval_gate, eval_gate, eval_gate, gates_append, List.any_append]

end Disjunction

section Readings

variable {cs ds : List Char} {v w : (String → Bool) → Bool}

/-- The characters are read as an operand with the truth value. -/
def IsUnary (cs : List Char) (v : (String → Bool) → Bool) : Prop :=
  ∃ u : Unary, Writes cs u.tokens ∧ ∀ f, u.gate.eval f = v f

/-- The characters are read as a chain of conditions with the truth value. -/
def IsConjunction (cs : List Char) (v : (String → Bool) → Bool) : Prop :=
  ∃ c : Conjunction, Writes cs c.tokens ∧ ∀ f, c.gate.eval f = v f

/-- The characters are read as a chain of alternatives with the truth value. -/
def IsDisjunction (cs : List Char) (v : (String → Bool) → Bool) : Prop :=
  ∃ d : Disjunction, Writes cs d.tokens ∧ ∀ f, d.gate.eval f = v f

theorem IsUnary.conjunction (h : IsUnary cs v) : IsConjunction cs v := by
  obtain ⟨u, hWrites, hValue⟩ := h
  exact ⟨.one u, hWrites, hValue⟩

theorem IsConjunction.disjunction (h : IsConjunction cs v) : IsDisjunction cs v := by
  obtain ⟨c, hWrites, hValue⟩ := h
  exact ⟨.one c, hWrites, hValue⟩

theorem IsDisjunction.paren (h : IsDisjunction cs v) : IsUnary ('(' :: (cs ++ [')'])) v := by
  obtain ⟨d, hWrites, hValue⟩ := h
  exact ⟨.plain (.paren d), hWrites.paren, hValue⟩

theorem IsUnary.not (h : IsUnary cs v) : IsUnary ('!' :: cs) (fun f => !v f) := by
  obtain ⟨u, hWrites, hValue⟩ := h
  refine ⟨.not u, hWrites.not, fun f => ?_⟩
  rw [Unary.gate, eval, hValue]

theorem IsConjunction.and (h : IsConjunction cs v) (h' : IsConjunction ds w) :
    IsConjunction (cs ++ " && ".toList ++ ds) (fun f => v f && w f) := by
  obtain ⟨c, hWrites, hValue⟩ := h
  obtain ⟨d, hWrites', hValue'⟩ := h'
  refine ⟨c.append d, ?_, fun f => by rw [c.eval_append, hValue, hValue']⟩
  rw [c.tokens_append]
  exact hWrites.operator (Or.inl rfl) hWrites'

theorem IsDisjunction.or (h : IsDisjunction cs v) (h' : IsDisjunction ds w) :
    IsDisjunction (cs ++ " || ".toList ++ ds) (fun f => v f || w f) := by
  obtain ⟨d, hWrites, hValue⟩ := h
  obtain ⟨e, hWrites', hValue'⟩ := h'
  refine ⟨d.append e, ?_, fun f => by rw [d.eval_append, hValue, hValue']⟩
  rw [d.tokens_append]
  exact hWrites.operator (Or.inr rfl) hWrites'

end Readings

/-! ## Written gates -/

/-- The truth values of written names: two of them are those of the constants. -/
def asWritten (f : String → Bool) (n : String) : Bool :=
  if n = "true" then true else if n = "false" then false else f n

/-- The truth value of what is written for a gate. -/
def written (g : Gate) (f : String → Bool) : Bool :=
  g.eval (asWritten f)

/-- The written form of a gate is read again, wherever it is written as an operand. -/
structure Rereads (g : Gate) : Prop where
  unary : IsUnary (parenthesised (g.precedence < 3) g.chars) g.written
  conjunction : IsConjunction (parenthesised (g.precedence < 2) g.chars) g.written
  disjunction : IsDisjunction g.chars g.written

section Rereads

variable {g : Gate} {gs : List Gate} {n : String}

theorem IsUnary.rereads (h : IsUnary g.chars g.written) (hp : g.precedence = 3) : Rereads g where
  unary := by rw [hp]; exact h
  conjunction := by rw [hp]; exact h.conjunction
  disjunction := h.conjunction.disjunction

theorem IsConjunction.rereads (h : IsConjunction g.chars g.written) (hp : g.precedence = 2) :
    Rereads g where
  unary := by rw [hp]; exact h.disjunction.paren
  conjunction := by rw [hp]; exact h
  disjunction := h.disjunction

theorem IsDisjunction.rereads (h : IsDisjunction g.chars g.written) (hp : g.precedence = 1) :
    Rereads g where
  unary := by rw [hp]; exact h.paren
  conjunction := by rw [hp]; exact h.paren.conjunction
  disjunction := h

/-- A word is read as the constant or the flag with that name. -/
theorem isUnary_word (h : Token.Spelling n.toList (.word n)) :
    IsUnary n.toList (fun f => asWritten f n) := by
  refine ⟨.plain (.word n), writes_word h, fun f => ?_⟩
  simp only [Unary.gate, Primary.gate, asWritten]
  split
  · rfl
  · split <;> rfl

/--
Operands that are read are read as one chain when an operator that joins two joins them. `operand`
and `value` are what is read for one of them and for a chain.
-/
theorem charsJoined_of {V : Type} {R : List Char → V → Prop} {combine : V → V → V} {p : Nat}
    {operator : List Char} {operand : Gate → V} (value : List Gate → V)
    (hOne : ∀ g, value [g] = operand g)
    (hMore : ∀ g gs, value (g :: gs) = combine (operand g) (value gs))
    (hJoin : ∀ {cs ds v w}, R cs v → R ds w → R (cs ++ operator ++ ds) (combine v w))
    (hOperand : ∀ g ∈ gs, R (parenthesised (g.precedence < p) g.chars) (operand g))
    (hne : gs ≠ []) : R (charsJoined p operator gs) (value gs) := by
  induction gs with
  | nil => exact absurd rfl hne
  | cons g gs ih =>
    rw [List.forall_mem_cons] at hOperand
    cases gs with
    | nil =>
      -- behind the last operand stands no operator
      rw [hOne]
      exact hOperand.1
    | cons g' gs =>
      rw [hMore, charsJoined]
      · exact hJoin hOperand.1 (ih hOperand.2 (by simp))
      · simp

theorem rereads_all (hne : gs ≠ []) (h : ∀ g ∈ gs, Rereads g) : Rereads (all gs) := by
  have hJoined := charsJoined_of (fun gs f => evalAll (asWritten f) gs)
    (fun g => funext fun _ => Bool.and_true _) (fun _ _ => rfl)
    IsConjunction.and (fun g hg => (h g hg).conjunction) hne
  exact IsConjunction.rereads hJoined rfl

/-- Nothing binds less tightly than a chain of alternatives, so its operands are written bare. -/
theorem parenthesised_disjunct (g : Gate) (cs : List Char) :
    parenthesised (g.precedence < 1) cs = cs := by
  have hLoose : ¬ g.precedence < 1 := by cases g <;> simp [precedence]
  rw [decide_eq_false hLoose]
  rfl

theorem rereads_any (hne : gs ≠ []) (h : ∀ g ∈ gs, Rereads g) : Rereads (any gs) := by
  have hOperand : ∀ g ∈ gs, IsDisjunction (parenthesised (g.precedence < 1) g.chars) g.written := by
    intro g hg
    rw [parenthesised_disjunct]
    exact (h g hg).disjunction
  have hJoined := charsJoined_of (fun gs f => evalAny (asWritten f) gs)
    (fun g => funext fun _ => Bool.or_false _) (fun _ _ => rfl)
    IsDisjunction.or hOperand hne
  exact IsDisjunction.rereads hJoined rfl

theorem Rereads.not (h : Rereads g) : Rereads (not g) :=
  IsUnary.rereads h.unary.not rfl

/-- Written without `defined`, the flag is read as what its name denotes on its own. -/
theorem rereads_flag (h : Token.Spelling n.toList (.word n)) : Rereads (flag n) :=
  IsUnary.rereads (isUnary_word h) rfl

theorem rereads_always : Rereads always :=
  IsUnary.rereads (isUnary_word (n := "true") (.word (by decide) (by decide))) rfl

theorem rereads_never : Rereads never :=
  IsUnary.rereads (isUnary_word (n := "false") (.word (by decide) (by decide))) rfl

end Rereads

/-! ## Gates of texts -/

/-- The words among the tokens are those of a text. -/
def Spelled (ts : List Token) : Prop :=
  ∀ n, .word n ∈ ts → Token.Spelling n.toList (.word n)

section Spelled

variable {cs : List Char} {ts us : List Token} {t : Token} {n : String}

theorem Lexes.spelled (h : Lexes cs ts) : Spelled ts := by
  induction h with
  | done => simp [Spelled]
  | blank _ _ ih => exact ih
  | token hSpelling _ _ ih =>
    intro n hn
    rcases List.mem_cons.mp hn with rfl | hRest
    · cases hSpelling with
      | word hIdent hFree =>
        rw [String.toList_ofList]
        exact .word hIdent hFree
    · exact ih n hRest

theorem Spelled.mono (h : Spelled ts) (hSub : us ⊆ ts) : Spelled us :=
  fun n hn => h n (hSub hn)

end Spelled

mutual
/-- What a derivation denotes is read again, and so is every alternative of it. -/
theorem Disjunction.rereads : ∀ (d : Disjunction), Spelled d.tokens →
    Rereads d.gate ∧ ∀ g ∈ d.gates, Rereads g
  | .one c, h => by
    obtain ⟨hGate, -⟩ := c.rereads h
    exact ⟨hGate, by simpa [Disjunction.gates] using hGate⟩
  | .more c d, h => by
    obtain ⟨hGate, -⟩ := c.rereads (h.mono (by simp [Disjunction.tokens]))
    obtain ⟨-, hGates⟩ := d.rereads (h.mono (by simp [Disjunction.tokens]))
    have hAll : ∀ g ∈ c.gate :: d.gates, Rereads g := by
      simpa using ⟨hGate, hGates⟩
    exact ⟨rereads_any (by simp) hAll, hAll⟩

theorem Conjunction.rereads : ∀ (c : Conjunction), Spelled c.tokens →
    Rereads c.gate ∧ ∀ g ∈ c.gates, Rereads g
  | .one u, h => by
    have hGate := u.rereads h
    exact ⟨hGate, by simpa [Conjunction.gates] using hGate⟩
  | .more u c, h => by
    have hGate := u.rereads (h.mono (by simp [Conjunction.tokens]))
    obtain ⟨-, hGates⟩ := c.rereads (h.mono (by simp [Conjunction.tokens]))
    have hAll : ∀ g ∈ u.gate :: c.gates, Rereads g := by
      simpa using ⟨hGate, hGates⟩
    exact ⟨rereads_all (by simp) hAll, hAll⟩

theorem Unary.rereads : ∀ (u : Unary), Spelled u.tokens → Rereads u.gate
  | .not u, h => (u.rereads (h.mono (by simp [Unary.tokens]))).not
  | .plain p, h => p.rereads h

theorem Primary.rereads : ∀ (p : Primary), Spelled p.tokens → Rereads p.gate
  | .paren d, h => (d.rereads (h.mono (by simp [Primary.tokens]))).1
  | .defined n, h => rereads_flag (h n (by simp [Primary.tokens]))
  | .word n, h => by
    rw [Primary.gate]
    split
    · exact rereads_always
    · split
      · exact rereads_never
      · exact rereads_flag (h n (by simp [Primary.tokens]))
end

/-- Without a flag that has the name of a constant, what is written for a gate is its meaning. -/
theorem written_eq_eval {g : Gate} (hTrue : "true" ∉ g.mentions) (hFalse : "false" ∉ g.mentions)
    (f : String → Bool) : g.written f = g.eval f := by
  -- the two valuations differ on the names of the constants only
  refine eval_congr fun n hn => ?_
  have hn1 : n ≠ "true" := fun hEq => hTrue (hEq ▸ hn)
  have hn2 : n ≠ "false" := fun hEq => hFalse (hEq ▸ hn)
  rw [asWritten, if_neg hn1, if_neg hn2]

theorem isEnabled_eq_asWritten (flags : FlagSet) :
    ((flags.enable "true").disable "false").isEnabled = asWritten flags.isEnabled := by
  funext n
  rw [FlagSet.isEnabled_disable, FlagSet.isEnabled_enable, asWritten]
  by_cases hTrue : n = "true"
  · subst hTrue
    rfl
  · by_cases hFalse : n = "false"
    · simp [hFalse]
    · have hTest : (n == "true") = false := beq_false_of_ne hTrue
      have hTest' : (n != "false") = true := bne_iff_ne.mpr hFalse
      rw [hTest, hTest', if_neg hTrue, if_neg hFalse, Bool.true_and, Bool.false_or]

/--
The gate that a text denotes is written as the text of a gate. That one has the truth value that the
first has where the flag `true` is set and the flag `false` is not, and therefore the same truth
value everywhere when the first asks about neither: both are written as the constants are.
-/
theorem parse_text {s : String} {g : Gate} (h : parse s = .ok g) :
    ∃ g', parse g.text = .ok g' ∧
      (∀ flags : FlagSet, g'.holds flags = g.holds ((flags.enable "true").disable "false")) ∧
      ("true" ∉ g.mentions → "false" ∉ g.mentions →
        ∀ flags : FlagSet, g'.holds flags = g.holds flags) := by
  obtain ⟨d, hLexes, rfl⟩ := parseChars_eq_ok_iff.mp h
  obtain ⟨d', hWrites, hValue⟩ := (d.rereads hLexes.spelled).1.disjunction
  have hText : Lexes d.gate.text.toList d'.tokens := by
    have hEnd := hWrites [] [] (by simp [Separate]) .done
    simpa [text] using hEnd
  refine ⟨d'.gate, parseChars_eq_ok_iff.mpr ⟨d', hText, rfl⟩, fun flags => ?_, ?_⟩
  · rw [holds, hValue, written, holds, isEnabled_eq_asWritten]
  · intro hTrue hFalse flags
    rw [holds, hValue, written_eq_eval hTrue hFalse, holds]

/-- A negated chain with and without the flag that has the name of a constant. -/
theorem parse_text_negated :
    (parse "not (A|B&C)" = .ok (.not (.any [.flag "A", .all [.flag "B", .flag "C"]])) ∧
      ∃ g', parse "!(A || B && C)" = .ok g' ∧ ∀ flags : FlagSet,
        g'.holds flags = (Gate.not (.any [.flag "A", .all [.flag "B", .flag "C"]])).holds flags) ∧
    (parse "not A & defined(true)" = .ok (.all [.not (.flag "A"), .flag "true"]) ∧
      ∃ g', parse "!A && true" = .ok g' ∧ ∀ flags : FlagSet,
        g'.holds flags = (Gate.all [.not (.flag "A"), .flag "true"]).holds
          ((flags.enable "true").disable "false")) := by
  have hFree : parse "not (A|B&C)" = .ok (.not (.any [.flag "A", .all [.flag "B", .flag "C"]])) :=
    rfl
  have hTrue : parse "not A & defined(true)" = .ok (.all [.not (.flag "A"), .flag "true"]) := rfl
  obtain ⟨g, hText, -, hSame⟩ := parse_text hFree
  obtain ⟨g', hText', hHolds, -⟩ := parse_text hTrue
  exact ⟨⟨hFree, g, hText, hSame (by decide) (by decide)⟩, hTrue, g', hText', hHolds⟩

/-- What is written for `defined(true)` is read as the constant: the flag is not asked about. -/
theorem not_rereads_defined_true :
    ∃ g g', parse "defined(true)" = .ok g ∧ parse g.text = .ok g' ∧
      g.holds FlagSet.empty = false ∧ g'.holds FlagSet.empty = true :=
  ⟨.flag "true", .always, rfl, rfl, rfl, rfl⟩

end DeclSurface.Gate
