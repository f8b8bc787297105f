import DeclSurface.Proofs.Gate.Writing

/-!
# What is read for a written gate

A chain that is an operand of a chain with the same operator is written without parentheses, so it
cannot be told from its operands and is read as part of the outer chain. Nothing else is lost: the
gate read for the text of a gate is that gate with such chains spliced in.

* `flatten`                — the gate with chains spliced into chains of their kind.
* `Alternating`            — no chain stands directly in one of its kind; `flatten_eq_self_iff` says
  that these are the gates which `flatten` leaves as they are.
* `Regular`                — chains of two operands at least, and flags that are read as flags.
* `ReadFlat`               — the text is read as the flat gate, wherever it is an operand.
* `parse_text_eq_flatten`  — the texts of regular gates are.
-/

namespace DeclSurface.Gate

open Text

variable {g : Gate} {gs : List Gate}

/-! ## Flat gates -/

/-- The operands of a conjunction; any other gate is its only operand. -/
def conjuncts : Gate → List Gate
  | all gs => gs
  | g => [g]

/-- The operands of a disjunction; any other gate is its only operand. -/
def disjuncts : Gate → List Gate
  | any gs => gs
  | g => [g]

mutual
/-- The gate with every chain that is an operand of a chain of its kind spliced into that chain. -/
def flatten : Gate → Gate
  | always => always
  | never => never
  | flag name => flag name
  | not g => not (flatten g)
  | all gs => all (splice conjuncts gs)
  | any gs => any (splice disjuncts gs)

/-- What `operands` gives for the flat form of each gate, in order. -/
def splice (operands : Gate → List Gate) : List Gate → List Gate
  | [] => []
  | g :: gs => operands (flatten g) ++ splice operands gs
end

/-- No chain is an operand of a chain of its own kind. -/
inductive Alternating : Gate → Prop where
  | always : Alternating always
  | never : Alternating never
  | flag (name : String) : Alternating (flag name)
  | not {g : Gate} (h : Alternating g) : Alternating (not g)
  | all {gs : List Gate} (hKind : ∀ g ∈ gs, ∀ hs, g ≠ all hs) (h : ∀ g ∈ gs, Alternating g) :
    Alternating (all gs)
  | any {gs : List Gate} (hKind : ∀ g ∈ gs, ∀ hs, g ≠ any hs) (h : ∀ g ∈ gs, Alternating g) :
    Alternating (any gs)

theorem conjuncts_eq_singleton (h : ∀ hs, g ≠ all hs) : g.conjuncts = [g] := by
  cases g with
  | all gs => exact absurd rfl (h gs)
  | _ => rfl

theorem disjuncts_eq_singleton (h : ∀ hs, g ≠ any hs) : g.disjuncts = [g] := by
  cases g with
  | any gs => exact absurd rfl (h gs)
  | _ => rfl

theorem splice_eq_flatMap (operands : Gate → List Gate) (gs : List Gate) :
    splice operands gs = gs.flatMap fun g => operands g.flatten := by
  induction gs with
  | nil => rfl
  | cons g gs ih => rw [splice, ih, List.flatMap_cons]

/-- Gates that are flat, and operands by themselves, are spliced in one for one. -/
theorem splice_eq_self {operands : Gate → List Gate} (hFlat : ∀ g ∈ gs, g.flatten = g)
    (hSelf : ∀ g ∈ gs, operands g = [g]) : splice operands gs = gs := by
  have hOne : ∀ g ∈ gs, operands g.flatten = [g] := by
    intro g hg
    rw [hFlat g hg, hSelf g hg]
  rw [splice_eq_flatMap, List.flatMap_congr hOne, List.flatMap_singleton']

theorem flatten_of_alternating (h : g.Alternating) : g.flatten = g := by
  induction h with
  | always | never | flag => rfl
  | not _ ih => rw [flatten, ih]
  | all hKind _ ih =>
    rw [flatten, splice_eq_self ih fun g hg => conjuncts_eq_singleton (hKind g hg)]
  | any hKind _ ih =>
    rw [flatten, splice_eq_self ih fun g hg => disjuncts_eq_singleton (hKind g hg)]

/-- What a conjunction takes over from an operand is in turn the operands of a conjunction. -/
theorem Alternating.conjuncts (h : g.Alternating) : (Gate.all g.conjuncts).Alternating := by
  by_cases hAll : ∃ hs, g = .all hs
  · obtain ⟨hs, rfl⟩ := hAll
    exact h
  · rw [not_exists] at hAll
    rw [conjuncts_eq_singleton hAll]
    exact .all (by simpa using hAll) (by simpa using h)

theorem Alternating.disjuncts (h : g.Alternating) : (Gate.any g.disjuncts).Alternating := by
  by_cases hAny : ∃ hs, g = .any hs
  · obtain ⟨hs, rfl⟩ := hAny
    exact h
  · rw [not_exists] at hAny
    rw [disjuncts_eq_singleton hAny]
    exact .any (by simpa using hAny) (by simpa using h)

mutual
/-- Splicing leaves no chain directly in one of its kind. -/
theorem alternating_flatten : ∀ g : Gate, g.flatten.Alternating
  | always => .always
  | never => .never
  | flag name => .flag name
  | not g => .not (alternating_flatten g)
  | all gs => by
    -- each part that is spliced in is an operand of a flat conjunction, namely its own
    have hOperand : ∀ k ∈ splice Gate.conjuncts gs, (∀ hs, k ≠ .all hs) ∧ k.Alternating := by
      intro k hk
      rw [splice_eq_flatMap, List.mem_flatMap] at hk
      obtain ⟨g, hg, hk⟩ := hk
      cases (alternating_flatten_of_mem gs g hg).conjuncts with
      | all hKind h => exact ⟨hKind k hk, h k hk⟩
    exact .all (fun k hk => (hOperand k hk).1) fun k hk => (hOperand k hk).2
  | any gs => by
    have hOperand : ∀ k ∈ splice Gate.disjuncts gs, (∀ hs, k ≠ .any hs) ∧ k.Alternating := by
      intro k hk
      rw [splice_eq_flatMap, List.mem_flatMap] at hk
      obtain ⟨g, hg, hk⟩ := hk
      cases (alternating_flatten_of_mem gs g hg).disjuncts with
      | any hKind h => exact ⟨hKind k hk, h k hk⟩
    exact .any (fun k hk => (hOperand k hk).1) fun k hk => (hOperand k hk).2

theorem alternating_flatten_of_mem : ∀ (gs : List Gate), ∀ g ∈ gs, g.flatten.Alternating
  | [] => by simp
  | g :: gs => List.forall_mem_cons.mpr ⟨alternating_flatten g, alternating_flatten_of_mem gs⟩
end

/-- A gate is flat when no chain stands directly in one of its kind, and not otherwise. -/
theorem flatten_eq_self_iff : g.flatten = g ↔ g.Alternating := by
  constructor
  · intro h
    rw [← h]
    exact alternating_flatten g
  · exact flatten_of_alternating

/-! ## The flags of a flat gate -/

theorem mentionsAll_append (gs hs : List Gate) :
    mentionsAll (gs ++ hs) = mentionsAll gs ++ mentionsAll hs := by
  induction gs with
  | nil => rfl
  | cons g gs ih => rw [List.cons_append, mentionsAll, mentionsAll, ih, List.append_assoc]

theorem mentionsAll_conjuncts (g : Gate) : mentionsAll g.conjuncts = g.mentions := by
  cases g with
  | all gs => rfl
  | _ => exact List.append_nil _

theorem mentionsAll_disjuncts (g : Gate) : mentionsAll g.disjuncts = g.mentions := by
  cases g with
  | any gs => rfl
  | _ => exact List.append_nil _

mutual
/-- The flags stay, in their order. -/
theorem mentions_flatten : ∀ g : Gate, g.flatten.mentions = g.mentions
  | always => rfl
  | never => rfl
  | flag _ => rfl
  | not g => mentions_flatten g
  | all gs => mentionsAll_splice mentionsAll_conjuncts gs
  | any gs => mentionsAll_splice mentionsAll_disjuncts gs

theorem mentionsAll_splice {operands : Gate → List Gate}
    (hOperands : ∀ g, mentionsAll (operands g) = g.mentions) :
    ∀ gs : List Gate, mentionsAll (splice operands gs) = mentionsAll gs
  | [] => rfl
  | g :: gs => by
    rw [splice, mentionsAll_append, hOperands, mentions_flatten g, mentionsAll_splice hOperands gs,
      mentionsAll]
end

/-! ## Regular gates -/

/-- The identifiers that are not read as the name of a flag. -/
def reservedWords : List String :=
  ["true", "false", "and", "or", "not"]

/-- Chains have two operands at least, and flags have names that are read as flags. -/
inductive Regular : Gate → Prop where
  | always : Regular always
  | never : Regular never
  | flag {name : String} (hIdent : isIdentifier name.toList = true)
      (hFree : name ∉ reservedWords) : Regular (flag name)
  | not {g : Gate} (h : Regular g) : Regular (not g)
  | all {gs : List Gate} (hTwo : 2 ≤ gs.length) (h : ∀ g ∈ gs, Regular g) : Regular (all gs)
  | any {gs : List Gate} (hTwo : 2 ≤ gs.length) (h : ∀ g ∈ gs, Regular g) : Regular (any gs)

/-- Splicing in operands does not make a chain shorter, as long as there are some. -/
theorem length_le_length_splice {operands : Gate → List Gate}
    (hSome : ∀ g ∈ gs, operands g.flatten ≠ []) : gs.length ≤ (splice operands gs).length := by
  induction gs with
  | nil => exact Nat.le_refl _
  | cons g gs ih =>
    rw [List.forall_mem_cons] at hSome
    have hRest := ih hSome.2
    have hFirst := List.length_pos_iff.mpr hSome.1
    rw [splice, List.length_append, List.length_cons]
    omega

/-- A regular gate has operands left to splice in, whatever it is an operand of. -/
theorem Regular.operands_ne_nil (h : g.Regular) :
    g.flatten.conjuncts ≠ [] ∧ g.flatten.disjuncts ≠ [] := by
  induction h with
  | always | never | flag | not => exact ⟨List.cons_ne_nil _ _, List.cons_ne_nil _ _⟩
  | all hTwo _ ih =>
    have hLength := length_le_length_splice fun g hg => (ih g hg).1
    refine ⟨List.length_pos_iff.mp ?_, List.cons_ne_nil _ _⟩
    exact Nat.lt_of_lt_of_le (by omega) hLength
  | any hTwo _ ih =>
    have hLength := length_le_length_splice fun g hg => (ih g hg).2
    refine ⟨List.cons_ne_nil _ _, List.length_pos_iff.mp ?_⟩
    exact Nat.lt_of_lt_of_le (by omega) hLength

/-- A chain of two operands at least is a node of its own. -/
theorem joinAll_eq_all (h : 2 ≤ gs.length) : joinAll gs = all gs := by
  match gs, h with
  | _ :: _ :: _, _ => rfl

theorem joinAny_eq_any (h : 2 ≤ gs.length) : joinAny gs = any gs := by
  match gs, h with
  | _ :: _ :: _, _ => rfl

/-- A regular gate is made again from its operands. -/
theorem Regular.joinAny_disjuncts (h : g.Regular) : joinAny g.flatten.disjuncts = g.flatten := by
  cases h with
  | always | never | flag | not | all => rfl
  | any hTwo h =>
    have hLength := length_le_length_splice fun g hg => (h g hg).operands_ne_nil.2
    exact joinAny_eq_any (Nat.le_trans hTwo hLength)

/-! ## Texts of regular gates -/

/-- The characters are read as a chain of conditions with the operands. -/
def IsConjunctionOf (cs : List Char) (gs : List Gate) : Prop :=
  ∃ c : Conjunction, Writes cs c.tokens ∧ c.gates = gs

/-- The characters are read as a chain of alternatives with the operands. -/
def IsDisjunctionOf (cs : List Char) (gs : List Gate) : Prop :=
  ∃ d : Disjunction, Writes cs d.tokens ∧ d.gates = gs

/-- The characters are read as an operand of any operator, which denotes the gate. -/
def IsUnaryOf (cs : List Char) (g : Gate) : Prop :=
  ∃ u : Unary, Writes cs u.tokens ∧ u.gate = g

section Readings

variable {cs ds : List Char} {hs : List Gate}

theorem IsConjunctionOf.and (h : IsConjunctionOf cs gs) (h' : IsConjunctionOf ds hs) :
    IsConjunctionOf (cs ++ " && ".toList ++ ds) (gs ++ hs) := by
  obtain ⟨c, hWrites, rfl⟩ := h
  obtain ⟨d, hWrites', rfl⟩ := h'
  refine ⟨c.append d, ?_, c.gates_append d⟩
  rw [c.tokens_append]
  exact hWrites.operator (Or.inl rfl) hWrites'

theorem IsDisjunctionOf.or (h : IsDisjunctionOf cs gs) (h' : IsDisjunctionOf ds hs) :
    IsDisjunctionOf (cs ++ " || ".toList ++ ds) (gs ++ hs) := by
  obtain ⟨d, hWrites, rfl⟩ := h
  obtain ⟨e, hWrites', rfl⟩ := h'
  refine ⟨d.append e, ?_, d.gates_append e⟩
  rw [d.tokens_append]
  exact hWrites.operator (Or.inr rfl) hWrites'

theorem IsUnaryOf.not (h : IsUnaryOf cs g) : IsUnaryOf ('!' :: cs) (not g) := by
  obtain ⟨u, hWrites, rfl⟩ := h
  exact ⟨.not u, hWrites.not, rfl⟩

theorem IsUnaryOf.conjunction (h : IsUnaryOf cs g) : IsConjunctionOf cs [g] := by
  obtain ⟨u, hWrites, rfl⟩ := h
  exact ⟨.one u, hWrites, rfl⟩

theorem IsConjunctionOf.disjunction (h : IsConjunctionOf cs gs) :
    IsDisjunctionOf cs [joinAll gs] := by
  obtain ⟨c, hWrites, rfl⟩ := h
  refine ⟨.one c, hWrites, ?_⟩
  rw [Disjunction.gates, c.gate_eq_joinAll]

theorem IsDisjunctionOf.paren (h : IsDisjunctionOf cs gs) :
    IsUnaryOf ('(' :: (cs ++ [')'])) (joinAny gs) := by
  obtain ⟨d, hWrites, rfl⟩ := h
  exact ⟨.plain (.paren d), hWrites.paren, d.gate_eq_joinAny⟩

end Readings

/-- The text of a gate is read as its flat form, wherever it is written as an operand. -/
structure ReadFlat (g : Gate) : Prop where
  unary : IsUnaryOf (parenthesised (g.precedence < 3) g.chars) g.flatten
  conjunction : IsConjunctionOf (parenthesised (g.precedence < 2) g.chars) g.flatten.conjuncts
  disjunction : IsDisjunctionOf g.chars g.flatten.disjuncts

section ReadFlat

theorem IsUnaryOf.readFlat (h : IsUnaryOf g.chars g.flatten) (hp : g.precedence = 3) :
    ReadFlat g := by
  -- what is no chain stays none, so it is its own only operand
  have hFlat : g.flatten.precedence = 3 := by rw [← hp]; cases g <;> rfl
  have hConjuncts : g.flatten.conjuncts = [g.flatten] := by
    refine conjuncts_eq_singleton fun hs hEq => ?_
    rw [hEq] at hFlat
    exact absurd hFlat (by simp [precedence])
  have hDisjuncts : g.flatten.disjuncts = [g.flatten] := by
    refine disjuncts_eq_singleton fun hs hEq => ?_
    rw [hEq] at hFlat
    exact absurd hFlat (by simp [precedence])
  refine ⟨by rw [hp]; exact h, ?_, ?_⟩
  · rw [hp, hConjuncts]
    exact h.conjunction
  · rw [hDisjuncts]
    exact h.conjunction.disjunction

theorem readFlat_word {n : String} (hIdent : isIdentifier n.toList = true)
    (hFree : n.toList ∉ Token.keywords) (hWord : (Primary.word n).gate = g.flatten)
    (hChars : g.chars = n.toList) (hp : g.precedence = 3) : ReadFlat g := by
  have hSpelling : Token.Spelling n.toList (.word n) := by
    simpa using Token.Spelling.word hIdent hFree
  refine IsUnaryOf.readFlat ?_ hp
  rw [hChars]
  exact ⟨.plain (.word n), writes_word hSpelling, hWord⟩

theorem readFlat_flag {n : String} (hIdent : isIdentifier n.toList = true)
    (hFree : n ∉ reservedWords) : ReadFlat (flag n) := by
  simp only [reservedWords, List.mem_cons, List.not_mem_nil, or_false, not_or] at hFree
  obtain ⟨hTrue, hFalse, hAnd, hOr, hNot⟩ := hFree
  have hKeyword : n.toList ∉ Token.keywords := by
    simp only [Token.keywords, List.mem_cons, List.not_mem_nil, or_false, not_or]
    exact ⟨fun h => hAnd (String.toList_injective h), fun h => hOr (String.toList_injective h),
      fun h => hNot (String.toList_injective h)⟩
  refine readFlat_word hIdent hKeyword ?_ rfl rfl
  rw [Primary.gate, if_neg hTrue, if_neg hFalse, flatten]

theorem readFlat_all (hTwo : 2 ≤ (splice conjuncts gs).length) (h : ∀ g ∈ gs, ReadFlat g)
    (hne : gs ≠ []) : ReadFlat (all gs) := by
  have hChain : IsConjunctionOf (all gs).chars (splice conjuncts gs) :=
    charsJoined_of (splice conjuncts) (fun _ => List.append_nil _) (fun _ _ => rfl)
      IsConjunctionOf.and (fun g hg => (h g hg).conjunction) hne
  have hDisjunction : IsDisjunctionOf (all gs).chars [(all gs).flatten] := by
    rw [flatten, ← joinAll_eq_all hTwo]
    exact hChain.disjunction
  exact ⟨hDisjunction.paren, hChain, hDisjunction⟩

theorem readFlat_any (hTwo : 2 ≤ (splice disjuncts gs).length) (h : ∀ g ∈ gs, ReadFlat g)
    (hne : gs ≠ []) : ReadFlat (any gs) := by
  have hOperand : ∀ g ∈ gs, IsDisjunctionOf (parenthesised (g.precedence < 1) g.chars)
      g.flatten.disjuncts := by
    intro g hg
    rw [parenthesised_disjunct]
    exact (h g hg).disjunction
  have hChain : IsDisjunctionOf (any gs).chars (splice disjuncts gs) :=
    charsJoined_of (splice disjuncts) (fun _ => List.append_nil _) (fun _ _ => rfl)
      IsDisjunctionOf.or hOperand hne
  -- next to a tighter operator the chain stands in parentheses and is one operand
  have hParen := hChain.paren
  rw [joinAny_eq_any hTwo] at hParen
  exact ⟨hParen, hParen.conjunction, hChain⟩

/-- The text of every regular gate is read as its flat form. -/
theorem Regular.readFlat (h : g.Regular) : ReadFlat g := by
  induction h with
  | always => exact readFlat_word (n := "true") (by decide) (by decide) rfl rfl rfl
  | never => exact readFlat_word (n := "false") (by decide) (by decide) rfl rfl rfl
  | flag hIdent hFree => exact readFlat_flag hIdent hFree
  | not _ ih => exact IsUnaryOf.readFlat ih.unary.not rfl
  | @all gs hTwo h ih =>
    -- splicing does not shorten the chain, so it is read as a node and not as its only operand
    have hLength := length_le_length_splice fun g hg => (h g hg).operands_ne_nil.1
    exact readFlat_all (Nat.le_trans hTwo hLength) ih (by rintro rfl; simp at hTwo)
  | @any gs hTwo h ih =>
    have hLength := length_le_length_splice fun g hg => (h g hg).operands_ne_nil.2
    exact readFlat_any (Nat.le_trans hTwo hLength) ih (by rintro rfl; simp at hTwo)

end ReadFlat

/--
Reading the text of a regular gate gives the gate with chains spliced into chains of their kind: the
gate itself exactly if there are none to splice, and one with the same flags in any case.
-/
theorem parse_text_eq_flatten {g : Gate} (h : g.Regular) :
    parse g.text = .ok g.flatten ∧ (parse g.text = .ok g ↔ g.Alternating) ∧
      g.flatten.flagNames = g.flagNames := by
  have hParse : parse g.text = .ok g.flatten := by
    obtain ⟨d, hWrites, hGates⟩ := h.readFlat.disjunction
    -- nothing follows the text that could go on with its last token
    have hText : Lexes g.text.toList d.tokens := by
      have hEnd := hWrites [] [] (by simp [Separate]) .done
      simpa [text] using hEnd
    refine parseChars_eq_ok_iff.mpr ⟨d, hText, ?_⟩
    rw [d.gate_eq_joinAny, hGates, h.joinAny_disjuncts]
  refine ⟨hParse, ?_, ?_⟩
  · rw [hParse, Except.ok.injEq]
    exact flatten_eq_self_iff
  · rw [flagNames, mentions_flatten, flagNames]

/-- A chain directly in one of its kind, and another such pair under a negation inside it. -/
def nestedChains : Gate :=
  .all [.flag "A", .all [.not (.any [.flag "B", .any [.flag "defined", .never]]), .flag "D"]]

theorem parse_text_nestedChains :
    nestedChains.Regular ∧
      parse "A && !(B || defined || false) && D" =
        .ok (.all [.flag "A", .not (.any [.flag "B", .flag "defined", .never]), .flag "D"]) ∧
      (parse nestedChains.text = .ok nestedChains ↔ nestedChains.Alternating) ∧
      nestedChains.flatten.flagNames = nestedChains.flagNames := by
  have hInner : (Gate.any [.flag "B", .any [.flag "defined", .never]]).Regular := by
    refine .any (by decide) (List.forall_mem_cons.mpr ⟨.flag (by decide) (by decide), ?_⟩)
    refine List.forall_mem_singleton.mpr (.any (by decide) ?_)
    exact List.forall_mem_cons.mpr
      ⟨.flag (by decide) (by decide), List.forall_mem_singleton.mpr .never⟩
  have hOuter : (Gate.all [.not (.any [.flag "B", .any [.flag "defined", .never]]),
      .flag "D"]).Regular := by
    refine .all (by decide) (List.forall_mem_cons.mpr ⟨.not hInner, ?_⟩)
    exact List.forall_mem_singleton.mpr (.flag (by decide) (by decide))
  have hRegular : nestedChains.Regular := by
    refine .all (by decide) (List.forall_mem_cons.mpr ⟨.flag (by decide) (by decide), ?_⟩)
    exact List.forall_mem_singleton.mpr hOuter
  have hText : nestedChains.text = "A && !(B || defined || false) && D" := rfl
  have hFlat : nestedChains.flatten
      = .all [.flag "A", .not (.any [.flag "B", .flag "defined", .never]), .flag "D"] := rfl
  obtain ⟨hParse, hSame, hFlags⟩ := parse_text_eq_flatten hRegular
  rw [← hText, ← hFlat]
  exact ⟨hRegular, hParse, hSame, hFlags⟩

end DeclSurface.Gate
