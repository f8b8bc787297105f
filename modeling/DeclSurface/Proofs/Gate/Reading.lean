import DeclSurface.Gate.Reader
import DeclSurface.Proofs.Gate.Grammar
import DeclSurface.Proofs.Gate.Lexing
import DeclSurface.Proofs.Outcome

/-!
# Reading is deriving

The reader takes tokens one by one and never looks back; the grammar says nothing about any order.
They agree: whatever is derived is read, with the gate that the derivation denotes, and whatever is
read is derived.

* `Reader.feed`            — a reader after some tokens.
* `feed_disjunction`       — a derivation is read.
* `Level.AwaitsOperand`, `Level.AwaitsOperator` — which trees a level has read.
* `Reader.Holds`           — the invariant of a reader, and `holds_step` that every token keeps it.
* `parse_iff_derived`      — a text denotes the gates that the grammar gives it, and no others.
-/

namespace DeclSurface.Gate

/-! ## Gates of chains -/

theorem Disjunction.gates_ne_nil (d : Disjunction) : d.gates ≠ [] := by
  cases d <;> simp [Disjunction.gates]

theorem Conjunction.gates_ne_nil (c : Conjunction) : c.gates ≠ [] := by
  cases c <;> simp [Conjunction.gates]

theorem Disjunction.gate_eq_joinAny (d : Disjunction) : d.gate = joinAny d.gates := by
  cases d with
  | one c => rfl
  | more c d =>
    obtain ⟨g, gs, hGates⟩ := List.exists_cons_of_ne_nil d.gates_ne_nil
    rw [gate, gates, hGates, joinAny]
    simp

theorem Conjunction.gate_eq_joinAll (c : Conjunction) : c.gate = joinAll c.gates := by
  cases c with
  | one u => rfl
  | more u c =>
    obtain ⟨g, gs, hGates⟩ := List.exists_cons_of_ne_nil c.gates_ne_nil
    rw [gate, gates, hGates, joinAll]
    simp

theorem negated_not (n : Nat) (g : Gate) : negated n (.not g) = negated (n + 1) g := by
  induction n with
  | zero => rfl
  | succ n ih =>
    show Gate.not (negated n (.not g)) = .not (negated (n + 1) g)
    rw [ih]

/-! ## Readers -/

namespace Reader

variable {r q : Reader} {t : Token} {ts us : List Token} {g : Gate}

/-- The reader after some tokens, or what should have come in the place of one of them. -/
def feed (r : Reader) : List Token → Except Expected Reader
  | [] => .ok r
  | t :: ts => do
    let q ← r.step t
    q.feed ts

theorem feed_append (r : Reader) (ts us : List Token) :
    r.feed (ts ++ us) = r.feed ts >>= fun q => q.feed us := by
  induction ts generalizing r with
  | nil => rfl
  | cons t ts ih =>
    rw [List.cons_append, feed, feed]
    cases r.step t with
    | error e => rfl
    | ok q => exact ih q

theorem run_eq_ok_iff {ps : List Token.Placed} :
    r.run ps = .ok g ↔ ∃ q, r.feed (ps.map (·.token)) = .ok q ∧ q.finish = .ok g := by
  induction ps generalizing r with
  | nil =>
    simp only [run, List.map_nil, feed, Except.ok.injEq, exists_eq_left']
    cases r.finish <;> simp
  | cons p ps ih =>
    rw [run, List.map_cons, feed]
    cases r.step p.token with
    | error e => simp [bind, Except.bind]
    | ok q => exact ih

/-- The reader without the choice that the word `defined` leaves open. -/
def settled (r : Reader) : Reader :=
  match r.phase with
  | .defined => r.place (.flag "defined")
  | _ => r

theorem step_settled (ht : t ≠ .lparen) : r.settled.step t = r.step t := by
  unfold settled
  cases hPhase : r.phase with
  | defined =>
    show (r.place (.flag "defined")).stepOperator t = r.step t
    unfold step
    rw [hPhase]
    exact (if_neg ht).symm
  | _ => rfl

theorem finish_settled : r.settled.finish = r.finish := by
  unfold settled
  cases hPhase : r.phase with
  | defined =>
    show finish.complete (r.place (.flag "defined")) = r.finish
    rw [finish, hPhase]
  | _ => rfl

theorem feed_cons (h : r.step t = .ok q) : r.feed (t :: ts) = q.feed ts := by
  rw [feed, h, ok_bind]

/-- A token other than `(` is taken after the choice is made. -/
theorem feed_cons_of_settled (ht : t ≠ .lparen) (h : r.settled.step t = .ok q) :
    r.feed (t :: ts) = q.feed ts := by
  rw [step_settled ht] at h
  exact feed_cons h

theorem feed_append_of_ok (h : r.feed ts = .ok q) : r.feed (ts ++ us) = q.feed us := by
  rw [feed_append, h, ok_bind]

/-! ## What is derived is read -/

mutual
/-- A chain of alternatives is read into a level that denotes it. -/
theorem feed_disjunction (outer : List Level) : ∀ (d : Disjunction) (disjuncts : List Gate),
    ∃ q level, feed ⟨outer, ⟨disjuncts, [], 0⟩, .operand⟩ d.tokens = .ok q ∧
      q.settled = ⟨outer, level, .operator⟩ ∧ level.gate = joinAny (disjuncts ++ d.gates)
  | .one c, disjuncts => by
    obtain ⟨q, hFeed, hSettled⟩ := feed_conjunction outer c disjuncts []
    refine ⟨q, _, by rw [Disjunction.tokens, hFeed], hSettled, ?_⟩
    rw [Level.gate, List.nil_append, ← c.gate_eq_joinAll, Disjunction.gates]
  | .more c d, disjuncts => by
    obtain ⟨q, hFeed, hSettled⟩ := feed_conjunction outer c disjuncts []
    obtain ⟨q', level, hFeed', hSettled', hGate⟩ :=
      feed_disjunction outer d (disjuncts ++ [joinAll c.gates])
    refine ⟨q', level, ?_, hSettled', ?_⟩
    · rw [Disjunction.tokens, feed_append_of_ok hFeed,
        feed_cons_of_settled (by simp) (by rw [hSettled]; rfl)]
      exact hFeed'
    · rw [hGate, ← c.gate_eq_joinAll, Disjunction.gates, List.append_assoc,
        List.singleton_append]

/-- A chain of conditions is read into the conjunction of its level. -/
theorem feed_conjunction (outer : List Level) :
    ∀ (c : Conjunction) (disjuncts conjuncts : List Gate),
      ∃ q, feed ⟨outer, ⟨disjuncts, conjuncts, 0⟩, .operand⟩ c.tokens = .ok q ∧
        q.settled = ⟨outer, ⟨disjuncts, conjuncts ++ c.gates, 0⟩, .operator⟩
  | .one u, disjuncts, conjuncts => feed_unary outer u ⟨disjuncts, conjuncts, 0⟩
  | .more u c, disjuncts, conjuncts => by
    obtain ⟨q, hFeed, hSettled⟩ := feed_unary outer u ⟨disjuncts, conjuncts, 0⟩
    obtain ⟨q', hFeed', hSettled'⟩ := feed_conjunction outer c disjuncts (conjuncts ++ [u.gate])
    refine ⟨q', ?_, ?_⟩
    · rw [Conjunction.tokens, feed_append_of_ok hFeed,
        feed_cons_of_settled (by simp) (by rw [hSettled]; rfl)]
      exact hFeed'
    · rw [hSettled', Conjunction.gates, List.append_assoc, List.singleton_append]

/-- An operand is placed under the negations of its level and its own. -/
theorem feed_unary (outer : List Level) : ∀ (u : Unary) (level : Level),
    ∃ q, feed ⟨outer, level, .operand⟩ u.tokens = .ok q ∧
      q.settled = ⟨outer, level.place u.gate, .operator⟩
  | .not u, level => by
    obtain ⟨q, hFeed, hSettled⟩ :=
      feed_unary outer u { level with negations := level.negations + 1 }
    refine ⟨q, by rw [Unary.tokens, feed_cons rfl, hFeed], ?_⟩
    rw [hSettled, Level.place, Level.place, Unary.gate, negated_not]
  | .plain p, level => feed_primary outer p level

theorem feed_primary (outer : List Level) : ∀ (p : Primary) (level : Level),
    ∃ q, feed ⟨outer, level, .operand⟩ p.tokens = .ok q ∧
      q.settled = ⟨outer, level.place p.gate, .operator⟩
  | .paren d, level => by
    obtain ⟨q, inner, hFeed, hSettled, hGate⟩ := feed_disjunction (level :: outer) d []
    have hStep : q.settled.step .rparen = .ok ⟨outer, level.place d.gate, .operator⟩ := by
      rw [hSettled, d.gate_eq_joinAny, ← List.nil_append d.gates, ← hGate]
      rfl
    refine ⟨⟨outer, level.place d.gate, .operator⟩, ?_, rfl⟩
    rw [Primary.tokens, feed_cons rfl, feed_append_of_ok hFeed,
      feed_cons_of_settled (by simp) hStep, feed]
  | .defined n, level => ⟨_, rfl, rfl⟩
  | .word n, level => by
    by_cases hDefined : n = "defined"
    · subst hDefined
      exact ⟨_, rfl, rfl⟩
    · have hStep : step ⟨outer, level, .operand⟩ (.word n)
          = .ok ⟨outer, level.place (ofWord n), .operator⟩ := if_neg hDefined
      refine ⟨⟨outer, level.place (ofWord n), .operator⟩, ?_, rfl⟩
      rw [Primary.tokens, feed_cons hStep, feed]
end

end Reader

/-! ## What is read is derived -/

/-- The conditions `us` and then `u` as a chain. -/
def Conjunction.ofList : List Unary → Unary → Conjunction
  | [], u => .one u
  | v :: us, u => .more v (ofList us u)

/-- The alternatives `cs` and then `c` as a chain. -/
def Disjunction.ofList : List Conjunction → Conjunction → Disjunction
  | [], c => .one c
  | b :: cs, c => .more b (ofList cs c)

/-- An operand under a number of negations. -/
def Unary.negated : Nat → Primary → Unary
  | 0, p => .plain p
  | n + 1, p => .not (negated n p)

section Chains

variable (us : List Unary) (u : Unary) (cs : List Conjunction) (c : Conjunction) (n : Nat)
  (p : Primary)

theorem Conjunction.tokens_ofList :
    (ofList us u).tokens = us.flatMap (fun v => v.tokens ++ [.and]) ++ u.tokens := by
  induction us with
  | nil => rfl
  | cons v us ih => simp [ofList, tokens, ih]

theorem Conjunction.gates_ofList : (ofList us u).gates = us.map Unary.gate ++ [u.gate] := by
  induction us with
  | nil => rfl
  | cons v us ih => simp [ofList, gates, ih]

theorem Disjunction.tokens_ofList :
    (ofList cs c).tokens = cs.flatMap (fun b => b.tokens ++ [.or]) ++ c.tokens := by
  induction cs with
  | nil => rfl
  | cons b cs ih => simp [ofList, tokens, ih]

theorem Disjunction.gates_ofList :
    (ofList cs c).gates = cs.map Conjunction.gate ++ [c.gate] := by
  induction cs with
  | nil => rfl
  | cons b cs ih => simp [ofList, gates, ih]

theorem Unary.tokens_negated : (negated n p).tokens = List.replicate n .not ++ p.tokens := by
  induction n with
  | zero => rfl
  | succ n ih => rw [negated, tokens, ih, List.replicate_succ, List.cons_append]

theorem Unary.gate_negated : (negated n p).gate = Gate.negated n p.gate := by
  induction n with
  | zero => rfl
  | succ n ih => rw [negated, gate, ih, Gate.negated]

end Chains

namespace Level

variable {l : Level} {ts : List Token}

/-- The tokens of complete alternatives and conditions, each with its operator. -/
def completed (cs : List Conjunction) (us : List Unary) : List Token :=
  cs.flatMap (fun c => c.tokens ++ [.or]) ++ us.flatMap (fun u => u.tokens ++ [.and])

/-- The level has read the tokens `ts`, and an operand must come. -/
def AwaitsOperand (ts : List Token) (l : Level) : Prop :=
  ∃ (cs : List Conjunction) (us : List Unary), l.disjuncts = cs.map Conjunction.gate ∧
    l.conjuncts = us.map Unary.gate ∧
    ts = completed cs us ++ List.replicate l.negations .not

/-- The level has read the tokens `ts`, the last of which complete an operand. -/
def AwaitsOperator (ts : List Token) (l : Level) : Prop :=
  ∃ (cs : List Conjunction) (us : List Unary) (u : Unary), l.disjuncts = cs.map Conjunction.gate ∧
    l.conjuncts = us.map Unary.gate ++ [u.gate] ∧ l.negations = 0 ∧
    ts = completed cs us ++ u.tokens

theorem awaitsOperand_nil : AwaitsOperand [] {} :=
  ⟨[], [], rfl, rfl, rfl⟩

theorem AwaitsOperand.not (h : AwaitsOperand ts l) :
    AwaitsOperand (ts ++ [.not]) { l with negations := l.negations + 1 } := by
  obtain ⟨cs, us, hDisjuncts, hConjuncts, rfl⟩ := h
  refine ⟨cs, us, hDisjuncts, hConjuncts, ?_⟩
  rw [List.replicate_succ', List.append_assoc]

theorem AwaitsOperand.place (h : AwaitsOperand ts l) (p : Primary) :
    AwaitsOperator (ts ++ p.tokens) (l.place p.gate) := by
  obtain ⟨cs, us, hDisjuncts, hConjuncts, rfl⟩ := h
  refine ⟨cs, us, Unary.negated l.negations p, hDisjuncts, ?_, rfl, ?_⟩
  · rw [Level.place, hConjuncts, Unary.gate_negated]
  · rw [Unary.tokens_negated, List.append_assoc]

theorem AwaitsOperator.and (h : AwaitsOperator ts l) : AwaitsOperand (ts ++ [.and]) l := by
  obtain ⟨cs, us, u, hDisjuncts, hConjuncts, hNegations, rfl⟩ := h
  refine ⟨cs, us ++ [u], hDisjuncts, by rw [hConjuncts, List.map_append]; rfl, ?_⟩
  rw [hNegations, completed, completed]
  simp

theorem AwaitsOperator.or (h : AwaitsOperator ts l) :
    AwaitsOperand (ts ++ [.or]) l.alternative := by
  obtain ⟨cs, us, u, hDisjuncts, hConjuncts, hNegations, rfl⟩ := h
  refine ⟨cs ++ [Conjunction.ofList us u], [], ?_, rfl, ?_⟩
  · rw [alternative, hDisjuncts, hConjuncts, List.map_append, List.map_singleton,
      Conjunction.gate_eq_joinAll, Conjunction.gates_ofList]
  · have hZero : l.alternative.negations = 0 := hNegations
    rw [hZero, completed, completed]
    simp [Conjunction.tokens_ofList]

/-- What a level has read up to a complete operand is a derivation of its gate. -/
theorem AwaitsOperator.exists_disjunction (h : AwaitsOperator ts l) :
    ∃ d : Disjunction, d.tokens = ts ∧ d.gate = l.gate := by
  obtain ⟨cs, us, u, hDisjuncts, hConjuncts, -, rfl⟩ := h
  refine ⟨Disjunction.ofList cs (Conjunction.ofList us u), ?_, ?_⟩
  · rw [Disjunction.tokens_ofList, Conjunction.tokens_ofList, completed, List.append_assoc]
  · rw [Disjunction.gate_eq_joinAny, Disjunction.gates_ofList, Conjunction.gate_eq_joinAll,
      Conjunction.gates_ofList, Level.gate, hDisjuncts, hConjuncts]

end Level

namespace Reader

variable {r q : Reader} {l : Level} {ls : List Level} {t : Token} {ts us : List Token} {g : Gate}

/-- The levels outside have read the tokens `ts`, up to the parenthesis that is open. -/
inductive Encloses : List Token → List Level → Prop where
  | nil : Encloses [] []
  | cons {ts us : List Token} {l : Level} {ls : List Level} (hOuter : Encloses ts ls)
      (hLevel : l.AwaitsOperand us) : Encloses (ts ++ us ++ [.lparen]) (l :: ls)

/-- What the tokens since the last complete operator or parenthesis say of a level. -/
def PhaseHolds (us : List Token) (l : Level) : Phase → Prop
  | .operand => l.AwaitsOperand us
  | .operator => l.AwaitsOperator us
  | .defined => ∃ vs, us = vs ++ [.word "defined"] ∧ l.AwaitsOperand vs
  | .definedName => ∃ vs, us = vs ++ [.word "defined", .lparen] ∧ l.AwaitsOperand vs
  | .definedClose n =>
    ∃ vs, us = vs ++ [.word "defined", .lparen, .word n] ∧ l.AwaitsOperand vs

/-- The reader has read the tokens `ts`. -/
def Holds (ts : List Token) (r : Reader) : Prop :=
  ∃ outer inner, ts = outer ++ inner ∧ Encloses outer r.outer ∧
    PhaseHolds inner r.level r.phase

theorem holds_nil : Holds [] {} :=
  ⟨[], [], rfl, .nil, Level.awaitsOperand_nil⟩

theorem Holds.settled (h : Holds ts r) : Holds ts r.settled := by
  obtain ⟨outer, inner, rfl, hOuter, hInner⟩ := h
  unfold Reader.settled
  cases hPhase : r.phase with
  | defined =>
    rw [hPhase] at hInner
    obtain ⟨vs, rfl, hLevel⟩ := hInner
    exact ⟨outer, _, rfl, hOuter, hLevel.place (.word "defined")⟩
  | _ => exact ⟨outer, inner, rfl, hOuter, hInner⟩

theorem holds_stepOperand (h : Holds ts ⟨ls, l, .operand⟩)
    (hStep : stepOperand ⟨ls, l, .operand⟩ t = .ok q) : Holds (ts ++ [t]) q := by
  obtain ⟨outer, inner, rfl, hOuter, hInner⟩ := h
  rw [List.append_assoc]
  cases t with
  | not =>
    obtain rfl := Except.ok.inj hStep
    exact ⟨outer, _, rfl, hOuter, Level.AwaitsOperand.not hInner⟩
  | lparen =>
    obtain rfl := Except.ok.inj hStep
    exact ⟨outer ++ inner ++ [.lparen], [], by simp, .cons hOuter hInner,
      Level.awaitsOperand_nil⟩
  | word w =>
    by_cases hDefined : w = "defined"
    · rw [stepOperand, if_pos hDefined] at hStep
      obtain rfl := Except.ok.inj hStep
      exact ⟨outer, _, rfl, hOuter, inner, by rw [hDefined], hInner⟩
    · rw [stepOperand, if_neg hDefined] at hStep
      obtain rfl := Except.ok.inj hStep
      exact ⟨outer, _, rfl, hOuter, Level.AwaitsOperand.place hInner (.word w)⟩
  | and | or | rparen => exact absurd hStep (by simp [stepOperand])

theorem holds_stepOperator (h : Holds ts ⟨ls, l, .operator⟩)
    (hStep : stepOperator ⟨ls, l, .operator⟩ t = .ok q) : Holds (ts ++ [t]) q := by
  obtain ⟨outer, inner, rfl, hOuter, hInner⟩ := h
  rw [List.append_assoc]
  cases t with
  | and =>
    obtain rfl := Except.ok.inj hStep
    exact ⟨outer, _, rfl, hOuter, Level.AwaitsOperator.and hInner⟩
  | or =>
    obtain rfl := Except.ok.inj hStep
    exact ⟨outer, _, rfl, hOuter, Level.AwaitsOperator.or hInner⟩
  | rparen =>
    cases hOuter with
    | nil => exact absurd hStep (by simp [stepOperator])
    | @cons ts us l' ls hOuter hLevel =>
      -- what stands in the parentheses is an operand of the level around them
      obtain rfl := Except.ok.inj hStep
      obtain ⟨d, rfl, hGate⟩ := Level.AwaitsOperator.exists_disjunction hInner
      refine ⟨ts, us ++ (Primary.paren d).tokens, by simp [Primary.tokens], hOuter, ?_⟩
      show (l'.place l.gate).AwaitsOperator _
      rw [← hGate]
      exact hLevel.place (.paren d)
  | not | lparen | word => exact absurd hStep (by simp [stepOperator])

/-- Every token that is taken keeps the invariant. -/
theorem holds_step (h : Holds ts r) (hStep : r.step t = .ok q) : Holds (ts ++ [t]) q := by
  obtain ⟨ls, l, phase⟩ := r
  cases phase with
  | operand => exact holds_stepOperand h hStep
  | operator => exact holds_stepOperator h hStep
  | defined =>
    by_cases ht : t = .lparen
    · obtain ⟨outer, inner, rfl, hOuter, vs, rfl, hLevel⟩ := h
      subst ht
      obtain rfl := Except.ok.inj hStep
      exact ⟨outer, vs ++ [.word "defined", .lparen], by simp, hOuter, vs, rfl, hLevel⟩
    · rw [← step_settled ht] at hStep
      exact holds_stepOperator h.settled hStep
  | definedName =>
    obtain ⟨outer, inner, rfl, hOuter, vs, rfl, hLevel⟩ := h
    cases t with
    | word w =>
      obtain rfl := Except.ok.inj hStep
      exact ⟨outer, vs ++ [.word "defined", .lparen, .word w], by simp, hOuter, vs, rfl, hLevel⟩
    | _ => exact absurd hStep (by simp [step])
  | definedClose n =>
    obtain ⟨outer, inner, rfl, hOuter, vs, rfl, hLevel⟩ := h
    by_cases ht : t = .rparen
    · subst ht
      obtain rfl := Except.ok.inj hStep
      exact ⟨outer, vs ++ (Primary.defined n).tokens, by simp [Primary.tokens], hOuter,
        hLevel.place (.defined n)⟩
    · exact absurd hStep (by simp [step, ht])

theorem holds_feed (h : Holds ts r) (hFeed : r.feed us = .ok q) : Holds (ts ++ us) q := by
  induction us generalizing ts r with
  | nil =>
    obtain rfl := Except.ok.inj hFeed
    rw [List.append_nil]
    exact h
  | cons t us ih =>
    rw [feed, bind_eq_ok_iff] at hFeed
    obtain ⟨r', hStep, hRest⟩ := hFeed
    have hHolds := ih (holds_step h hStep) hRest
    rw [List.append_assoc, List.singleton_append] at hHolds
    exact hHolds

theorem Holds.exists_of_complete (h : Holds ts ⟨ls, l, .operator⟩)
    (hComplete : finish.complete ⟨ls, l, .operator⟩ = .ok g) :
    ∃ d : Disjunction, d.tokens = ts ∧ d.gate = g := by
  obtain ⟨outer, inner, rfl, hOuter, hInner⟩ := h
  cases hOuter with
  | nil =>
    obtain rfl := Except.ok.inj hComplete
    exact Level.AwaitsOperator.exists_disjunction hInner
  | cons _ _ => exact absurd hComplete (by simp [finish.complete])

/-- Where the tokens may end, they are a derivation of the gate that is given. -/
theorem Holds.exists_disjunction (h : Holds ts r) (hFinish : r.finish = .ok g) :
    ∃ d : Disjunction, d.tokens = ts ∧ d.gate = g := by
  obtain ⟨ls, l, phase⟩ := r
  cases phase with
  | operator => exact h.exists_of_complete hFinish
  | defined => exact h.settled.exists_of_complete hFinish
  | operand | definedName | definedClose => exact absurd hFinish (by simp [finish])

/-- The reader gives a gate to the tokens that have a derivation, namely the gate it denotes. -/
theorem run_iff_derived {ps : List Token.Placed} :
    run {} ps = .ok g ↔ ∃ d : Disjunction, d.tokens = ps.map (·.token) ∧ d.gate = g := by
  rw [run_eq_ok_iff]
  constructor
  · rintro ⟨q, hFeed, hFinish⟩
    exact (holds_feed holds_nil hFeed).exists_disjunction hFinish
  · rintro ⟨d, hTokens, rfl⟩
    obtain ⟨q, level, hFeed, hSettled, hGate⟩ := feed_disjunction [] d []
    refine ⟨q, by rw [← hTokens]; exact hFeed, ?_⟩
    rw [← finish_settled, hSettled, d.gate_eq_joinAny, ← List.nil_append d.gates, ← hGate]
    rfl

end Reader

/-! ## Texts -/

theorem ofTokens_eq_run {ps : List Token.Placed} {g : Gate} :
    ofTokens ps = .ok g ↔ Reader.run {} ps = .ok g := by
  cases ps with
  | nil => exact iff_of_false (by simp [ofTokens]) (by simp [Reader.run, Reader.finish])
  | cons p ps => exact Iff.rfl

theorem parseChars_eq_ok_iff {cs : List Char} {g : Gate} :
    parseChars cs = .ok g ↔ ∃ d : Disjunction, Lexes cs d.tokens ∧ d.gate = g := by
  simp only [lexes_iff_scan]
  unfold parseChars
  cases Token.scan cs with
  | error e => simp
  | ok ps =>
    simp only [ofTokens_eq_run, Reader.run_iff_derived, Except.ok.injEq, exists_eq_left']
    simp only [eq_comm]

/--
A text denotes the gate of its derivation from the grammar: the longest-match reading of the text
into tokens is the only one, a sequence of tokens has one derivation at most, and there is an error
exactly where one of the two is missing.
-/
theorem parse_iff_derived (s : String) :
    (∀ g, parse s = .ok g ↔
      ∃ ts, Lexes s.toList ts ∧ ∃ d : Disjunction, d.tokens = ts ∧ d.gate = g) ∧
    (∀ ts us, Lexes s.toList ts → Lexes s.toList us → ts = us) ∧
    (∀ d e : Disjunction, d.tokens = e.tokens → d = e) ∧
    ((∃ e, parse s = .error e) ↔
      ¬ ∃ ts, Lexes s.toList ts ∧ ∃ d : Disjunction, d.tokens = ts) := by
  have hParse (g : Gate) : parse s = .ok g ↔
      ∃ ts, Lexes s.toList ts ∧ ∃ d : Disjunction, d.tokens = ts ∧ d.gate = g := by
    rw [parse, parseChars_eq_ok_iff]
    constructor
    · rintro ⟨d, hLexes, hGate⟩
      exact ⟨_, hLexes, d, rfl, hGate⟩
    · rintro ⟨_, hLexes, d, rfl, hGate⟩
      exact ⟨d, hLexes, hGate⟩
  refine ⟨hParse, fun ts us => Lexes.unique, fun d e => Disjunction.eq_of_tokens_eq, ?_⟩
  cases hResult : parse s with
  | error e =>
    refine iff_of_true ⟨e, rfl⟩ ?_
    rintro ⟨ts, hLexes, d, hTokens⟩
    have hOk := (hParse d.gate).mpr ⟨ts, hLexes, d, hTokens, rfl⟩
    rw [hResult] at hOk
    exact absurd hOk (by simp)
  | ok g =>
    obtain ⟨ts, hLexes, d, hTokens, -⟩ := (hParse g).mp hResult
    exact iff_of_false (by simp) (not_not_intro ⟨ts, hLexes, d, hTokens⟩)

end DeclSurface.Gate
