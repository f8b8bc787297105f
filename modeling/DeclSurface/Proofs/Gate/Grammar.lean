import DeclSurface.Gate.Basic
import DeclSurface.Gate.Token
import Mathlib.Data.List.Basic

/-!
# The grammar of gate expressions

The language that gate expressions are written in, as trees. A tree is a derivation: it has the
tokens that it derives, and the gate that it denotes.

* `Disjunction`, `Conjunction`, `Unary`, `Primary` — the four productions.
* `tokens`                     — what a tree derives.
* `gate`                       — what a tree denotes.
* `Disjunction.eq_of_tokens_eq` — a sequence of tokens has one derivation at most.
-/

namespace DeclSurface.Gate

mutual
/-- `or := and (OR and)*` -/
inductive Disjunction where
  | one (operand : Conjunction)
  | more (operand : Conjunction) (rest : Disjunction)

/-- `and := unary (AND unary)*` -/
inductive Conjunction where
  | one (operand : Unary)
  | more (operand : Unary) (rest : Conjunction)

/-- `unary := NOT unary | primary` -/
inductive Unary where
  | not (operand : Unary)
  | plain (operand : Primary)

/-- `primary := '(' or ')' | 'defined' '(' ident ')' | ident` -/
inductive Primary where
  | paren (inner : Disjunction)
  | defined (name : String)
  | word (name : String)
end

/-! ## Derived tokens -/

mutual
/-- The tokens of a chain of alternatives. -/
def Disjunction.tokens : Disjunction → List Token
  | .one c => c.tokens
  | .more c d => c.tokens ++ .or :: d.tokens

/-- The tokens of a chain of conditions. -/
def Conjunction.tokens : Conjunction → List Token
  | .one u => u.tokens
  | .more u c => u.tokens ++ .and :: c.tokens

/-- The tokens of an operand under its negations. -/
def Unary.tokens : Unary → List Token
  | .not u => .not :: u.tokens
  | .plain p => p.tokens

/-- The tokens of an operand. -/
def Primary.tokens : Primary → List Token
  | .paren d => .lparen :: (d.tokens ++ [.rparen])
  | .defined name => [.word "defined", .lparen, .word name, .rparen]
  | .word name => [.word name]
end

/-! ## Denoted gates -/

mutual
/-- A chain of two or more alternatives is one node; a single one leaves none. -/
def Disjunction.gate : Disjunction → Gate
  | .one c => c.gate
  | .more c d => .any (c.gate :: d.gates)

/-- The alternatives of a chain in order. -/
def Disjunction.gates : Disjunction → List Gate
  | .one c => [c.gate]
  | .more c d => c.gate :: d.gates

/-- A chain of two or more conditions is one node; a single one leaves none. -/
def Conjunction.gate : Conjunction → Gate
  | .one u => u.gate
  | .more u c => .all (u.gate :: c.gates)

/-- The conditions of a chain in order. -/
def Conjunction.gates : Conjunction → List Gate
  | .one u => [u.gate]
  | .more u c => u.gate :: c.gates

/-- Every negation is a node. -/
def Unary.gate : Unary → Gate
  | .not u => .not u.gate
  | .plain p => p.gate

/-- Parentheses leave no node; `true` and `false` on their own are no flags. -/
def Primary.gate : Primary → Gate
  | .paren d => d.gate
  | .defined name => .flag name
  | .word name => if name = "true" then .always else if name = "false" then .never else .flag name
end

/-! ## One derivation at most -/

/-- The tokens `us` do not start with one of `ts`. -/
def Avoids (ts us : List Token) : Prop :=
  ∀ u ∈ us.head?, u ∉ ts

section Avoids

variable {ts ts' us : List Token} {u : Token}

@[simp] theorem avoids_cons : Avoids ts (u :: us) ↔ u ∉ ts := by
  simp [Avoids]

theorem Avoids.mono (h : Avoids ts us) (hSub : ts' ⊆ ts) : Avoids ts' us :=
  fun u hu hMem => h u hu (hSub hMem)

end Avoids

theorem Primary.tokens_append_ne_not (p : Primary) (ts us : List Token) :
    p.tokens ++ ts ≠ .not :: us := by
  cases p <;> simp [Primary.tokens]

mutual
/--
The tokens of a derivation end where they end: what follows a chain of alternatives is neither an
operator nor a parenthesis that `defined` would take in.
-/
theorem Disjunction.eq_of_append_eq : ∀ {d e : Disjunction} {ts us : List Token},
    Avoids [.lparen, .and, .or] ts → Avoids [.lparen, .and, .or] us →
    d.tokens ++ ts = e.tokens ++ us → d = e ∧ ts = us
  | .one c, .one c', ts, us, ht, hu, h => by
    rw [Disjunction.tokens, Disjunction.tokens] at h
    obtain ⟨rfl, hEq⟩ := c.eq_of_append_eq (ht.mono (by simp)) (hu.mono (by simp)) h
    exact ⟨rfl, hEq⟩
  | .one c, .more c' e, ts, us, ht, _, h => by
    rw [Disjunction.tokens, Disjunction.tokens, List.append_assoc, List.cons_append] at h
    obtain ⟨-, rfl⟩ := c.eq_of_append_eq (ht.mono (by simp)) (by simp) h
    exact absurd (by simp) (avoids_cons.mp ht)
  | .more c d, .one c', ts, us, _, hu, h => by
    rw [Disjunction.tokens, Disjunction.tokens, List.append_assoc, List.cons_append] at h
    obtain ⟨-, rfl⟩ := c.eq_of_append_eq (by simp) (hu.mono (by simp)) h
    exact absurd (by simp) (avoids_cons.mp hu)
  | .more c d, .more c' e, ts, us, ht, hu, h => by
    rw [Disjunction.tokens, Disjunction.tokens, List.append_assoc, List.append_assoc,
      List.cons_append, List.cons_append] at h
    obtain ⟨rfl, hRest⟩ := c.eq_of_append_eq (by simp) (by simp) h
    obtain ⟨rfl, hEq⟩ := d.eq_of_append_eq ht hu (List.cons.inj hRest).2
    exact ⟨rfl, hEq⟩

theorem Conjunction.eq_of_append_eq : ∀ {c c' : Conjunction} {ts us : List Token},
    Avoids [.lparen, .and] ts → Avoids [.lparen, .and] us →
    c.tokens ++ ts = c'.tokens ++ us → c = c' ∧ ts = us
  | .one u, .one u', ts, us, ht, hu, h => by
    rw [Conjunction.tokens, Conjunction.tokens] at h
    obtain ⟨rfl, hEq⟩ := u.eq_of_append_eq (ht.mono (by simp)) (hu.mono (by simp)) h
    exact ⟨rfl, hEq⟩
  | .one u, .more u' c', ts, us, ht, _, h => by
    rw [Conjunction.tokens, Conjunction.tokens, List.append_assoc, List.cons_append] at h
    obtain ⟨-, rfl⟩ := u.eq_of_append_eq (ht.mono (by simp)) (by simp) h
    exact absurd (by simp) (avoids_cons.mp ht)
  | .more u c, .one u', ts, us, _, hu, h => by
    rw [Conjunction.tokens, Conjunction.tokens, List.append_assoc, List.cons_append] at h
    obtain ⟨-, rfl⟩ := u.eq_of_append_eq (by simp) (hu.mono (by simp)) h
    exact absurd (by simp) (avoids_cons.mp hu)
  | .more u c, .more u' c', ts, us, ht, hu, h => by
    rw [Conjunction.tokens, Conjunction.tokens, List.append_assoc, List.append_assoc,
      List.cons_append, List.cons_append] at h
    obtain ⟨rfl, hRest⟩ := u.eq_of_append_eq (by simp) (by simp) h
    obtain ⟨rfl, hEq⟩ := c.eq_of_append_eq ht hu (List.cons.inj hRest).2
    exact ⟨rfl, hEq⟩

theorem Unary.eq_of_append_eq : ∀ {u u' : Unary} {ts us : List Token},
    Avoids [.lparen] ts → Avoids [.lparen] us →
    u.tokens ++ ts = u'.tokens ++ us → u = u' ∧ ts = us
  | .not u, .not u', ts, us, ht, hu, h => by
    rw [Unary.tokens, Unary.tokens, List.cons_append, List.cons_append] at h
    obtain ⟨rfl, hEq⟩ := u.eq_of_append_eq ht hu (List.cons.inj h).2
    exact ⟨rfl, hEq⟩
  | .not u, .plain p, ts, us, _, _, h => by
    rw [Unary.tokens, Unary.tokens, List.cons_append] at h
    exact absurd h.symm (p.tokens_append_ne_not us _)
  | .plain p, .not u, ts, us, _, _, h => by
    rw [Unary.tokens, Unary.tokens, List.cons_append] at h
    exact absurd h (p.tokens_append_ne_not ts _)
  | .plain p, .plain p', ts, us, ht, hu, h => by
    rw [Unary.tokens, Unary.tokens] at h
    obtain ⟨rfl, hEq⟩ := p.eq_of_append_eq ht hu h
    exact ⟨rfl, hEq⟩

theorem Primary.eq_of_append_eq : ∀ {p p' : Primary} {ts us : List Token},
    Avoids [.lparen] ts → Avoids [.lparen] us →
    p.tokens ++ ts = p'.tokens ++ us → p = p' ∧ ts = us
  | .paren d, .paren e, ts, us, _, _, h => by
    simp only [Primary.tokens, List.cons_append, List.append_assoc, List.nil_append,
      List.cons.injEq, true_and] at h
    obtain ⟨rfl, hEq⟩ := d.eq_of_append_eq (by simp) (by simp) h
    exact ⟨rfl, (List.cons.inj hEq).2⟩
  | .defined n, .defined m, ts, us, _, _, h => by
    simp only [Primary.tokens, List.cons_append, List.nil_append, List.cons.injEq, Token.word.injEq,
      true_and] at h
    obtain ⟨rfl, rfl⟩ := h
    exact ⟨rfl, rfl⟩
  | .word n, .word m, ts, us, _, _, h => by
    simp only [Primary.tokens, List.cons_append, List.nil_append, List.cons.injEq,
      Token.word.injEq] at h
    obtain ⟨rfl, rfl⟩ := h
    exact ⟨rfl, rfl⟩
  | .defined n, .word m, ts, us, _, hu, h => by
    -- a word is not followed by a parenthesis
    simp only [Primary.tokens, List.cons_append, List.nil_append, List.cons.injEq] at h
    rw [← h.2] at hu
    exact absurd List.mem_cons_self (avoids_cons.mp hu)
  | .word n, .defined m, ts, us, ht, _, h => by
    simp only [Primary.tokens, List.cons_append, List.nil_append, List.cons.injEq] at h
    rw [h.2] at ht
    exact absurd List.mem_cons_self (avoids_cons.mp ht)
  | .paren _, .defined _, _, _, _, _, h => by simp [Primary.tokens] at h
  | .paren _, .word _, _, _, _, _, h => by simp [Primary.tokens] at h
  | .defined _, .paren _, _, _, _, _, h => by simp [Primary.tokens] at h
  | .word _, .paren _, _, _, _, _, h => by simp [Primary.tokens] at h
end

/-- A sequence of tokens has one derivation at most. -/
theorem Disjunction.eq_of_tokens_eq {d e : Disjunction} (h : d.tokens = e.tokens) : d = e := by
  have hEnd : Avoids [.lparen, .and, .or] [] := by simp [Avoids]
  rw [← List.append_nil d.tokens, ← List.append_nil e.tokens] at h
  exact (eq_of_append_eq hEnd hEnd h).1

end DeclSurface.Gate
