import DeclSurface.NameMap

/-!
# Gates

A gate is a boolean condition over flags. It guards a fragment, a nested fragment or a
rewrite rule, as an `#ifdef` guards a block of a header.

* `Gate`            — the condition as a tree.
* `Gate.eval`       — its truth value, given which flags are set.
* `Gate.flagNames`  — the flags it mentions.
* `Gate.text`       — its written form, with parentheses only where the tree needs them.

Negation binds tighter than conjunction, and conjunction tighter than disjunction.
-/

namespace DeclSurface

/-- A boolean condition over flags. -/
inductive Gate where
  /-- True whatever the flags. -/
  | always
  /-- False whatever the flags. -/
  | never
  /-- True when the named flag is set. -/
  | flag (name : String)
  /-- True when the operand is false. -/
  | not (operand : Gate)
  /-- True when every operand is true. -/
  | all (operands : List Gate)
  /-- True when some operand is true. -/
  | any (operands : List Gate)
deriving Repr, Inhabited

namespace Gate

/-! ## Equality -/

mutual
/-- Structural equality of gates. -/
def same : Gate → Gate → Bool
  | always, always => true
  | never, never => true
  | flag a, flag b => a == b
  | not a, not b => same a b
  | all as, all bs => sameAll as bs
  | any as, any bs => sameAll as bs
  | _, _ => false

/-- Structural equality of operand lists. -/
def sameAll : List Gate → List Gate → Bool
  | [], [] => true
  | a :: as, b :: bs => same a b && sameAll as bs
  | _, _ => false
end

mutual
theorem eq_of_same : ∀ {a b : Gate}, same a b = true → a = b
  | always, b, h => by cases b <;> simp_all [same]
  | never, b, h => by cases b <;> simp_all [same]
  | flag _, b, h => by cases b <;> simp_all [same]
  | not a, b, h => by
    cases b <;> simp only [same, Bool.false_eq_true] at h
    rw [eq_of_same h]
  | all as, b, h => by
    cases b <;> simp only [same, Bool.false_eq_true] at h
    rw [eq_of_sameAll h]
  | any as, b, h => by
    cases b <;> simp only [same, Bool.false_eq_true] at h
    rw [eq_of_sameAll h]

theorem eq_of_sameAll : ∀ {as bs : List Gate}, sameAll as bs = true → as = bs
  | [], bs, h => by cases bs <;> simp_all [sameAll]
  | a :: as, bs, h => by
    cases bs <;> simp only [sameAll, Bool.false_eq_true, Bool.and_eq_true] at h
    rw [eq_of_same h.1, eq_of_sameAll h.2]
end

mutual
theorem same_self : ∀ a : Gate, same a a = true
  | always => rfl
  | never => rfl
  | flag _ => by simp [same]
  | not a => by rw [same, same_self a]
  | all as => by rw [same, sameAll_self as]
  | any as => by rw [same, sameAll_self as]

theorem sameAll_self : ∀ as : List Gate, sameAll as as = true
  | [] => rfl
  | a :: as => by rw [sameAll, same_self a, sameAll_self as]; rfl
end

instance : DecidableEq Gate := fun a b =>
  if h : same a b = true then isTrue (eq_of_same h)
  else isFalse fun e => h (e ▸ same_self a)

/-! ## Evaluation -/

mutual
/-- The truth value of a gate, where `isSet` says which flags are set. -/
def eval (isSet : String → Bool) : Gate → Bool
  | always => true
  | never => false
  | flag name => isSet name
  | not g => !eval isSet g
  | all gs => evalAll isSet gs
  | any gs => evalAny isSet gs

/-- Whether every gate of a list is true. -/
def evalAll (isSet : String → Bool) : List Gate → Bool
  | [] => true
  | g :: gs => eval isSet g && evalAll isSet gs

/-- Whether some gate of a list is true. -/
def evalAny (isSet : String → Bool) : List Gate → Bool
  | [] => false
  | g :: gs => eval isSet g || evalAny isSet gs
end

theorem evalAll_eq_all (isSet : String → Bool) (gs : List Gate) :
    evalAll isSet gs = gs.all (eval isSet) := by
  induction gs with
  | nil => rfl
  | cons g gs ih => rw [evalAll, ih, List.all_cons]

theorem evalAny_eq_any (isSet : String → Bool) (gs : List Gate) :
    evalAny isSet gs = gs.any (eval isSet) := by
  induction gs with
  | nil => rfl
  | cons g gs ih => rw [evalAny, ih, List.any_cons]

/-- Whether the gate is the one that is always open. -/
def isAlways : Gate → Bool
  | always => true
  | _ => false

/-! ## Flags -/

mutual
/-- The flags a gate mentions, in the order it mentions them. -/
def mentions : Gate → List String
  | always => []
  | never => []
  | flag name => [name]
  | not g => mentions g
  | all gs => mentionsAll gs
  | any gs => mentionsAll gs

/-- The flags a list of gates mentions. -/
def mentionsAll : List Gate → List String
  | [] => []
  | g :: gs => mentions g ++ mentionsAll gs
end

mutual
/-- Only the flags that a gate mentions matter to its truth value. -/
theorem eval_congr {p q : String → Bool} :
    ∀ {g : Gate}, (∀ n ∈ g.mentions, p n = q n) → g.eval p = g.eval q
  | always, _ => rfl
  | never, _ => rfl
  | flag name, h => h name (by simp [mentions])
  | not g, h => by
    have hEval : g.eval p = g.eval q := eval_congr h
    rw [eval, eval, hEval]
  | all gs, h => evalAll_congr h
  | any gs, h => evalAny_congr h

theorem evalAll_congr {p q : String → Bool} :
    ∀ {gs : List Gate}, (∀ n ∈ mentionsAll gs, p n = q n) → evalAll p gs = evalAll q gs
  | [], _ => rfl
  | g :: gs, h => by
    rw [mentionsAll, List.forall_mem_append] at h
    rw [evalAll, evalAll, eval_congr h.1, evalAll_congr h.2]

theorem evalAny_congr {p q : String → Bool} :
    ∀ {gs : List Gate}, (∀ n ∈ mentionsAll gs, p n = q n) → evalAny p gs = evalAny q gs
  | [], _ => rfl
  | g :: gs, h => by
    rw [mentionsAll, List.forall_mem_append] at h
    rw [evalAny, evalAny, eval_congr h.1, evalAny_congr h.2]
end

/-- The set of flags a gate mentions. -/
def flagNames (g : Gate) : NameSet :=
  NameSet.ofNames g.mentions

/-! ## Written form -/

/-- How tightly the written form of a gate binds. -/
def precedence : Gate → Nat
  | any _ => 1
  | all _ => 2
  | _ => 3

/-- The text, in parentheses when `enclose` says so. -/
def parenthesised (enclose : Bool) (text : List Char) : List Char :=
  if enclose then '(' :: (text ++ [')']) else text

mutual
/-- The characters of the written form. -/
def chars : Gate → List Char
  | always => "true".toList
  | never => "false".toList
  | flag name => name.toList
  | not g => '!' :: parenthesised (g.precedence < 3) (chars g)
  | all gs => charsJoined 2 " && ".toList gs
  | any gs => charsJoined 1 " || ".toList gs

/-- The written forms of operands of an operator that binds with strength `p`, joined by it. -/
def charsJoined (p : Nat) (operator : List Char) : List Gate → List Char
  | [] => []
  | [g] => parenthesised (g.precedence < p) (chars g)
  | g :: gs => parenthesised (g.precedence < p) (chars g) ++ operator ++ charsJoined p operator gs
end

/-- The written form of a gate. -/
def text (g : Gate) : String :=
  String.ofList g.chars

example : (Gate.all [.flag "A", .any [.flag "B", .not (.flag "C")]]).text = "A && (B || !C)" := by
  decide +kernel

end Gate

end DeclSurface
