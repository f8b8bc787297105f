import DeclSurface.Proofs.Composition.Reach
import DeclSurface.Proofs.Rewrite.Stack

/-!
# Scripts

Placing fragments walks their trees. A script is that walk written out: a list of actions, in
which nesting is left only as matching ends. What holds of a composition is proved of one action
at a time, and from there of every script.

* `Action`, `Progress.perform` — the actions, and what a list of them does.
* `Plan.script`                — the walk of a fragment.
* `perform_invariant`          — what every action keeps, a script keeps.
* `place_eq_perform`           — placing a fragment is performing its script.
* `compose_eq_perform`         — composition as one script.
-/

namespace DeclSurface

/-- One action of a walk. -/
inductive Action where
  /-- Begins the rules of a fragment and enters its name. -/
  | enter (fragment : String) (rules : List RewriteRule)
  /-- Collects an item for a fragment. -/
  | collect (fragment : String) (item : Item)
  /-- Ends a number of rewrites. -/
  | leave (count : Nat)

namespace Progress

/-- The progress before anything is placed. -/
def start (flags : FlagSet) : Progress :=
  { engine := .ofBaseline flags.baseline }

/-- What one action does. -/
def act (p : Progress) : Action → Except ComposeError Progress
  | .enter fragment rules => do
    let engine ← p.stamp.engine.applyAll fragment rules
    .ok { engine, collected := p.collected.enter fragment }
  | .collect fragment item => do
    let collected ← p.collected.add fragment item
    .ok { p with collected }
  | .leave count => .ok { p with engine := Engine.endMany count p.stamp.engine }

/-- What a list of actions does. -/
def perform (p : Progress) : List Action → Except ComposeError Progress
  | [] => .ok p
  | a :: as => do
    let q ← p.act a
    q.perform as

theorem perform_append (p : Progress) (as bs : List Action) :
    p.perform (as ++ bs) = p.perform as >>= fun q => q.perform bs := by
  induction as generalizing p with
  | nil => rfl
  | cons a as ih =>
    rw [List.cons_append, perform, perform]
    cases p.act a with
    | error e => rfl
    | ok q => exact ih q

theorem perform_collect (p : Progress) (fragment : String) (items : List Item) :
    p.perform (items.map (.collect fragment))
      = p.collected.addAll fragment items >>= fun c => .ok { p with collected := c } := by
  induction items generalizing p with
  | nil => rfl
  | cons i is ih =>
    rw [List.map_cons, perform, act, Collected.addAll]
    cases p.collected.add fragment i with
    | error e => rfl
    | ok c => exact ih { p with collected := c }

end Progress

namespace Plan

variable {plan : Plan} {store : FragmentStore} {flags : FlagSet}

mutual
/-- The walk through a fragment and what is reached from it. -/
def script (plan : Plan) (flags : FlagSet) : Fragment → List Action
  | ⟨name, _, items, _, children⟩ =>
    .enter name (plan.rulesFor flags name) ::
      (items.map (.collect name) ++
        (scriptOpen plan flags children ++ [.leave (plan.rulesFor flags name).length]))

/-- The walk through those of some fragments whose gates are open. -/
def scriptOpen (plan : Plan) (flags : FlagSet) : List Fragment → List Action
  | [] => []
  | f :: fs =>
    if f.gate.holds flags then script plan flags f ++ scriptOpen plan flags fs
    else scriptOpen plan flags fs
end

end Plan

/-! ## The stack along a script -/

/-- The rewrites in effect after some actions. -/
def stackAfter (stack : List Substitution) : List Action → List Substitution
  | [] => stack
  | .enter fragment rules :: as =>
    stackAfter ((rules.map (·.substitution fragment)).reverse ++ stack) as
  | .collect _ _ :: as => stackAfter stack as
  | .leave count :: as => stackAfter (stack.drop count) as

theorem stackAfter_append (stack : List Substitution) (as bs : List Action) :
    stackAfter stack (as ++ bs) = stackAfter (stackAfter stack as) bs := by
  induction as generalizing stack with
  | nil => rfl
  | cons a as ih => cases a <;> exact ih _

theorem stackAfter_collect (stack : List Substitution) (fragment : String) (items : List Item) :
    stackAfter stack (items.map (.collect fragment)) = stack := by
  induction items with
  | nil => rfl
  | cons i is ih => exact ih

mutual
/-- A script ends every rewrite that it begins. -/
theorem stackAfter_script (plan : Plan) (flags : FlagSet) (stack : List Substitution) :
    ∀ f : Fragment, stackAfter stack (plan.script flags f) = stack
  | ⟨name, _, items, _, children⟩ => by
    rw [Plan.script, stackAfter, stackAfter_append, stackAfter_collect, stackAfter_append,
      stackAfter_scriptOpen plan flags _ children, stackAfter, stackAfter]
    exact List.drop_left' (by simp)

theorem stackAfter_scriptOpen (plan : Plan) (flags : FlagSet) (stack : List Substitution) :
    ∀ fs : List Fragment, stackAfter stack (plan.scriptOpen flags fs) = stack
  | [] => rfl
  | f :: fs => by
    rw [Plan.scriptOpen]
    split
    · rw [stackAfter_append, stackAfter_script plan flags stack f,
        stackAfter_scriptOpen plan flags stack fs]
    · exact stackAfter_scriptOpen plan flags stack fs
end

namespace Progress

variable {p q : Progress}

theorem act_enter_eq_ok_iff {fragment : String} {rules : List RewriteRule} :
    p.act (.enter fragment rules) = .ok q ↔
      p.stamp.engine.applyAll fragment rules = .ok q.engine ∧
        q.collected = p.collected.enter fragment := by
  unfold act
  rw [bind_eq_ok_iff]
  constructor
  · rintro ⟨engine, hEngine, hq⟩
    obtain rfl := Except.ok.inj hq
    exact ⟨hEngine, rfl⟩
  · rintro ⟨hEngine, hCollected⟩
    exact ⟨_, hEngine, by rw [← hCollected]⟩

theorem act_collect_eq_ok_iff {fragment : String} {item : Item} :
    p.act (.collect fragment item) = .ok q ↔
      p.collected.add fragment item = .ok q.collected ∧ q.engine = p.engine := by
  unfold act
  rw [bind_eq_ok_iff]
  constructor
  · rintro ⟨collected, hCollected, hq⟩
    obtain rfl := Except.ok.inj hq
    exact ⟨hCollected, rfl⟩
  · rintro ⟨hCollected, hEngine⟩
    exact ⟨_, hCollected, by rw [← hEngine]⟩

theorem act_leave_eq_ok_iff {count : Nat} :
    p.act (.leave count) = .ok q ↔
      q = { p with engine := Engine.endMany count p.stamp.engine } := by
  unfold act
  rw [Except.ok.injEq, eq_comm]

/-- What the engine keeps, it keeps in every action. -/
theorem engine_act_invariant {P : Engine → Prop} {a : Action} (hKeeps : Engine.Keeps P)
    (h : P p.engine) (hAct : p.act a = .ok q) : P q.engine := by
  have hStamp : P p.stamp.engine := hKeeps.setPosition p.engine p.collected.items.length h
  cases a with
  | enter fragment rules => exact hKeeps.applyAll hStamp (act_enter_eq_ok_iff.mp hAct).1
  | collect fragment item =>
    rw [(act_collect_eq_ok_iff.mp hAct).2]
    exact h
  | leave count =>
    obtain rfl := act_leave_eq_ok_iff.mp hAct
    exact hKeeps.endMany hStamp

/-- What every action keeps, a script keeps. -/
theorem perform_invariant {P : Progress → Prop} {as : List Action}
    (hStep : ∀ (p q : Progress) (a : Action), P p → p.act a = .ok q → P q)
    (h : P p) (hPerform : p.perform as = .ok q) : P q := by
  induction as generalizing p with
  | nil =>
    obtain rfl := Except.ok.inj hPerform
    exact h
  | cons a as ih =>
    rw [perform, bind_eq_ok_iff] at hPerform
    obtain ⟨p₁, hAct, hRest⟩ := hPerform
    exact ih (hStep p p₁ a h hAct) hRest

theorem stack_of_act {a : Action} (h : p.act a = .ok q) :
    q.engine.stack = stackAfter p.engine.stack [a] := by
  cases a with
  | enter fragment rules =>
    obtain ⟨hEngine, -⟩ := act_enter_eq_ok_iff.mp h
    rw [Engine.stack_of_applyAll hEngine]
    rfl
  | collect fragment item =>
    obtain ⟨-, hEngine⟩ := act_collect_eq_ok_iff.mp h
    rw [hEngine]
    rfl
  | leave count =>
    obtain rfl := act_leave_eq_ok_iff.mp h
    rw [Engine.stack_endMany]
    rfl

theorem stack_of_perform {as : List Action} (h : p.perform as = .ok q) :
    q.engine.stack = stackAfter p.engine.stack as := by
  induction as generalizing p with
  | nil =>
    obtain rfl := Except.ok.inj h
    rfl
  | cons a as ih =>
    rw [perform, bind_eq_ok_iff] at h
    obtain ⟨p₁, hAct, hRest⟩ := h
    rw [ih hRest, stack_of_act hAct, ← stackAfter_append, List.singleton_append]

end Progress

/-! ## Placing is performing -/

namespace Plan

variable {plan : Plan} {store : FragmentStore} {flags : FlagSet}

mutual
/-- Placing a fragment performs its script. -/
theorem place_eq_perform (plan : Plan) (flags : FlagSet) :
    ∀ (f : Fragment) (p : Progress), plan.place flags f p = p.perform (plan.script flags f)
  | ⟨name, _, items, _, children⟩, p => by
    rw [place, script, Progress.perform, Progress.act]
    cases hEngine : p.stamp.engine.applyAll name (plan.rulesFor flags name) with
    | error e => rfl
    | ok engine =>
      show _ = Progress.perform { engine, collected := p.collected.enter name } _
      rw [ok_bind, Progress.perform_append, Progress.perform_collect]
      cases (p.collected.enter name).addAll name items with
      | error e => rfl
      | ok collected =>
        rw [ok_bind, ok_bind, ok_bind, placeOpen_eq_perform plan flags children,
          Progress.perform_append]
        cases hOpen : Progress.perform { engine, collected } (plan.scriptOpen flags children) with
        | error e => rfl
        | ok q =>
          -- the nested fragments end what they begin, so only the rules of this one are open
          have hStack := Progress.stack_of_perform hOpen
          rw [stackAfter_scriptOpen, Engine.stack_of_applyAll hEngine] at hStack
          have hLength := congrArg List.length hStack
          rw [Engine.length_stack, List.length_append, List.length_reverse, List.length_map,
            Engine.length_stack] at hLength
          have hCount : q.stamp.engine.active.length - p.engine.active.length
              = (plan.rulesFor flags name).length := by
            show q.engine.active.length - p.engine.active.length = _
            rw [hLength]
            exact Nat.add_sub_cancel _ _
          rw [ok_bind, ok_bind, Engine.closeTo, hCount]
          rfl

theorem placeOpen_eq_perform (plan : Plan) (flags : FlagSet) :
    ∀ (fs : List Fragment) (p : Progress),
      plan.placeOpen flags fs p = p.perform (plan.scriptOpen flags fs)
  | [], p => rfl
  | f :: fs, p => by
    rw [placeOpen, scriptOpen]
    split
    · rw [Progress.perform_append, place_eq_perform plan flags f]
      cases p.perform (plan.script flags f) with
      | error e => rfl
      | ok q => exact placeOpen_eq_perform plan flags fs q
    · exact placeOpen_eq_perform plan flags fs p
end

/-- The walk through fragments that are placed one after the other. -/
def scriptAll (plan : Plan) (flags : FlagSet) (fs : List Fragment) : List Action :=
  fs.flatMap (plan.script flags)

theorem placeAll_eq_perform (fs : List Fragment) (k : Nat) (p : Progress) :
    plan.placeAll flags (fun _ => false) k fs p = p.perform (plan.scriptAll flags fs) := by
  induction fs generalizing k p with
  | nil => rfl
  | cons f fs ih =>
    rw [placeAll, if_neg Bool.false_ne_true, scriptAll, List.flatMap_cons, ← scriptAll,
      Progress.perform_append, place_eq_perform]
    cases p.perform (plan.script flags f) with
    | error e => rfl
    | ok q => exact ih (k + 1) q

/-- Composition checks the plan, orders the fragments and performs their scripts. -/
theorem compose_eq_perform (plan : Plan) (store : FragmentStore) (flags : FlagSet) :
    plan.compose store flags = (do
      plan.validate store
      let order ← ordered (plan.included store (plan.effectiveFlags flags))
      let p ← (Progress.start (plan.effectiveFlags flags)).perform
        (plan.scriptAll (plan.effectiveFlags flags) order)
      .ok (plan.manifest (plan.effectiveFlags flags) p)) := by
  simp only [compose, composeUntil, placeAll_eq_perform]
  rfl

theorem compose_eq_ok_iff {m : Manifest} :
    plan.compose store flags = .ok m ↔
      plan.validate store = .ok () ∧
      ∃ order, ordered (plan.included store (plan.effectiveFlags flags)) = .ok order ∧
      ∃ p, (Progress.start (plan.effectiveFlags flags)).perform
          (plan.scriptAll (plan.effectiveFlags flags) order) = .ok p ∧
        plan.manifest (plan.effectiveFlags flags) p = m := by
  rw [compose_eq_perform, check_bind_eq_ok_iff]
  simp only [bind_eq_ok_iff, Except.ok.injEq]

end Plan

end DeclSurface
