import DeclSurface.Proofs.Composition.Clash
import DeclSurface.Proofs.Composition.Order
import DeclSurface.Proofs.Composition.Validity
import DeclSurface.Proofs.Precedence.Naming

/-!
# Cycles of constraints

A composition whose constraints form a cycle fails, and names the fragments that lie on the cycle
with the earliest one that is on any. They are named in registration order. That is not the order in
which constraints lead around: in the line that shows the cycle, a name and the next one are joined
by a chain of constraints, which may pass through other fragments of the cycle.

* `namedCycle_of_composeUntil`  — what a composition names that fails for a cycle.
* `cycles_named`                — the names in the errors of graphs and of compositions.
* `cycle_line_joined`           — consecutive names in the line are joined by chains of constraints.
* `cycle_line_not_walk`         — they need not be joined by a constraint.
-/

namespace DeclSurface

open Relation

/-- The names as the line that shows a cycle lists them: the first comes again at the end. -/
def ComposeError.line (cycle : List String) : List String :=
  cycle ++ cycle.take 1

/-- Each name with the one that is listed after it. -/
def consecutive (names : List String) : List (String × String) :=
  names.zip names.tail

/-- A chain from `a` to `b` stays among what lies between the two. -/
theorem transGen_between {r : String → String → Prop} {s : String → Prop} {a b : String}
    (h : TransGen r a b) (hBetween : ∀ x, ReflTransGen r a x → ReflTransGen r x b → s x) :
    TransGen (fun x y => s x ∧ s y ∧ r x y) a b := by
  induction h using TransGen.head_induction_on with
  | @single a hStep =>
    exact .single ⟨hBetween a .refl (.single hStep), hBetween b (.single hStep) .refl, hStep⟩
  | @head a c hStep hRest ih =>
    have hc := hBetween c (.single hStep) hRest.to_reflTransGen
    refine .head ⟨hBetween a .refl (.head hStep hRest.to_reflTransGen), hc, hStep⟩ ?_
    exact ih fun x hcx hxb => hBetween x (.head hStep hcx) hxb

namespace Plan

open Precedence

variable {plan : Plan} {store : FragmentStore} {flags : FlagSet} {stop : Nat → Bool}
  {fs : List Fragment} {cycle : List String} {a b : String}

/-- A constraint among the fragments asks for the one named `a` to come before the one named `b`. -/
def Asks (fs : List Fragment) (a b : String) : Prop :=
  ∃ f ∈ fs, ∃ g ∈ fs, f.name = a ∧ g.name = b ∧ f.Before g

instance : Decidable (Asks fs a b) :=
  inferInstanceAs (Decidable (∃ f ∈ fs, ∃ g ∈ fs, _ ∧ _ ∧ _))

theorem precedes_precedence (hNodup : (fs.map (·.name)).Nodup) :
    (precedence fs).Precedes = Asks fs := by
  funext a b
  refine propext ?_
  unfold Precedes Asks
  rw [names_precedence]
  constructor
  · rintro ⟨i, j, hi, hj, hLeads⟩
    obtain ⟨f, g, hf, hg, hBefore⟩ := (leads_precedence_iff hNodup).mp hLeads
    rw [List.getElem?_map, hf] at hi
    rw [List.getElem?_map, hg] at hj
    exact ⟨f, List.mem_of_getElem? hf, g, List.mem_of_getElem? hg, Option.some.inj hi,
      Option.some.inj hj, hBefore⟩
  · rintro ⟨f, hf, g, hg, rfl, rfl, hBefore⟩
    obtain ⟨i, hi⟩ := List.getElem?_of_mem hf
    obtain ⟨j, hj⟩ := List.getElem?_of_mem hg
    exact ⟨i, j, by simp [hi], by simp [hj],
      (leads_precedence_iff hNodup).mpr ⟨f, g, hi, hj, hBefore⟩⟩

/-- A composition that fails for a cycle is valid, and names the earliest cycle. -/
theorem namedCycle_of_composeUntil
    (h : plan.composeUntil store flags stop = .error (.cycle cycle)) :
    plan.Valid store ∧ ∃ first,
      NamedCycle (Asks (plan.included store (plan.effectiveFlags flags)))
        ((plan.included store (plan.effectiveFlags flags)).map (·.name)) first cycle := by
  -- of all that can go wrong, only finding the order ends in a cycle
  rcases check_bind_eq_error_iff.mp h with h | ⟨hValid, h⟩
  · exact (isStatic_of_validate h).elim
  refine ⟨validate_eq_ok_iff.mp hValid, ?_⟩
  rcases bind_eq_error_iff.mp h with h | ⟨order, -, h⟩
  · rcases bind_eq_error_iff.mp h with h | ⟨_, -, h⟩
    · have hNodup :
          ((plan.included store (plan.effectiveFlags flags)).map (·.name)).Nodup :=
        nodup_included_names
      have hCycle := namedCycle_of_stableOrder (names_precedence ▸ hNodup)
        (inRange_precedence hNodup) h
      rwa [precedes_precedence hNodup, names_precedence] at hCycle
    · simp at h
  · rcases bind_eq_error_iff.mp h with h | ⟨_, -, h⟩
    · rcases isClash_or_cancelled h with h | ⟨n, h⟩
      · exact h.elim
      · simp at h
    · simp at h

/-- In a valid plan no fragment is ordered relative to itself. -/
theorem Valid.not_asks_self (h : plan.Valid store) :
    ¬ Asks (plan.included store flags) a a := by
  rintro ⟨f, hf, g, hg, rfl, hName, hc | hc⟩
  · exact (h.targets f (mem_included.mp hf).1 _ hc).1 hName
  · exact (h.targets g (mem_included.mp hg).1 _ hc).1 hName.symm

theorem exists_of_asks (h : Asks fs a b) : ∃ f ∈ fs, f.name = a := by
  obtain ⟨f, hf, _, _, hName, _⟩ := h
  exact ⟨f, hf, hName⟩

/-- A cycle without a step from a name to itself has two names. -/
theorem two_le_length_of_namedCycle {r : String → String → Prop} {names : List String}
    {first : String} (hCycle : NamedCycle r names first cycle) (hIrrefl : ∀ a, ¬ r a a) :
    2 ≤ cycle.length := by
  -- the first name and the one after it on the way around
  obtain ⟨next, hStep, hPath⟩ := TransGen.head'_iff.mp hCycle.onCycle
  have hNe : next ≠ first := by
    rintro rfl
    exact hIrrefl _ hStep
  have hBack := (reflTransGen_iff_eq_or_transGen.mp hPath).resolve_left hNe.symm
  have hNext : next ∈ cycle := (hCycle.mem_iff next).mpr ⟨.single hStep, hBack⟩
  have hFirst : first ∈ cycle := (hCycle.mem_iff first).mpr ⟨hCycle.onCycle, hCycle.onCycle⟩
  match cycle, hNext, hFirst with
  | [a], hNext, hFirst =>
    exact absurd ((List.mem_singleton.mp hNext).trans (List.mem_singleton.mp hFirst).symm) hNe
  | _ :: _ :: _, _, _ => simp

/--
The error of a graph with distinct names names the earliest one that lies on a cycle with those that
it leads to and that lead to it, in registration order, in whatever order components are found. The
error of a composition names those of the included fragments, and at least two of them.
-/
theorem cycles_named :
    (∀ names calls, names.Nodup → (∃ n, TransGen (AskedByName names calls) n n) →
      ∃ first cycle, NamedCycle (AskedByName names calls) names first cycle ∧
        (ofCalls names calls).stableOrder = .error (.cycle cycle) ∧
        ∀ split, IsSplit (Asked names calls) names.length (split (ofCalls names calls)) →
          (ofCalls names calls).orderWith split = .error (.cycle cycle)) ∧
    ∀ (plan : Plan) store flags stop cycle,
      plan.composeUntil store flags stop = .error (.cycle cycle) →
      (∃ first, NamedCycle (Asks (plan.included store (plan.effectiveFlags flags)))
        ((plan.included store (plan.effectiveFlags flags)).map (·.name)) first cycle) ∧
      2 ≤ cycle.length ∧
      ∀ n ∈ cycle, ∃ f ∈ plan.included store (plan.effectiveFlags flags), f.name = n := by
  constructor
  · intro names calls hNodup hCyclic
    obtain ⟨first, cycle, hCycle, hError⟩ := orderWith_ofCalls hNodup hCyclic
    refine ⟨first, cycle, hCycle, hError components ?_, hError⟩
    have hSplit := isSplit_components (ofCalls names calls)
    rwa [leads_ofCalls, size_ofCalls] at hSplit
  · intro plan store flags stop cycle h
    obtain ⟨hValid, first, hCycle⟩ := namedCycle_of_composeUntil h
    refine ⟨⟨first, hCycle⟩, ?_, fun n hn => ?_⟩
    · exact two_le_length_of_namedCycle hCycle fun _ => hValid.not_asks_self
    -- a name on the cycle has a constraint that leads on
    · obtain ⟨_, hStep, -⟩ := TransGen.head'_iff.mp ((hCycle.mem_iff n).mp hn).2
      exact exists_of_asks hStep

namespace Sample

def bare (name : String) (constraints : List Constraint) : Fragment :=
  { name, gate := .always, items := [], constraints, children := [] }

/-- Constraints lead from `a` to `c`, from there to `b` and back to `a`. -/
def crossed : FragmentStore :=
  { fragments := [bare "a" [.mustPrecede "c"], bare "b" [.mustPrecede "a"],
      bare "c" [.mustPrecede "b"]]
    distinct := by decide }

theorem compose_crossed :
    Plan.composeUntil {} crossed .empty (fun _ => false) = .error (.cycle ["a", "b", "c"]) := by
  rw [composeUntil, ordered, stableOrder_eq]
  decide +kernel

/-- Two cycles, one ahead of the other; `x` is ahead of both and `y` behind them. -/
def twoCycles : List (String × String) :=
  [("x", "a"), ("a", "b"), ("b", "a"), ("b", "c"), ("c", "d"), ("d", "c"), ("d", "y")]

end Sample

theorem cycles_named_sample :
    (∃ first cycle,
      NamedCycle (AskedByName ["x", "c", "a", "b", "d", "y"] Sample.twoCycles)
        ["x", "c", "a", "b", "d", "y"] first cycle ∧
      (ofCalls ["x", "c", "a", "b", "d", "y"] Sample.twoCycles).stableOrder =
        .error (.cycle cycle)) ∧
    (ofCalls ["x", "c", "a", "b", "d", "y"] Sample.twoCycles).stableOrder =
      .error (.cycle ["c", "d"]) ∧
    2 ≤ ["a", "b", "c"].length := by
  refine ⟨?_, by rw [stableOrder_eq]; decide +kernel,
    (cycles_named.2 {} Sample.crossed .empty _ _ Sample.compose_crossed).2.1⟩
  obtain ⟨first, cycle, hCycle, hError, -⟩ :=
    cycles_named.1 ["x", "c", "a", "b", "d", "y"] Sample.twoCycles (by decide)
      ⟨"c", .head (b := "d") (by decide) (.single (by decide))⟩
  exact ⟨first, cycle, hCycle, hError⟩

/-! ## The line that shows a cycle -/

theorem mem_of_mem_line {n : String} (h : n ∈ ComposeError.line cycle) : n ∈ cycle := by
  rcases List.mem_append.mp h with h | h
  · exact h
  · exact List.mem_of_mem_take h

theorem mem_of_mem_consecutive {names : List String} {p : String × String}
    (h : p ∈ consecutive names) : p.1 ∈ names ∧ p.2 ∈ names :=
  ⟨(List.of_mem_zip h).1, List.mem_of_mem_tail (List.of_mem_zip h).2⟩

/-- Two names on a cycle are joined by a chain that stays on the cycle. -/
theorem exists_chain_on_cycle {r : String → String → Prop} {names : List String}
    {first : String} (hCycle : NamedCycle r names first cycle) (ha : a ∈ cycle) (hb : b ∈ cycle) :
    TransGen (fun a b => a ∈ cycle ∧ b ∈ cycle ∧ r a b) a b := by
  refine transGen_between (hCycle.leads ha hb) fun x hax hxb => ?_
  obtain ⟨hTo, -⟩ := (hCycle.mem_iff a).mp ha
  obtain ⟨-, hFrom⟩ := (hCycle.mem_iff b).mp hb
  exact (hCycle.mem_iff x).mpr ⟨hTo.trans_left hax, .trans_right hxb hFrom⟩

/--
The line of a failed composition shows the included fragments of a cycle in registration order, and
the first once more. Each is joined to the next by a chain of constraints that stays on the cycle;
if there are two, by a constraint of its own.
-/
theorem cycle_line_joined (h : plan.composeUntil store flags stop = .error (.cycle cycle)) :
    (ComposeError.cycle cycle).diagnostic.context =
      ["cycle: " ++ " -> ".intercalate (ComposeError.line cycle)] ∧
    cycle.Sublist ((plan.included store (plan.effectiveFlags flags)).map (·.name)) ∧
    (∀ p ∈ consecutive (ComposeError.line cycle),
      TransGen (fun a b => a ∈ cycle ∧ b ∈ cycle ∧
        Asks (plan.included store (plan.effectiveFlags flags)) a b) p.1 p.2) ∧
    (cycle.length = 2 → ∀ p ∈ consecutive (ComposeError.line cycle),
      Asks (plan.included store (plan.effectiveFlags flags)) p.1 p.2) := by
  obtain ⟨hValid, first, hCycle⟩ := namedCycle_of_composeUntil h
  have hJoined {a b : String} (ha : a ∈ cycle) (hb : b ∈ cycle) :=
    exists_chain_on_cycle hCycle ha hb
  refine ⟨rfl, hCycle.inOrder, fun p hp => ?_, fun hTwo => ?_⟩
  · obtain ⟨ha, hb⟩ := mem_of_mem_consecutive hp
    exact hJoined (mem_of_mem_line ha) (mem_of_mem_line hb)
  · obtain ⟨a, b, rfl⟩ := List.length_eq_two.mp hTwo
    -- no fragment asks for itself, so the chain starts with a step to the other of the two
    have hStep {x y : String} (hx : x ∈ [a, b]) (hy : y ∈ [a, b]) (hNe : x ≠ y) :
        Asks (plan.included store (plan.effectiveFlags flags)) x y := by
      obtain ⟨z, ⟨-, hz, hAsks⟩, -⟩ := TransGen.head'_iff.mp (hJoined hx hy)
      have hzx : z ≠ x := by
        rintro rfl
        exact hValid.not_asks_self hAsks
      have hzy : z = y := by
        simp only [List.mem_cons, List.not_mem_nil, or_false] at hx hy hz
        grind
      exact hzy ▸ hAsks
    have hNe : a ≠ b := by
      have hNodup : [a, b].Nodup := hCycle.inOrder.nodup nodup_included_names
      simpa using hNodup
    simp only [ComposeError.line, consecutive, List.take, List.cons_append, List.nil_append,
      List.tail_cons, List.zip_cons_cons, List.zip_nil_right, List.forall_mem_cons]
    exact ⟨hStep (by simp) (by simp) hNe, hStep (by simp) (by simp) hNe.symm, by simp⟩

theorem cycle_line_joined_sample :
    Plan.composeUntil {} Sample.crossed .empty (fun _ => false) =
      .error (.cycle ["a", "b", "c"]) ∧
    (ComposeError.cycle ["a", "b", "c"]).diagnostic.context = ["cycle: a -> b -> c -> a"] ∧
    TransGen (fun a b => a ∈ ["a", "b", "c"] ∧ b ∈ ["a", "b", "c"] ∧
      Asks Sample.crossed.fragments a b) "a" "b" :=
  ⟨Sample.compose_crossed, (cycle_line_joined Sample.compose_crossed).1.trans (by decide),
    (cycle_line_joined Sample.compose_crossed).2.2.1 ("a", "b") (by decide)⟩

/-- The line need not show a walk: where `a -> b -> c -> a` is shown, `b` comes before `a`. -/
theorem cycle_line_not_walk :
    ¬ ∀ (plan : Plan) store flags stop cycle,
      plan.composeUntil store flags stop = .error (.cycle cycle) →
      ∀ p ∈ consecutive (ComposeError.line cycle),
        Asks (plan.included store (plan.effectiveFlags flags)) p.1 p.2 := by
  intro hWalk
  have hAsks : Asks Sample.crossed.fragments "a" "b" :=
    hWalk {} Sample.crossed .empty _ _ Sample.compose_crossed ("a", "b") (by decide)
  exact absurd hAsks (by decide)

end Plan

end DeclSurface
