import DeclSurface.Composition.Error

/-!
# Precedence

Which fragments come before which others. Nodes are numbered in registration order, and an
edge says that one node comes before another.

* `Precedence.placed`      — the nodes as they are placed: of those that wait for no other, each
  time the one registered first.
* `Precedence.components`  — the nodes, grouped by which of them lead to each other.
* `Precedence.cycleAmong`  — the earliest of some components that holds a cycle.
* `Precedence.stableOrder` — every node after those that precede it, and otherwise in
  registration order.
-/

namespace DeclSurface

/-- Named nodes in registration order, and edges between their numbers. -/
structure Precedence where
  names : List String
  /-- Pairs of a node and one that must come after it, without repetition. -/
  edges : List (Nat × Nat) := []
deriving DecidableEq, Repr, Inhabited

namespace Precedence

/-- The number of a name: that of its last occurrence. -/
def index? (names : List String) (name : String) : Option Nat :=
  (names.reverse.findIdx? (· == name)).map fun i => names.length - 1 - i

/-- Whether a name is a node. -/
def contains (g : Precedence) (name : String) : Bool :=
  g.names.contains name

/-- The number of nodes. -/
def size (g : Precedence) : Nat :=
  g.names.length

/-- The graph in which `before` comes before `after`, if both are nodes. -/
def addEdge? (g : Precedence) (before after : String) : Option Precedence :=
  match index? g.names before, index? g.names after with
  | some i, some j =>
    if g.edges.contains (i, j) then some g else some { g with edges := g.edges ++ [(i, j)] }
  | _, _ => none

/-- The graph with an edge; one whose ends are not both nodes has nothing to order. -/
def addEdge (g : Precedence) (before after : String) : Precedence :=
  (g.addEdge? before after).getD g

/-- The nodes that come directly after `i`. -/
def successors (g : Precedence) (i : Nat) : List Nat :=
  (g.edges.filter fun (a, _) => a == i).map (·.2)

/-! ## Order -/

/-- How far the nodes of a graph have been placed. -/
structure Countdown where
  /-- For each node, how many edges lead to it from nodes that have not been placed. -/
  waiting : List Nat
  /-- The nodes that have not been placed and wait for no other, in any order. -/
  ready : List Nat
deriving DecidableEq, Repr, Inhabited

namespace Countdown

/-- The countdown without a node that is placed. -/
def take (c : Countdown) (i : Nat) : Countdown :=
  { c with ready := c.ready.erase i }

/-- The countdown with one edge less to `j`, which is ready when there are no more. -/
def release (c : Countdown) (j : Nat) : Countdown :=
  let count := c.waiting.getD j 0 - 1
  { waiting := c.waiting.set j count
    ready := if count = 0 then j :: c.ready else c.ready }

/-- The countdown with one edge less to each of some nodes. -/
def releaseAll (c : Countdown) (js : List Nat) : Countdown :=
  js.foldl release c

end Countdown

/-- The countdown before any node is placed. -/
def countdown (g : Precedence) : Countdown :=
  let waiting := (List.range g.size).map fun j => g.edges.countP fun (_, b) => b == j
  { waiting, ready := (List.range g.size).filter fun j => waiting.getD j 0 == 0 }

/--
Places ready nodes one by one, each time the one registered first, until none is ready; `fuel`
bounds the number of nodes placed.
-/
def placeReady (g : Precedence) : (fuel : Nat) → Countdown → List Nat
  | 0, _ => []
  | fuel + 1, c =>
    match c.ready.min? with
    | none => []
    | some i => i :: placeReady g fuel ((c.take i).releaseAll (g.successors i))

/-- The nodes that can be placed, in order; all of them unless there is a cycle. -/
def placed (g : Precedence) : List Nat :=
  g.placeReady g.size g.countdown

/-! ## Cycles -/

/--
The nodes of `seen`, and those that edges lead to from `todo` without passing through them;
`fuel` bounds the number of nodes that are looked at.
-/
def follow (g : Precedence) : (fuel : Nat) → (todo seen : List Nat) → List Nat
  | 0, _, seen => seen
  | _ + 1, [], seen => seen
  | fuel + 1, i :: todo, seen =>
    if seen.contains i then g.follow fuel todo seen
    else g.follow fuel (g.successors i ++ todo) (i :: seen)

/--
The nodes that one or more edges lead to from `i`. Each node is left once along each of its
edges, and `i` may be left twice.
-/
def reachable (g : Precedence) (i : Nat) : List Nat :=
  g.follow (2 * g.edges.length) (g.successors i) []

/-- Whether one or more edges lead from `i` to `j`. -/
def reaches (g : Precedence) (i j : Nat) : Bool :=
  (g.reachable i).contains j

/-- The nodes that edges lead to from `i` and back, with `i` itself, in registration order. -/
def component (g : Precedence) (i : Nat) : List Nat :=
  let ahead := g.reachable i
  (List.range g.size).filter fun j => j == i || (ahead.contains j && g.reaches j i)

/-- The strongly connected components, each found from its first node. -/
def components (g : Precedence) : List (List Nat) :=
  (List.range g.size).filterMap fun i =>
    let c := g.component i
    if c.head? = some i then some c else none

/-- Whether a component holds a cycle: it has several nodes, or one with an edge to itself. -/
def isCyclic (g : Precedence) (c : List Nat) : Bool :=
  1 < c.length || c.any fun i => g.edges.contains (i, i)

/-- The earliest of some components that holds a cycle, in registration order. -/
def cycleAmong (g : Precedence) (components : List (List Nat)) : List Nat :=
  let cycles := (components.filter g.isCyclic).map fun c => c.mergeSort
  (cycles.mergeSort fun c d => !d.lex c).head?.getD []

/-- The name of a node. -/
def nameOf (g : Precedence) (i : Nat) : String :=
  g.names.getD i ""

/--
The nodes in a stable order, or the earliest cycle that makes one impossible, where `split` gives
the strongly connected components of a graph.
-/
def orderWith (split : Precedence → List (List Nat)) (g : Precedence) :
    Except ComposeError (List Nat) :=
  let order := g.placed
  if order.length < g.size then .error (.cycle ((g.cycleAmong (split g)).map g.nameOf))
  else .ok order

/-- The nodes in a stable order, or the earliest cycle that makes one impossible. -/
def stableOrder (g : Precedence) : Except ComposeError (List Nat) :=
  g.orderWith components

end Precedence

end DeclSurface
