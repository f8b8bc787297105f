import DeclSurface.Surface.Basic

/-!
# Batches of surfaces

All configurations of a library are composed in one batch. The runs may proceed side by side.
Once a run fails, those for later configurations may be asked to stop, so each is done, has
failed or has given up. What a run sees of such a request is left open here: the surfaces of
the batch are to be the same whatever it is.

* `Library.runs`          — what comes of each run.
* `Library.collect`       — the surfaces in order, or the first failure.
* `Library.composeBatch`  — a batch in which requests to stop are seen as given.
* `Library.composeAll`    — a batch in which no run sees a request to stop.
-/

namespace DeclSurface

/--
What the runs of a batch see: whether run `i` has been asked to stop when it is about to place
its fragment numbered `k`.
-/
abbrev StopRequests : Type := Nat → Nat → Bool

namespace Library

/-- The run numbered `i`, for a configuration. -/
def run (l : Library) (o : SurfaceOptions) (seen : StopRequests) (i : Nat) (c : Configuration) :
    Except ComposeError Surface :=
  l.surfaceUntil (some c) o (seen i)

/-- The runs for some configurations, the first of which is numbered `i`. -/
def runsFrom (l : Library) (o : SurfaceOptions) (seen : StopRequests) (i : Nat) :
    List Configuration → List (Configuration × Except ComposeError Surface)
  | [] => []
  | c :: cs => (c, l.run o seen i c) :: runsFrom l o seen (i + 1) cs

/-- What comes of the run for each configuration, in the order of their names. -/
def runs (l : Library) (o : SurfaceOptions) (seen : StopRequests) :
    List (Configuration × Except ComposeError Surface) :=
  l.runsFrom o seen 0 l.configurations.values

/-- The surfaces of runs in order, or the first failure; a run that gave up is passed over. -/
def collect (l : Library) : List (Configuration × Except ComposeError Surface) →
    Result (List Surface)
  | [] => .ok []
  | (_, .ok s) :: rest => do
    let ss ← l.collect rest
    .ok (s :: ss)
  | (_, .error (.cancelled _)) :: rest => l.collect rest
  | (c, .error e) :: _ =>
    .error { contexts := [.composing l.name (some c.name)], cause := .compose e }

/--
The surfaces for all configurations in the order of their names; for a library without any,
its surface for the configuration that is asked for.
-/
def composeBatch (l : Library) (configuration : Option String) (o : SurfaceOptions)
    (seen : StopRequests) : Result (List Surface) :=
  if l.configurations.isEmpty then do
    let s ← l.compose configuration o
    .ok [s]
  else l.collect (l.runs o seen)

/-- The surfaces for all configurations, each composed to its end. -/
def composeAll (l : Library) (configuration : Option String) (o : SurfaceOptions) :
    Result (List Surface) :=
  l.composeBatch configuration o fun _ _ => false

end Library

end DeclSurface
