import DeclSurface.Data.Shape
import DeclSurface.Configuration
import DeclSurface.Declaration
import DeclSurface.Rewrite.Rule

/-!
# The shape of a library file

A library file is TOML. What its tables may hold is said here; what the texts in them mean is
left open, so that a gate is still a text.

* `ItemEntry`, `FragmentEntry`, `RewriteEntry`, `LibraryEntry` — the tables.
* `LibraryEntry.ofDatum`                                       — reads a file.
-/

namespace DeclSurface

/-! ## Items -/

namespace ItemEntry

/-- An item that is only a path: in angle brackets for a system header. -/
def ofPath (path : String) : Item :=
  match path.toList with
  | '<' :: cs =>
    if cs.getLast? = some '>' then { kind := .header (String.ofList cs.dropLast) true }
    else { kind := .header path false }
  | _ => { kind := .header path false }

/-- The fields of an included header. -/
def headerShape : RecordShape (Option String × Bool × Bool) Item where
  name := "struct RawInclude"
  fields := ["include", "system", "idempotent"]
  strict := true
  start := (none, false, false)
  set name d s :=
    if name = "include" then do
      let path ← Shape.text d
      .ok (some path, s.2)
    else if name = "system" then do
      let system ← Shape.bool d
      .ok (s.1, system, s.2.2)
    else do
      let idempotent ← Shape.bool d
      .ok (s.1, s.2.1, idempotent)
  finish s := match s with
    | (some path, system, idempotent) => .ok { kind := .header path system, idempotent }
    | (none, _) => .error "include"

/-- The fields of a declaration text. -/
def textShape : RecordShape (Option String × Option String × Bool) Item where
  name := "struct RawText"
  fields := ["text", "id", "idempotent"]
  strict := true
  start := (none, none, false)
  set name d s :=
    if name = "text" then do
      let t ← Shape.text d
      .ok (some t, s.2)
    else if name = "id" then do
      let id ← Shape.text d
      .ok (s.1, some id, s.2.2)
    else do
      let idempotent ← Shape.bool d
      .ok (s.1, s.2.1, idempotent)
  finish s := match s with
    | (some t, id, idempotent) => .ok { kind := .text t id, idempotent }
    | (none, _) => .error "text"

/-- The fields of an initializer accessor. -/
def initializerShape : RecordShape (Option String × Option String × Bool) Item where
  name := "struct RawInitializer"
  fields := ["initializer", "type", "idempotent"]
  strict := true
  start := (none, none, false)
  set name d s :=
    if name = "initializer" then do
      let m ← Shape.text d
      .ok (some m, s.2)
    else if name = "type" then do
      let t ← Shape.text d
      .ok (s.1, some t, s.2.2)
    else do
      let idempotent ← Shape.bool d
      .ok (s.1, s.2.1, idempotent)
  finish s := match s with
    | (some m, some t, idempotent) => .ok { kind := .initializer m t, idempotent }
    | (none, _) => .error "initializer"
    | (some _, none, _) => .error "type"

/-- Reads an item in one of three shapes; which defect each of them has is not reported. -/
def ofRecord (d : Datum) : Except ShapeError Item :=
  let surplus := some "fewer elements in sequence"
  match headerShape.read surplus d with
  | .ok i => .ok i
  | .error _ =>
    match textShape.read surplus d with
    | .ok i => .ok i
    | .error _ =>
      match initializerShape.read surplus d with
      | .ok i => .ok i
      | .error _ =>
        .error (.custom "data did not match any variant of untagged enum RawItem")

/-- Reads an item. -/
def ofDatum : Datum → Except ShapeError Item
  | .text path => .ok (ofPath path)
  | d => ofRecord d

end ItemEntry

/-! ## Fragments -/

/-- A fragment as a file gives it. -/
structure FragmentEntry where
  name : String
  gate : Option String
  items : List Item
  precede : List String
  follow : List String
  children : List FragmentEntry
deriving Inhabited

namespace FragmentEntry

mutual
/-- Whether two fragments are given in the same way. -/
def decEq : (e f : FragmentEntry) → Decidable (e = f)
  | ⟨name, gate, items, precede, follow, children⟩,
      ⟨name', gate', items', precede', follow', children'⟩ =>
    have : Decidable (children = children') := decEqAll children children'
    decidable_of_iff (name = name' ∧ gate = gate' ∧ items = items' ∧ precede = precede' ∧
      follow = follow' ∧ children = children') (by rw [mk.injEq])

/-- Whether the fragments of two lists are given in the same way. -/
def decEqAll : (es fs : List FragmentEntry) → Decidable (es = fs)
  | [], [] => isTrue rfl
  | [], _ :: _ => isFalse (List.cons_ne_nil _ _).symm
  | _ :: _, [] => isFalse (List.cons_ne_nil _ _)
  | e :: es, f :: fs =>
    have : Decidable (e = f) := decEq e f
    have : Decidable (es = fs) := decEqAll es fs
    decidable_of_iff (e = f ∧ es = fs) (by rw [List.cons.injEq])
end

instance : DecidableEq FragmentEntry := decEq

end FragmentEntry

/-- The fields of a fragment that have been read. -/
structure FragmentDraft where
  name : Option String := none
  gate : Option String := none
  items : List Item := []
  precede : List String := []
  follow : List String := []
  children : List FragmentEntry := []

namespace FragmentEntry

/-- The fields of a fragment, where `readChildren` reads those nested in it. -/
def shape (readChildren : Datum → Except ShapeError (List FragmentEntry)) :
    RecordShape FragmentDraft FragmentEntry where
  name := "struct RawFragment"
  fields := ["name", "gate", "items", "precede", "follow", "child"]
  strict := true
  start := {}
  set name d s :=
    if name = "name" then do
      let x ← Shape.text d
      .ok { s with name := some x }
    else if name = "gate" then do
      let x ← Shape.text d
      .ok { s with gate := some x }
    else if name = "items" then do
      let x ← Shape.listOf ItemEntry.ofDatum d
      .ok { s with items := x }
    else if name = "precede" then do
      let x ← Shape.listOf Shape.text d
      .ok { s with precede := x }
    else if name = "follow" then do
      let x ← Shape.listOf Shape.text d
      .ok { s with follow := x }
    else do
      let x ← readChildren d
      .ok { s with children := x }
  finish s := match s.name with
    | some name =>
      .ok { name, gate := s.gate, items := s.items, precede := s.precede, follow := s.follow
            children := s.children }
    | none => .error "name"

/-- Reads a fragment in which others are nested up to a depth. -/
def readIn : (depth : Nat) → Datum → Except ShapeError FragmentEntry
  | 0, d => Shape.mismatch d "a fragment"
  | depth + 1, d => (shape (Shape.listOf (readIn depth))).read none d

end FragmentEntry

mutual
/-- How deep lists and records are nested in data. -/
def Datum.depth : Datum → Nat
  | .list ds => Datum.depthOfItems ds + 1
  | .record fields => Datum.depthOfFields fields + 1
  | _ => 0

/-- The greatest depth of some items. -/
def Datum.depthOfItems : List Datum → Nat
  | [] => 0
  | d :: ds => max d.depth (Datum.depthOfItems ds)

/-- The greatest depth of some fields. -/
def Datum.depthOfFields : List (String × Datum) → Nat
  | [] => 0
  | (_, d) :: fields => max d.depth (Datum.depthOfFields fields)
end

/-- Reads a fragment with all that is nested in it. -/
def FragmentEntry.ofDatum (d : Datum) : Except ShapeError FragmentEntry :=
  FragmentEntry.readIn (d.depth + 1) d

/-! ## Rules -/

/-- A rewrite rule as a file gives it. -/
structure RewriteEntry where
  symbol : String
  value : String
  fragments : List String
  restore : RestoreAction
  gate : Option String
deriving DecidableEq, Inhabited

namespace RestoreAction

/-- What becomes of a macro, by name. -/
def ofName (s : String) : Except ShapeError RestoreAction :=
  if s = "reinstate" then .ok .reinstate
  else if s = "undefine" then .ok .undefine
  else .error (.unknownVariant s ["reinstate", "undefine"])

/-- The value under the name of an action holds nothing. -/
def checkEmpty (d : Datum) : Except ShapeError Unit :=
  match d with
  | .record [] => .ok ()
  | .list [] => .ok ()
  | .record _ =>
    if d.isDate then .error (.custom "expected table, found datetime")
    else .error (.custom "expected empty table")
  | .list _ => .error (.custom "expected empty table")
  | .text _ => .error (.custom "expected table, found string")
  | .integer _ => .error (.custom "expected table, found integer")
  | .real _ => .error (.custom "expected table, found float")
  | .bool _ => .error (.custom "expected table, found boolean")
  | .null => .error (.custom "expected table, found none")

/-- Reads what becomes of a macro when a rewrite ends: a name, or a name with nothing under it. -/
def ofDatum (d : Datum) : Except ShapeError RestoreAction :=
  if d.isDate then .error (.custom "wanted string or table")
  else match d with
  | .text s => ofName s
  | .record [] => .error (.custom "wanted exactly 1 element, found 0 elements")
  | .record [(k, x)] => do
    let action ← ofName k
    checkEmpty x
    .ok action
  | .record _ => .error (.custom "wanted exactly 1 element, more than 1 element")
  | _ => .error (.custom "wanted string or table")

end RestoreAction

/-- The fields of a rule that have been read. -/
structure RewriteDraft where
  symbol : Option String := none
  value : String := ""
  fragments : Option (List String) := none
  restore : RestoreAction := .reinstate
  gate : Option String := none

/-- The fields of a rule. -/
def RewriteEntry.shape : RecordShape RewriteDraft RewriteEntry where
  name := "struct RawRewrite"
  fields := ["symbol", "value", "fragments", "restore", "gate"]
  strict := true
  start := {}
  set name d s :=
    if name = "symbol" then do
      let x ← Shape.text d
      .ok { s with symbol := some x }
    else if name = "value" then do
      let x ← Shape.text d
      .ok { s with value := x }
    else if name = "fragments" then do
      let x ← Shape.listOf Shape.text d
      .ok { s with fragments := some x }
    else if name = "restore" then do
      let x ← RestoreAction.ofDatum d
      .ok { s with restore := x }
    else do
      let x ← Shape.text d
      .ok { s with gate := some x }
  finish s := match s.symbol, s.fragments with
    | some symbol, some fragments =>
      .ok { symbol, value := s.value, fragments, restore := s.restore, gate := s.gate }
    | none, _ => .error "symbol"
    | some _, none => .error "fragments"

/-! ## Configurations -/

/-- The fields of a configuration; its name is the key of its table. -/
def Configuration.shape : RecordShape Configuration Configuration where
  name := "struct Configuration"
  fields := ["description", "flags", "fragments"]
  strict := true
  start := { name := "" }
  set name d s :=
    if name = "description" then do
      let x ← Shape.text d
      .ok { s with description := some x }
    else if name = "flags" then do
      let x ← Shape.listOf Shape.text d
      .ok { s with flags := x }
    else do
      let x ← Shape.listOf Shape.text d
      .ok { s with fragments := x }
  finish s := .ok s

/-! ## Libraries -/

/-- What a file says about its library. -/
structure MetadataEntry where
  name : String
  description : Option String
  include_ : List String
deriving DecidableEq, Inhabited

/-- The fields of the section about a library. -/
def MetadataEntry.shape :
    RecordShape (Option String × Option String × List String) MetadataEntry where
  name := "struct RawMetadata"
  fields := ["name", "description", "include"]
  strict := true
  start := (none, none, [])
  set name d s :=
    if name = "name" then do
      let x ← Shape.text d
      .ok (some x, s.2)
    else if name = "description" then do
      let x ← Shape.text d
      .ok (s.1, some x, s.2.2)
    else do
      let x ← Shape.listOf Shape.text d
      .ok (s.1, s.2.1, x)
  finish s := match s with
    | (some name, description, include_) => .ok { name, description, include_ }
    | (none, _) => .error "name"

/-- The contents of a library file. -/
structure LibraryEntry where
  metadata : Option MetadataEntry := none
  fragments : List FragmentEntry := []
  rewrites : List RewriteEntry := []
  configurations : List (String × Configuration) := []
deriving DecidableEq, Inhabited

/-- The tables of a library file. -/
def LibraryEntry.shape : RecordShape LibraryEntry LibraryEntry where
  name := "struct RawLibrary"
  fields := ["library", "fragment", "rewrite", "configuration"]
  strict := true
  start := {}
  set name d s :=
    if name = "library" then do
      let x ← MetadataEntry.shape.read none d
      .ok { s with metadata := some x }
    else if name = "fragment" then do
      let x ← Shape.listOf FragmentEntry.ofDatum d
      .ok { s with fragments := x }
    else if name = "rewrite" then do
      let x ← Shape.listOf (RewriteEntry.shape.read none) d
      .ok { s with rewrites := x }
    else do
      let x ← Shape.mapOf (Configuration.shape.read none) d
      .ok { s with configurations := x.map fun (k, c) => (k, { c with name := k }) }
  finish s := .ok s

/-- Reads the contents of a library file. -/
def LibraryEntry.ofDatum (d : Datum) : Except ShapeError LibraryEntry :=
  LibraryEntry.shape.read none d

end DeclSurface
