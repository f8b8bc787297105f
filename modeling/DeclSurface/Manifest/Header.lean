import DeclSurface.Manifest.Fingerprint

/-!
# Manifests as C headers

Items become includes, declarations and accessors; rewrite events become directives between
them, so that a rewrite is seen by the declarations of its fragment alone.

* `Header.event`, `Header.item`  — the lines of an event and of an item.
* `Header.layout`                — items and events in the order in which they are written.
* `Manifest.toHeader`            — the whole header.
-/

namespace DeclSurface

namespace Header

/-- A definition of a symbol; an empty value leaves no blank behind. -/
def define (symbol value : String) : String :=
  if value = "" then "#define " ++ symbol ++ "\n"
  else "#define " ++ symbol ++ " " ++ value ++ "\n"

/-- The directives of an event. -/
def event (e : RewriteEvent) : String :=
  "#undef " ++ macroName e.symbol ++ "\n"
    ++ (match e.value with
        | some value => define e.symbol value
        | none => "")

/-- The lines of an item. -/
def item : ItemKind → String
  | .header path true => "#include <" ++ path ++ ">\n"
  | .header path false => "#include \"" ++ path ++ "\"\n"
  | .text t _ => Text.endWithLineFeed t
  | .initializer macroName typeName =>
    "static " ++ typeName ++ " init_" ++ macroName ++ "(void) \x7b\n"
      ++ "    " ++ typeName ++ " result = " ++ macroName ++ ";\n"
      ++ "    return result;\n"
      ++ "\x7d\n"

/-- A piece of a header. -/
inductive Piece where
  | event (e : RewriteEvent)
  | item (i : ManifestItem)
deriving DecidableEq, Repr

/-- The lines of a piece. -/
def Piece.text : Piece → String
  | .event e => Header.event e
  | .item i => Header.item i.item.kind

/--
The pieces from the item numbered `n` on. An item is written when every event in front of the
log that belongs before it has been written; events that are left when the items are
exhausted come last.
-/
def layoutFrom (n : Nat) : List ManifestItem → List RewriteEvent → List Piece
  | [], log => log.map .event
  | i :: is, log =>
    (log.takeWhile (·.position ≤ n)).map .event
      ++ .item i :: layoutFrom (n + 1) is (log.dropWhile (·.position ≤ n))

/-- The pieces of a header after its banner. -/
def layout (m : Manifest) : List Piece :=
  layoutFrom 0 m.items m.rewrites

/-- The comments at the top of a header. -/
def banner (m : Manifest) (fingerprint : Bool) : String :=
  "/* Generated by quay. Do not edit. */\n"
    ++ (if fingerprint then "/* fingerprint: " ++ m.fingerprint ++ " */\n" else "")
    ++ (match m.configuration with
        | some c => "/* configuration: " ++ c ++ " */\n"
        | none => "")
    ++ (if m.flags.isEmpty then ""
        else "/* flags: " ++ " ".intercalate m.flags ++ " */\n")
    ++ "\n"

end Header

/-- A manifest as a C header; the fingerprint is shown if asked for. -/
def Manifest.toHeader (m : Manifest) (fingerprint : Bool) : String :=
  Header.banner m fingerprint ++ String.join ((Header.layout m).map Header.Piece.text)

end DeclSurface
