import DeclSurface.Manifest.Basic
import DeclSurface.Sha256

/-!
# Fingerprints

A manifest is recognised by a digest of everything that an output format can show of it. The
parts are written one after the other as bytes, each so that it is clear where it ends.

* `Fingerprint.Part`      — a text, an optional text or a number.
* `Fingerprint.Part.bytes` — its bytes.
* `Manifest.parts`        — the parts of a manifest, in order.
* `Manifest.fingerprint`  — the digest in hexadecimal digits.
-/

namespace DeclSurface

namespace Fingerprint

/-- The bytes of a text, closed by a zero byte. -/
def textBytes (s : String) : List UInt8 :=
  s.toUTF8.toList ++ [0]

/-- The eight bytes of a number, least significant first. -/
def numberBytes (n : Nat) : List UInt8 :=
  (List.range 8).map fun i => UInt8.ofNat (n >>> (8 * i))

/-- A part of what is fingerprinted. -/
inductive Part where
  | text (s : String)
  /-- A mark tells an absent text from an empty one. -/
  | optional (s : Option String)
  | number (n : Nat)
deriving DecidableEq, Repr

/-- The bytes of a part. -/
def Part.bytes : Part → List UInt8
  | text s => textBytes s
  | optional (some s) => 1 :: textBytes s
  | optional none => [0]
  | number n => numberBytes n

/-- The bytes of a sequence of parts. -/
def encode (parts : List Part) : List UInt8 :=
  parts.flatMap Part.bytes

/-- The digest of a sequence of parts in hexadecimal digits. -/
def ofParts (parts : List Part) : String :=
  Sha256.hex (encode parts)

/-- The parts of a list of texts: how many there are, then each. -/
def listParts (texts : List String) : List Part :=
  .number texts.length :: texts.map .text

end Fingerprint

open Fingerprint (Part listParts)

/-- The parts that say what an item declares. -/
def ItemKind.parts : ItemKind → List Part
  | header path system =>
    [.text "include", .text path, .text (if system then "system" else "local")]
  | text t id => [.text "text", .text t, .optional id]
  | initializer macroName typeName => [.text "initializer", .text macroName, .text typeName]

/-- The word for an action. -/
def EventAction.word : EventAction → String
  | apply => "apply"
  | restore => "restore"

/-- The parts of an event. -/
def RewriteEvent.parts (e : RewriteEvent) : List Part :=
  [.text e.action.word, .text e.symbol, .optional e.value, .text e.fragment, .number e.position]

/-- The parts of an item with its fragment. -/
def ManifestItem.parts (i : ManifestItem) : List Part :=
  .text i.fragment :: i.item.kind.parts

namespace Manifest

/-- Everything that an output format can show of a manifest. -/
def parts (m : Manifest) : List Part :=
  [.number m.version.toNat, .optional m.configuration]
    ++ listParts m.flags ++ listParts m.fragments
    ++ .number m.items.length :: m.items.flatMap ManifestItem.parts
    ++ .number m.rewrites.length :: m.rewrites.flatMap RewriteEvent.parts

/-- The digest of a manifest in hexadecimal digits. -/
def fingerprint (m : Manifest) : String :=
  Fingerprint.ofParts m.parts

end Manifest

end DeclSurface
