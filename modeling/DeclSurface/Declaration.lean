import DeclSurface.Text.Lines

/-!
# Declarations

What a fragment contributes to the surface: headers to include, declaration texts, and typed
accessors for initializer macros. To composition an item is opaque but for its identity.

* `Item`           — a declaration, and whether repeating it does harm.
* `Item.identity`  — what makes two items the same declaration.
* `Item.display`   — how an item is shown in a listing.
-/

namespace DeclSurface

/-- What an item declares. -/
inductive ItemKind where
  /-- An included header: `<path>` when `system`, `"path"` otherwise. -/
  | header (path : String) (system : Bool)
  /-- A declaration text; `id` identifies it in place of the text. -/
  | text (text : String) (id : Option String)
  /-- A function that returns an initializer macro as a value of a type. -/
  | initializer (macroName typeName : String)
deriving DecidableEq, Repr, Inhabited

/-- A declaration item. -/
structure Item where
  kind : ItemKind
  /-- Repeating the item does no harm. -/
  idempotent : Bool := false
deriving DecidableEq, Repr, Inhabited

namespace Item

/-- An item with a text as its identity; only texts can be given one. -/
def withId (i : Item) (id : String) : Item :=
  match i.kind with
  | .text t _ => { i with kind := .text t (some id) }
  | _ => i

/-- The item, marked as harmless to repeat. -/
def markIdempotent (i : Item) : Item :=
  { i with idempotent := true }

/-- The identity of an item. The two ways to include a header are one declaration. -/
def identity (i : Item) : String :=
  match i.kind with
  | .header path _ => "include:" ++ path
  | .text _ (some id) => "text:" ++ id
  | .text t none => "text:" ++ t
  | .initializer macroName _ => "initializer:" ++ macroName

/-- How an item is shown: a text without an identity by its first line. -/
def display (i : Item) : String :=
  match i.kind with
  | .header path true => "<" ++ path ++ ">"
  | .header path false => "\"" ++ path ++ "\""
  | .text _ (some id) => "text `" ++ id ++ "`"
  | .text t none => "text `" ++ Text.headline t ++ "`"
  | .initializer macroName typeName => "init_" ++ macroName ++ "() -> " ++ typeName

end Item

end DeclSurface
