import DeclSurface.Proofs.Data.Printing
import DeclSurface.Proofs.Outcome
import DeclSurface.Record.Manifest

/-!
# Manifests are read back

A manifest is written as nested records. The record of an item holds fields of three owners side by
side: those of its kind, its mark, and the fragment that contributed it. They have different names,
so each owner finds its own again when the others are set aside. Fields that are left out are those
whose absence is read as the value that they have. No value in a manifest is a real number, so its
text is one that every reader of JSON understands in the same way.

* `lookup_append_apart`, `filter_apart` — a field of another owner, found and set aside.
* `Item.ofFields_toFields`              — an item is read back from its fields.
* `Manifest.ofDatum_toDatum`            — a manifest is read back from data.
* `Manifest.exact_toDatum`              — a manifest has no real numbers.
* `Manifest.reads_back`                 — a manifest is read back from its text.
* `Manifest.toJson_inj`                 — manifests with the same text are the same.
-/

namespace DeclSurface

/-! ## Shapes -/

namespace Shape

variable {α : Type} {shape : Datum → Except ShapeError α} {write : α → Datum}

/-- A list is read back if every item is. -/
theorem listOf_map (h : ∀ x, shape (write x) = .ok x) (xs : List α) :
    listOf shape (.list (xs.map write)) = .ok xs := by
  rw [listOf]
  induction xs with
  | nil => rfl
  | cons x xs ih =>
    rw [List.map_cons, items, h, ok_bind, ih]
    rfl

theorem listOf_texts (ss : List String) : listOf text (.texts ss) = .ok ss := by
  have hText (s : String) : text (.text s) = .ok s := rfl
  exact listOf_map hText ss

theorem nat_nat (expected : String) (n : Nat) : nat expected (.nat n) = .ok n := by
  rw [Datum.nat, nat, if_pos (Int.natCast_nonneg n)]
  rfl

theorem word_toNat (expected : String) (w : UInt32) : word expected (.nat w.toNat) = .ok w := by
  have hSize : w.toNat < UInt32.size := w.toNat_lt
  rw [word, nat_nat, ok_bind, if_pos hSize, UInt32.ofNat_toNat]

end Shape

/-! ## Fields of several owners -/

section Fields

variable {fields rest : List (String × Datum)} {name : String} {d : Datum}

/-- The field that has a name of its own is found, wherever it stands. -/
theorem lookup_append_apart (h : name ∉ fields.map (·.1)) :
    (fields ++ (name, d) :: rest).lookup name = some d := by
  induction fields with
  | nil => exact List.lookup_cons_self
  | cons f fields ih =>
    rw [List.map_cons, List.mem_cons, not_or] at h
    rw [List.cons_append, List.lookup_cons, beq_false_of_ne h.1]
    exact ih h.2

theorem lookup_eq_none_of_apart (h : name ∉ fields.map (·.1)) : fields.lookup name = none := by
  rw [List.lookup_eq_none_iff]
  intro f hf
  exact bne_iff_ne.mpr fun hEq => h (hEq ▸ List.mem_map_of_mem hf)

/-- Setting a name aside leaves fields of other names as they are. -/
theorem filter_apart (h : name ∉ fields.map (·.1)) : fields.filter (·.1 != name) = fields := by
  rw [List.filter_eq_self]
  intro f hf
  exact bne_iff_ne.mpr fun hEq => h (hEq ▸ List.mem_map_of_mem hf)

end Fields

/-! ## Items -/

theorem ItemKind.ofFields_toFields (k : ItemKind) : ofFields k.toFields = .ok k := by
  cases k with
  | header path system => rfl
  | text t id => cases id <;> rfl
  | initializer macroName typeName => rfl

/-- The fields of a kind leave the names of the other owners free. -/
theorem ItemKind.apart_toFields (k : ItemKind) :
    "idempotent" ∉ k.toFields.map (·.1) ∧ "fragment" ∉ k.toFields.map (·.1) := by
  cases k with
  | header path system => simp [toFields]
  | text t id => cases id <;> simp [toFields, optionalField]
  | initializer macroName typeName => simp [toFields]

theorem Item.ofFields_toFields (i : Item) : ofFields i.toFields = .ok i := by
  obtain ⟨kind, idempotent⟩ := i
  obtain ⟨hApart, -⟩ := kind.apart_toFields
  cases idempotent with
  | false =>
    -- without a field for it, there is no mark
    rw [toFields]
    dsimp only
    rw [if_neg Bool.false_ne_true, List.append_nil, ofFields, lookup_eq_none_of_apart hApart,
      filter_apart hApart, kind.ofFields_toFields]
    rfl
  | true =>
    rw [toFields]
    dsimp only
    rw [if_pos rfl, ofFields, lookup_append_apart hApart, List.filter_append, filter_apart hApart]
    rw [List.filter_cons_of_neg (by simp), List.filter_nil, List.append_nil,
      kind.ofFields_toFields]
    rfl

theorem Item.apart_toFields (i : Item) : "fragment" ∉ i.toFields.map (·.1) := by
  obtain ⟨-, hApart⟩ := i.kind.apart_toFields
  rw [toFields, List.map_append, List.mem_append, not_or]
  refine ⟨hApart, ?_⟩
  split <;> simp

theorem ManifestItem.ofDatum_toDatum (i : ManifestItem) : ofDatum i.toDatum = .ok i := by
  rw [toDatum, ofDatum, List.lookup_cons_self]
  dsimp only
  rw [List.filter_cons_of_neg (by simp), filter_apart i.item.apart_toFields,
    i.item.ofFields_toFields]
  rfl

/-! ## Events and manifests -/

namespace RecordShape

variable {σ α : Type} {r : RecordShape σ α} {name : String} {d : Datum} {s t : σ}
  {rest : List (String × Datum)}

theorem readFields_cons (hName : name ∈ r.fields) (hSet : r.set name d s = .ok t) :
    r.readFields ((name, d) :: rest) s = r.readFields rest t := by
  rw [readFields, if_pos (List.contains_iff_mem.mpr hName), hSet, ok_bind]

/-- A field that is left out when there is no value is read as what stands without it. -/
theorem readFields_optional {value : Option String} (hName : name ∈ r.fields)
    (hSome : ∀ v, value = some v → r.set name (.text v) s = .ok t) (hNone : value = none → s = t) :
    r.readFields (optionalField name value ++ rest) s = r.readFields rest t := by
  cases value with
  | none => rw [hNone rfl]; rfl
  | some v => exact readFields_cons hName (hSome v rfl)

theorem read_record {x : α} {fields : List (String × Datum)} {surplus : Option String}
    (hFields : r.readFields fields r.start = .ok s) (hFinish : r.finish s = .ok x) :
    r.read surplus (.record fields) = .ok x := by
  rw [read, readRecord, hFields, ok_bind, hFinish]

end RecordShape

theorem EventAction.ofDatum_toDatum (a : EventAction) : ofDatum a.toDatum = .ok a := by
  cases a <;> rfl

theorem RewriteEvent.ofDatum_toDatum (e : RewriteEvent) : ofDatum e.toDatum = .ok e := by
  obtain ⟨action, symbol, value, fragment, position⟩ := e
  let draft : EventDraft := { action := some action, symbol := some symbol }
  have hAction : shape.set "action" action.toDatum {} = .ok { action := some action } := by
    show (EventAction.ofDatum action.toDatum >>= _) = _
    rw [EventAction.ofDatum_toDatum, ok_bind]
  have hPosition (s : EventDraft) :
      shape.set "position" (.nat position) s = .ok { s with position := some position } := by
    show (Shape.nat "usize" (.nat position) >>= _) = _
    rw [Shape.nat_nat, ok_bind]
  refine RecordShape.read_record (s := ⟨some action, some symbol, value, some fragment,
    some position⟩) ?_ rfl
  rw [List.append_assoc]
  refine (RecordShape.readFields_cons (by decide) hAction).trans ?_
  refine (RecordShape.readFields_cons (t := draft) (by decide) rfl).trans ?_
  refine (RecordShape.readFields_optional (t := { draft with value }) (by decide) ?_ ?_).trans ?_
  · rintro v rfl
    rfl
  · rintro rfl
    rfl
  refine (RecordShape.readFields_cons (by decide) rfl).trans ?_
  exact RecordShape.readFields_cons (by decide) (hPosition _)

namespace Manifest

/-- A manifest is read back from data. -/
theorem ofDatum_toDatum (m : Manifest) : ofDatum m.toDatum = .ok m := by
  obtain ⟨version, configuration, flags, fragments, items, rewrites⟩ := m
  have hVersion : shape.set "version" (.nat version.toNat) {}
      = .ok { version := some version } := by
    show (Shape.word "u32" (.nat version.toNat) >>= _) = _
    rw [Shape.word_toNat, ok_bind]
  have hFlags (s : ManifestDraft) :
      shape.set "flags" (.texts flags) s = .ok { s with flags := some flags } := by
    show (Shape.listOf Shape.text (.texts flags) >>= _) = _
    rw [Shape.listOf_texts, ok_bind]
  have hFragments (s : ManifestDraft) :
      shape.set "fragments" (.texts fragments) s = .ok { s with fragments := some fragments } := by
    show (Shape.listOf Shape.text (.texts fragments) >>= _) = _
    rw [Shape.listOf_texts, ok_bind]
  have hItems (s : ManifestDraft) : shape.set "items" (.list (items.map ManifestItem.toDatum)) s
      = .ok { s with items := some items } := by
    show (Shape.listOf ManifestItem.ofDatum _ >>= _) = _
    rw [Shape.listOf_map ManifestItem.ofDatum_toDatum, ok_bind]
  have hRewrites (s : ManifestDraft) :
      shape.set "rewrites" (.list (rewrites.map RewriteEvent.toDatum)) s
        = .ok { s with rewrites := some rewrites } := by
    show (Shape.listOf RewriteEvent.ofDatum _ >>= _) = _
    rw [Shape.listOf_map RewriteEvent.ofDatum_toDatum, ok_bind]
  refine RecordShape.read_record (s := ⟨some version, configuration, some flags, some fragments,
    some items, some rewrites⟩) ?_ rfl
  rw [List.append_assoc]
  refine (RecordShape.readFields_cons (by decide) hVersion).trans ?_
  refine (RecordShape.readFields_optional
    (t := { version := some version, configuration }) (by decide) ?_ ?_).trans ?_
  · rintro c rfl
    rfl
  · rintro rfl
    rfl
  refine (RecordShape.readFields_cons (by decide) (hFlags _)).trans ?_
  refine (RecordShape.readFields_cons (by decide) (hFragments _)).trans ?_
  refine (RecordShape.readFields_cons (by decide) (hItems _)).trans ?_
  exact RecordShape.readFields_cons (by decide) (hRewrites _)

end Manifest

/-! ## Manifests have no real numbers -/

theorem exact_optionalField (name : String) (value : Option String) :
    ∀ f ∈ optionalField name value, f.2.Exact := by
  cases value with
  | none => exact List.forall_mem_nil _
  | some v => exact List.forall_mem_singleton.mpr (.text v)

theorem exact_list_map {α : Type} {write : α → Datum} (h : ∀ x, (write x).Exact) (xs : List α) :
    (Datum.list (xs.map write)).Exact := by
  refine .list ?_
  intro d hd
  obtain ⟨x, -, rfl⟩ := List.mem_map.mp hd
  exact h x

theorem exact_texts (ss : List String) : (Datum.texts ss).Exact :=
  exact_list_map .text ss

theorem ItemKind.exact_toFields (k : ItemKind) : ∀ f ∈ k.toFields, f.2.Exact := by
  cases k with
  | header path system =>
    simp only [toFields, List.forall_mem_cons]
    exact ⟨.text _, .text _, .bool _, List.forall_mem_nil _⟩
  | text t id =>
    simp only [toFields, List.forall_mem_append, List.forall_mem_cons]
    exact ⟨⟨.text _, .text _, List.forall_mem_nil _⟩, exact_optionalField _ _⟩
  | initializer macroName typeName =>
    simp only [toFields, List.forall_mem_cons]
    exact ⟨.text _, .text _, .text _, List.forall_mem_nil _⟩

theorem ManifestItem.exact_toDatum (i : ManifestItem) : i.toDatum.Exact := by
  have hMark : ∀ f ∈ if i.item.idempotent then [("idempotent", Datum.bool true)] else [],
      f.2.Exact := by
    split
    · exact List.forall_mem_singleton.mpr (.bool true)
    · exact List.forall_mem_nil _
  refine .record (List.forall_mem_cons.mpr ⟨.text _, ?_⟩)
  exact List.forall_mem_append.mpr ⟨i.item.kind.exact_toFields, hMark⟩

theorem RewriteEvent.exact_toDatum (e : RewriteEvent) : e.toDatum.Exact := by
  have hAction : e.action.toDatum.Exact := by
    cases e.action <;> exact .text _
  refine .record (List.forall_mem_append.mpr ⟨List.forall_mem_append.mpr ⟨?_, ?_⟩, ?_⟩)
  · exact List.forall_mem_cons.mpr ⟨hAction, List.forall_mem_singleton.mpr (.text _)⟩
  · exact exact_optionalField _ _
  · exact List.forall_mem_cons.mpr ⟨.text _, List.forall_mem_singleton.mpr (.integer _)⟩

namespace Manifest

theorem exact_toDatum (m : Manifest) : m.toDatum.Exact := by
  refine .record (List.forall_mem_append.mpr ⟨List.forall_mem_append.mpr ⟨?_, ?_⟩, ?_⟩)
  · exact List.forall_mem_singleton.mpr (.integer _)
  · exact exact_optionalField _ _
  · simp only [List.forall_mem_cons]
    exact ⟨exact_texts _, exact_texts _, exact_list_map ManifestItem.exact_toDatum _,
      exact_list_map RewriteEvent.exact_toDatum _, List.forall_mem_nil _⟩

/-! ## Texts -/

/--
A manifest is read back from its text in JSON. `read` reads a text as data; all that is asked of it
is that it finds the values again that the printer writes.
-/
theorem reads_back (read : String → Option Datum)
    (hRead : ∀ d : Datum, d.Exact → read (Json.pretty d ++ "\n") = some d) (m : Manifest) :
    (read m.toJson).map ofDatum = some (.ok m) := by
  have hDatum : read m.toJson = some m.toDatum := hRead m.toDatum m.exact_toDatum
  rw [hDatum, Option.map_some, ofDatum_toDatum]

/-- A manifest of items of all kinds, with and without what can be left out of them. -/
def sample : Manifest where
  version := currentVersion
  configuration := some "debug"
  flags := ["tracing"]
  fragments := ["base", "log"]
  items := [
    ⟨"base", { kind := .header "stdint.h" true, idempotent := true }⟩,
    ⟨"base", { kind := .header "base.h" false }⟩,
    ⟨"log", { kind := .text "typedef int level;\nextern level current;" (some "level") }⟩,
    ⟨"log", { kind := .text "void log(void);" none, idempotent := true }⟩,
    ⟨"log", { kind := .initializer "LOG_INIT" "struct log" }⟩]
  rewrites := [
    ⟨.apply, "LOG(x)", some "", "log", 2⟩,
    ⟨.restore, "LOG(x)", none, "log", 5⟩]

theorem reads_back_sample :
    (∀ d : Datum, d.Exact → Json.read? (Json.pretty d ++ "\n") = some d) ∧
      (Json.read? sample.toJson).map ofDatum = some (.ok sample) :=
  ⟨fun _ => Json.read?_pretty, reads_back Json.read? (fun _ => Json.read?_pretty) sample⟩

/-- Manifests with the same text in JSON are the same. -/
theorem toJson_inj {m m' : Manifest} (h : m.toJson = m'.toJson) : m = m' := by
  have hDatum : m.toDatum = m'.toDatum :=
    Json.pretty_inj m.exact_toDatum m'.exact_toDatum ((String.append_left_inj _).mp h)
  have hRead : (.ok m : Except ShapeError Manifest) = .ok m' := by
    rw [← ofDatum_toDatum, hDatum, ofDatum_toDatum]
  exact Except.ok.inj hRead

end Manifest

end DeclSurface
