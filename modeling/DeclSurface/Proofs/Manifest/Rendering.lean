import DeclSurface.Manifest.Format
import DeclSurface.Proofs.Manifest.Encoding
import DeclSurface.Proofs.Record.RoundTrip

/-!
# What a fingerprint says of the output

Manifests are fingerprinted so that a change of the surface is noticed. The bytes that are digested
show a manifest but for the marks of items that are harmless to repeat. Headers and listings do not
show these marks, so they are covered. JSON does: manifests that differ in nothing else have one
fingerprint and two texts.

* `Manifest.toHeader_unmarked`          — headers do not show marks.
* `Manifest.toListing_unmarked`         — nor do listings.
* `Manifest.emit_eq_iff_of_encode`      — which outputs are the same where the digested bytes are.
* `Manifest.fingerprint_overlooks_mark` — texts in JSON that differ where the digested bytes do not.
-/

namespace DeclSurface

open Fingerprint (Clear encode)

namespace Manifest

variable {m m' : Manifest}

/-! ## Marks that are not shown -/

theorem clear_unmarked (h : Clear m.parts) : Clear m.unmarked.parts := by
  rwa [parts_unmarked]

theorem text_layoutFrom_unmarked (n : Nat) (is : List ManifestItem) (log : List RewriteEvent) :
    (Header.layoutFrom n (is.map ManifestItem.unmarked) log).map Header.Piece.text
      = (Header.layoutFrom n is log).map Header.Piece.text := by
  induction is generalizing n log with
  | nil => rfl
  | cons i is ih =>
    -- the lines of an item are those of its kind, which has no mark
    rw [List.map_cons, Header.layoutFrom, Header.layoutFrom, List.map_append, List.map_append,
      List.map_cons, List.map_cons, ih]
    rfl

theorem toHeader_unmarked (m : Manifest) (fingerprint : Bool) :
    m.unmarked.toHeader fingerprint = m.toHeader fingerprint := by
  have hFingerprint : m.unmarked.fingerprint = m.fingerprint := by
    rw [Manifest.fingerprint, Manifest.fingerprint, parts_unmarked]
  have hBanner : Header.banner m.unmarked fingerprint = Header.banner m fingerprint := by
    unfold Header.banner
    rw [hFingerprint]
    rfl
  rw [toHeader, toHeader, hBanner, Header.layout, Header.layout, unmarked, text_layoutFrom_unmarked]

theorem toListing_unmarked (m : Manifest) : m.unmarked.toListing = m.toListing := by
  rw [toListing, toListing, unmarked, List.map_map]
  rfl

/-! ## Marks that are -/

/-- Which items are marked as harmless to repeat. -/
def marks (m : Manifest) : List Bool :=
  m.items.map (·.item.idempotent)

theorem items_eq_of_unmarked : ∀ {is js : List ManifestItem},
    is.map ManifestItem.unmarked = js.map ManifestItem.unmarked →
    is.map (·.item.idempotent) = js.map (·.item.idempotent) → is = js
  | [], [], _, _ => rfl
  | [], _ :: _, h, _ => nomatch h
  | _ :: _, [], h, _ => nomatch h
  | i :: is, j :: js, h, hMarks => by
    obtain ⟨hItem, hRest⟩ := List.cons.inj h
    obtain ⟨hMark, hRestMarks⟩ := List.cons.inj hMarks
    obtain ⟨fragment, kind, idempotent⟩ := i
    obtain ⟨fragment', kind', idempotent'⟩ := j
    obtain rfl : idempotent = idempotent' := hMark
    simp only [ManifestItem.unmarked, ManifestItem.mk.injEq, Item.mk.injEq, and_true] at hItem
    obtain ⟨rfl, rfl⟩ := hItem
    rw [items_eq_of_unmarked hRest hRestMarks]

/-- A manifest is made of what it is without its marks, and of its marks. -/
theorem eq_of_unmarked (h : m.unmarked = m'.unmarked) (hMarks : m.marks = m'.marks) : m = m' := by
  obtain ⟨version, configuration, flags, fragments, items, rewrites⟩ := m
  obtain ⟨version', configuration', flags', fragments', items', rewrites'⟩ := m'
  simp only [unmarked, mk.injEq] at h
  obtain ⟨rfl, rfl, rfl, rfl, hItems, rfl⟩ := h
  rw [items_eq_of_unmarked hItems hMarks]

/--
Where the digested bytes of two manifests are the same, so are their headers and their listings.
Their texts in JSON are the same if and only if the same items are marked as harmless to repeat.
-/
theorem emit_eq_iff_of_encode (hm : Clear m.parts) (hm' : Clear m'.parts)
    (h : encode m.parts = encode m'.parts) (format : OutputFormat) (fingerprint : Bool) :
    m.emit format fingerprint = m'.emit format fingerprint ↔
      (format = .json → m.marks = m'.marks) := by
  have hSame : m.unmarked = m'.unmarked := unmarked_eq_of_encode hm hm' h
  cases format with
  | header =>
    have hHeader : m.toHeader fingerprint = m'.toHeader fingerprint := by
      rw [← m.toHeader_unmarked, hSame, m'.toHeader_unmarked]
    exact iff_of_true hHeader nofun
  | json =>
    constructor
    · intro hText _
      rw [toJson_inj hText]
    · intro hMarks
      rw [eq_of_unmarked hSame (hMarks rfl)]
  | list =>
    have hListing : m.toListing = m'.toListing := by
      rw [← m.toListing_unmarked, hSame, m'.toListing_unmarked]
    exact iff_of_true hListing nofun

theorem clear_sample : Clear sample.parts := by
  decide +kernel

theorem emit_eq_iff_of_encode_sample :
    Clear sample.parts ∧ Clear sample.unmarked.parts ∧
      encode sample.parts = encode sample.unmarked.parts ∧
      sample.emit .header true = sample.unmarked.emit .header true ∧
      sample.emit .list true = sample.unmarked.emit .list true ∧
      sample.emit .json true ≠ sample.unmarked.emit .json true := by
  have hClear : Clear sample.unmarked.parts := clear_unmarked clear_sample
  have hBytes : encode sample.parts = encode sample.unmarked.parts := (encode_unmarked sample).symm
  refine ⟨clear_sample, hClear, hBytes, ?_, ?_, ?_⟩
  · exact (emit_eq_iff_of_encode clear_sample hClear hBytes .header true).mpr nofun
  · exact (emit_eq_iff_of_encode clear_sample hClear hBytes .list true).mpr nofun
  · intro hText
    have hMarks := (emit_eq_iff_of_encode clear_sample hClear hBytes .json true).mp hText rfl
    exact absurd hMarks (by decide)

/-- The digested bytes do not cover all that is shown: JSON shows the marks of items. -/
theorem fingerprint_overlooks_mark :
    ¬ ∀ m m' : Manifest, Clear m.parts → Clear m'.parts → encode m.parts = encode m'.parts →
      ∀ format fingerprint, m.emit format fingerprint = m'.emit format fingerprint := by
  intro hCovers
  have hClear : Clear sample.unmarked.parts := clear_unmarked clear_sample
  have hBytes : encode sample.parts = encode sample.unmarked.parts := (encode_unmarked sample).symm
  have hText : sample.toJson = sample.unmarked.toJson :=
    hCovers sample sample.unmarked clear_sample hClear hBytes .json true
  exact absurd (toJson_inj hText) (by decide)

end Manifest

end DeclSurface
