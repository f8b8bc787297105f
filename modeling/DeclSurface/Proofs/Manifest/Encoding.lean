import DeclSurface.Manifest.Fingerprint
import Mathlib.Data.List.Basic

/-!
# What fingerprinted bytes show

The parts of a manifest are written one after the other, with nothing between them. Each shows where
it ends: a text at its zero byte, a number after eight bytes, and an optional text by the mark in
front. So the parts can be told from the bytes, and with the lengths in front of the lists and the
words in front of the kinds, all that was put into them.

* `Fingerprint.Shows`              — parts from whose bytes something can be told.
* `Fingerprint.Shows.append`       — parts after parts show what both show.
* `Fingerprint.Shows.counted`      — a list with its length in front shows what its items show.
* `Manifest.unmarked`              — a manifest without the marks of its items.
* `Manifest.unmarked_eq_of_encode` — the bytes of a manifest show it but for these marks.
* `Manifest.texts`, `Manifest.Counted` — what a manifest writes that has to be clear.
* `Manifest.encode_eq_iff`         — which manifests have the same bytes.
-/

namespace DeclSurface

theorem EventAction.word_inj {a b : EventAction} (h : a.word = b.word) : a = b := by
  revert h
  cases a <;> cases b <;> decide

namespace Fingerprint

/-! ## Bytes -/

section Bytes

variable {s t : String} {n k : Nat} {r r' : List UInt8}

theorem toList_loop (bs : ByteArray) (i : Nat) (acc : List UInt8) :
    ByteArray.toList.loop bs i acc = acc.reverse ++ bs.data.toList.drop i := by
  fun_induction ByteArray.toList.loop bs i acc with
  | case1 i acc hMore ih =>
    have hLength : i < bs.data.toList.length := hMore
    have hByte : bs.get! i = bs.data.toList[i] := getElem!_pos bs.data i hMore
    rw [ih, List.drop_eq_getElem_cons hLength,
      List.reverse_cons, List.append_assoc, hByte]
    rfl
  | case2 i acc hDone =>
    have hLength : bs.data.toList.length ≤ i := Nat.le_of_not_lt hDone
    rw [List.drop_eq_nil_of_le hLength, List.append_nil]

theorem toList_eq_data (bs : ByteArray) : bs.toList = bs.data.toList := by
  rw [ByteArray.toList, toList_loop]
  rfl

/-- The bytes of a text are those of its characters. -/
theorem toList_toUTF8 (s : String) : s.toUTF8.toList = s.toList.flatMap String.utf8EncodeChar := by
  have hBytes : s.toUTF8 = (s.toList.flatMap String.utf8EncodeChar).toByteArray := by
    rw [String.toUTF8_eq_toByteArray, ← String.utf8Encode_toList]
    rfl
  rw [hBytes, toList_eq_data, List.toList_data_toByteArray]

theorem toList_toUTF8_inj (h : s.toUTF8.toList = t.toUTF8.toList) : s = t := by
  rw [toList_eq_data, toList_eq_data, Array.toList_inj] at h
  exact String.toByteArray_inj.mp (ByteArray.ext h)

/-- Only the character with the code zero has a zero byte. -/
theorem zero_notMem_utf8EncodeChar {c : Char} (h : c ≠ '\x00') :
    0 ∉ String.utf8EncodeChar c := by
  have hValue : c.val.toNat ≠ 0 := fun hZero => h (Char.toNat_inj.mp hZero)
  have hByte {n : Nat} (hn : n % 256 ≠ 0) : (0 : UInt8) ≠ UInt8.ofNat n := by
    intro hEq
    have hMod := congrArg UInt8.toNat hEq
    rw [UInt8.toNat_ofNat'] at hMod
    exact hn hMod.symm
  -- all bytes but that of a single-byte character have their highest bit set
  unfold String.utf8EncodeChar
  dsimp only
  split_ifs <;> simp only [List.mem_cons, List.not_mem_nil, or_false, not_or]
  · exact hByte (by omega)
  · exact ⟨hByte (by omega), hByte (by omega)⟩
  · exact ⟨hByte (by omega), hByte (by omega), hByte (by omega)⟩
  · exact ⟨hByte (by omega), hByte (by omega), hByte (by omega), hByte (by omega)⟩

theorem zero_notMem_toUTF8 (h : '\x00' ∉ s.toList) : 0 ∉ s.toUTF8.toList := by
  rw [toList_toUTF8, List.mem_flatMap]
  rintro ⟨c, hc, hZero⟩
  have hNul : c ≠ '\x00' := fun hEq => h (hEq ▸ hc)
  exact zero_notMem_utf8EncodeChar hNul hZero

/-- A separator that does not occur before it shows where it stands. -/
theorem append_cons_inj_of_notMem {α : Type} {xs ys zs ws : List α} {a : α} (hx : a ∉ xs)
    (hy : a ∉ ys) (h : xs ++ a :: zs = ys ++ a :: ws) : xs = ys ∧ zs = ws := by
  rcases List.append_eq_append_iff.mp h with ⟨mid, rfl, hMid⟩ | ⟨mid, rfl, hMid⟩
  · cases mid with
    | nil => exact ⟨(List.append_nil xs).symm, (List.cons.inj hMid).2⟩
    | cons b mid =>
      obtain ⟨rfl, -⟩ := List.cons.inj hMid
      exact absurd (by simp) hy
  · cases mid with
    | nil => exact ⟨List.append_nil ys, (List.cons.inj hMid).2.symm⟩
    | cons b mid =>
      obtain ⟨rfl, -⟩ := List.cons.inj hMid
      exact absurd (by simp) hx

/-- A text without a zero character ends at the first zero byte. -/
theorem textBytes_append_inj (hs : '\x00' ∉ s.toList) (ht : '\x00' ∉ t.toList)
    (h : textBytes s ++ r = textBytes t ++ r') : s = t ∧ r = r' := by
  rw [textBytes, textBytes, List.append_assoc, List.append_assoc, List.singleton_append,
    List.singleton_append] at h
  obtain ⟨hBytes, hRest⟩ :=
    append_cons_inj_of_notMem (zero_notMem_toUTF8 hs) (zero_notMem_toUTF8 ht) h
  exact ⟨toList_toUTF8_inj hBytes, hRest⟩

theorem length_numberBytes (n : Nat) : (numberBytes n).length = 8 := by
  rw [numberBytes, List.length_map, List.length_range]

/-- A number of 64 bits is the sum of its bytes. -/
theorem numberBytes_inj (hn : n < UInt64.size) (hk : k < UInt64.size)
    (h : numberBytes n = numberBytes k) : n = k := by
  have hByte : ∀ i < 8, n / 256 ^ i % 256 = k / 256 ^ i % 256 := by
    intro i hi
    have hAt := congrArg (·[i]?) h
    simp only [numberBytes, List.getElem?_map, List.getElem?_range hi, Option.map_some,
      Option.some.injEq, Nat.shiftRight_eq_div_pow, Nat.pow_mul] at hAt
    have hValue := congrArg UInt8.toNat hAt
    rwa [UInt8.toNat_ofNat', UInt8.toNat_ofNat'] at hValue
  -- the lower digits in base 256 settle the remainder, one more at each step
  have hBytes : ∀ i ≤ 8, n % 256 ^ i = k % 256 ^ i := by
    intro i
    induction i with
    | zero => intro _; rw [Nat.pow_zero, Nat.mod_one, Nat.mod_one]
    | succ i ih =>
      intro hi
      rw [Nat.mod_pow_succ, Nat.mod_pow_succ, ih (by omega), hByte i (by omega)]
  have hn : n < 256 ^ 8 := hn
  have hk : k < 256 ^ 8 := hk
  rw [← Nat.mod_eq_of_lt hn, ← Nat.mod_eq_of_lt hk]
  exact hBytes 8 (by omega)

theorem numberBytes_append_inj (hn : n < UInt64.size) (hk : k < UInt64.size)
    (h : numberBytes n ++ r = numberBytes k ++ r') : n = k ∧ r = r' := by
  have hLength : (numberBytes n).length = (numberBytes k).length := by
    rw [length_numberBytes, length_numberBytes]
  obtain ⟨hBytes, hRest⟩ := List.append_inj h hLength
  exact ⟨numberBytes_inj hn hk hBytes, hRest⟩

end Bytes

/-! ## Parts -/

/--
A part whose bytes show where it ends. Texts are written up to a zero byte, so they must not hold
the character U+0000; numbers are written as words of 64 bits.
-/
def Part.Clear : Part → Prop
  | text s => '\x00' ∉ s.toList
  | optional s => ∀ t ∈ s, '\x00' ∉ t.toList
  | number n => n < UInt64.size

instance : DecidablePred Part.Clear
  | .text s => inferInstanceAs (Decidable ('\x00' ∉ s.toList))
  | .optional s => inferInstanceAs (Decidable (∀ t ∈ s, '\x00' ∉ t.toList))
  | .number n => inferInstanceAs (Decidable (n < UInt64.size))

/-- Every part shows where it ends. -/
def Clear (ps : List Part) : Prop :=
  ∀ p ∈ ps, p.Clear

instance (ps : List Part) : Decidable (Clear ps) :=
  inferInstanceAs (Decidable (∀ p ∈ ps, p.Clear))

/--
From the bytes of its parts, whatever follows them, `view` of a value can be told, and where they
end.
-/
def Shows {α β : Type} (parts : α → List Part) (view : α → β) : Prop :=
  ∀ ⦃a b r r'⦄, Clear (parts a) → Clear (parts b) →
    encode (parts a) ++ r = encode (parts b) ++ r' → view a = view b ∧ r = r'

section Shows

variable {α β γ : Type} {parts parts' : α → List Part} {view : α → β} {view' : α → γ}

theorem encode_append (ps qs : List Part) : encode (ps ++ qs) = encode ps ++ encode qs :=
  List.flatMap_append

theorem encode_cons (p : Part) (ps : List Part) : encode (p :: ps) = p.bytes ++ encode ps :=
  List.flatMap_cons

theorem encode_singleton (p : Part) : encode [p] = p.bytes :=
  List.flatMap_singleton ..

theorem shows_text : Shows (fun s => [.text s]) (fun s => s) := by
  intro s t r r' hs ht h
  rw [encode_singleton, encode_singleton] at h
  have hs' : '\x00' ∉ s.toList := hs (.text s) (by simp)
  have ht' : '\x00' ∉ t.toList := ht (.text t) (by simp)
  exact textBytes_append_inj hs' ht' h

theorem shows_number : Shows (fun n => [.number n]) (fun n => n) := by
  intro n k r r' hn hk h
  rw [encode_singleton, encode_singleton] at h
  have hn' : n < UInt64.size := hn (.number n) (by simp)
  have hk' : k < UInt64.size := hk (.number k) (by simp)
  exact numberBytes_append_inj hn' hk' h

theorem shows_optional : Shows (fun s => [.optional s]) (fun s => s) := by
  intro s t r r' hs ht h
  rw [encode_singleton, encode_singleton] at h
  have hs' : ∀ u ∈ s, '\x00' ∉ u.toList := hs (.optional s) (by simp)
  have ht' : ∀ u ∈ t, '\x00' ∉ u.toList := ht (.optional t) (by simp)
  -- the mark in front tells whether there is a text
  cases s with
  | none =>
    cases t with
    | none => exact ⟨rfl, by simpa [Part.bytes] using h⟩
    | some t => simp [Part.bytes] at h
  | some s =>
    cases t with
    | none => simp [Part.bytes] at h
    | some t =>
      simp only [Part.bytes, List.cons_append, List.cons.injEq, true_and] at h
      obtain ⟨rfl, hRest⟩ := textBytes_append_inj (hs' s rfl) (ht' t rfl) h
      exact ⟨rfl, hRest⟩

/-- What two values have in common when their parts show it. -/
theorem Shows.of_view (h : Shows parts view) (hView : ∀ a b, view a = view b → view' a = view' b) :
    Shows parts view' := by
  intro a b r r' ha hb hBytes
  obtain ⟨hEq, hRest⟩ := h ha hb hBytes
  exact ⟨hView a b hEq, hRest⟩

/-- Parts after parts show what both show. -/
theorem Shows.append (h : Shows parts view) (h' : Shows parts' view') :
    Shows (fun a => parts a ++ parts' a) (fun a => (view a, view' a)) := by
  intro a b r r' ha hb hBytes
  obtain ⟨ha, ha'⟩ := List.forall_mem_append.mp ha
  obtain ⟨hb, hb'⟩ := List.forall_mem_append.mp hb
  rw [encode_append, encode_append, List.append_assoc, List.append_assoc] at hBytes
  obtain ⟨hEq, hBytes'⟩ := h ha hb hBytes
  obtain ⟨hEq', hRest⟩ := h' ha' hb' hBytes'
  exact ⟨Prod.ext hEq hEq', hRest⟩

/-- Parts of a value that is made from another show of this what they show of that. -/
theorem Shows.comp {δ : Type} (h : Shows parts view) (f : δ → α) :
    Shows (fun d => parts (f d)) (fun d => view (f d)) :=
  fun _ _ _ _ ha hb hBytes => h ha hb hBytes

/-- Lists of one length show what their items show. -/
theorem Shows.flatMap (h : Shows parts view) : ∀ {xs ys : List α} {r r' : List UInt8},
    xs.length = ys.length → Clear (xs.flatMap parts) → Clear (ys.flatMap parts) →
    encode (xs.flatMap parts) ++ r = encode (ys.flatMap parts) ++ r' →
    xs.map view = ys.map view ∧ r = r'
  | [], [], _, _, _, _, _, hBytes => ⟨rfl, hBytes⟩
  | x :: xs, y :: ys, r, r', hLength, hx, hy, hBytes => by
    rw [List.flatMap_cons, Clear, List.forall_mem_append] at hx hy
    rw [List.flatMap_cons, List.flatMap_cons, encode_append, encode_append, List.append_assoc,
      List.append_assoc] at hBytes
    obtain ⟨hEq, hBytes'⟩ := h hx.1 hy.1 hBytes
    obtain ⟨hRest, hEnd⟩ := h.flatMap (Nat.succ.inj hLength) hx.2 hy.2 hBytes'
    exact ⟨by rw [List.map_cons, List.map_cons, hEq, hRest], hEnd⟩

/-- A list with its length in front shows what its items show. -/
theorem Shows.counted (h : Shows parts view) :
    Shows (fun xs : List α => .number xs.length :: xs.flatMap parts) (List.map view) := by
  intro xs ys r r' hx hy hBytes
  obtain ⟨hCount, hItems⟩ := List.forall_mem_cons.mp hx
  obtain ⟨hCount', hItems'⟩ := List.forall_mem_cons.mp hy
  dsimp only at hBytes
  rw [encode_cons, encode_cons, List.append_assoc, List.append_assoc] at hBytes
  obtain ⟨hLength, hBytes'⟩ := numberBytes_append_inj hCount hCount' hBytes
  exact h.flatMap hLength hItems hItems' hBytes'

end Shows

/-! ## Manifests -/

theorem shows_list : Shows listParts id := by
  intro xs ys r r' hx hy h
  have hParts (texts : List String) :
      listParts texts = .number texts.length :: texts.flatMap fun s => [.text s] := by
    rw [listParts, List.map_eq_flatMap]
  rw [hParts] at hx
  rw [hParts] at hy
  rw [hParts, hParts] at h
  obtain ⟨hEq, hRest⟩ := shows_text.counted hx hy h
  rw [List.map_id', List.map_id'] at hEq
  exact ⟨hEq, hRest⟩

/-- The word in front tells one kind from another. -/
theorem eq_of_text_cons {s t : String} {ps qs : List Part} {r r' : List UInt8}
    (hs : Clear (.text s :: ps)) (ht : Clear (.text t :: qs))
    (h : encode (.text s :: ps) ++ r = encode (.text t :: qs) ++ r') : s = t := by
  rw [encode_cons, encode_cons, List.append_assoc, List.append_assoc] at h
  have hs' : '\x00' ∉ s.toList := hs (.text s) List.mem_cons_self
  have ht' : '\x00' ∉ t.toList := ht (.text t) List.mem_cons_self
  exact (textBytes_append_inj hs' ht' h).1

theorem shows_header : Shows (fun p : String × Bool => (ItemKind.header p.1 p.2).parts) id := by
  have hWords := ((shows_text.comp fun _ : String × Bool => "include").append
    (shows_text.comp (·.1))).append (shows_text.comp fun p => if p.2 then "system" else "local")
  refine hWords.of_view ?_
  rintro ⟨path, system⟩ ⟨path', system'⟩ hEq
  simp only [Prod.mk.injEq, true_and] at hEq
  obtain ⟨rfl, hWord⟩ := hEq
  have hSystem : system = system' := by
    cases system <;> cases system' <;> simp_all
  rw [hSystem]

theorem shows_declaration :
    Shows (fun p : String × Option String => (ItemKind.text p.1 p.2).parts) id := by
  have hParts := ((shows_text.comp fun _ : String × Option String => "text").append
    (shows_text.comp (·.1))).append (shows_optional.comp (·.2))
  refine hParts.of_view ?_
  rintro ⟨t, identity⟩ ⟨t', identity'⟩ hEq
  simpa using hEq

theorem shows_initializer :
    Shows (fun p : String × String => (ItemKind.initializer p.1 p.2).parts) id := by
  have hParts := ((shows_text.comp fun _ : String × String => "initializer").append
    (shows_text.comp (·.1))).append (shows_text.comp (·.2))
  refine hParts.of_view ?_
  rintro ⟨macroName, typeName⟩ ⟨macroName', typeName'⟩ hEq
  simpa using hEq

theorem shows_kind : Shows ItemKind.parts id := by
  intro k k' r r' hk hk' h
  cases k with
  | header path system =>
    cases k' with
    | header path' system' =>
      obtain ⟨hEq, hRest⟩ := shows_header (a := (path, system)) (b := (path', system')) hk hk' h
      cases hEq
      exact ⟨rfl, hRest⟩
    | text => exact absurd (eq_of_text_cons hk hk' h) (by decide)
    | initializer => exact absurd (eq_of_text_cons hk hk' h) (by decide)
  | text t identity =>
    cases k' with
    | header => exact absurd (eq_of_text_cons hk hk' h) (by decide)
    | text t' identity' =>
      obtain ⟨hEq, hRest⟩ :=
        shows_declaration (a := (t, identity)) (b := (t', identity')) hk hk' h
      cases hEq
      exact ⟨rfl, hRest⟩
    | initializer => exact absurd (eq_of_text_cons hk hk' h) (by decide)
  | initializer macroName typeName =>
    cases k' with
    | header => exact absurd (eq_of_text_cons hk hk' h) (by decide)
    | text => exact absurd (eq_of_text_cons hk hk' h) (by decide)
    | initializer macroName' typeName' =>
      obtain ⟨hEq, hRest⟩ :=
        shows_initializer (a := (macroName, typeName)) (b := (macroName', typeName')) hk hk' h
      cases hEq
      exact ⟨rfl, hRest⟩

theorem shows_item : Shows ManifestItem.parts (fun i => (i.fragment, i.item.kind)) :=
  (shows_text.comp ManifestItem.fragment).append
    (shows_kind.comp fun i : ManifestItem => i.item.kind)

theorem shows_event : Shows RewriteEvent.parts id := by
  have hParts := ((((shows_text.comp fun e : RewriteEvent => e.action.word).append
    (shows_text.comp RewriteEvent.symbol)).append (shows_optional.comp RewriteEvent.value)).append
    (shows_text.comp RewriteEvent.fragment)).append (shows_number.comp RewriteEvent.position)
  refine hParts.of_view ?_
  rintro ⟨action, symbol, value, fragment, position⟩
    ⟨action', symbol', value', fragment', position'⟩ hEq
  simp only [Prod.mk.injEq] at hEq
  obtain ⟨⟨⟨⟨hWord, rfl⟩, rfl⟩, rfl⟩, rfl⟩ := hEq
  rw [EventAction.word_inj hWord]

end Fingerprint

/-- The item as far as its parts tell it: whether repeating it does harm is not among them. -/
def ManifestItem.unmarked (i : ManifestItem) : ManifestItem :=
  { i with item := { i.item with idempotent := false } }

namespace Manifest

variable {m m' : Manifest}

/-- The manifest without the marks of items that are harmless to repeat. -/
def unmarked (m : Manifest) : Manifest :=
  { m with items := m.items.map ManifestItem.unmarked }

/-- Marks are not digested. -/
theorem parts_unmarked (m : Manifest) : m.unmarked.parts = m.parts := by
  rw [parts, parts, unmarked, List.length_map, List.flatMap_map]
  rfl

theorem encode_unmarked (m : Manifest) :
    Fingerprint.encode m.unmarked.parts = Fingerprint.encode m.parts := by
  rw [parts_unmarked]

/-- Without its marks, a manifest is all else that it is made of. -/
theorem unmarked_eq_iff : m.unmarked = m'.unmarked ↔
    m.version = m'.version ∧ m.configuration = m'.configuration ∧ m.flags = m'.flags ∧
      m.fragments = m'.fragments ∧
      m.items.map (fun i => (i.fragment, i.item.kind))
        = m'.items.map (fun i => (i.fragment, i.item.kind)) ∧
      m.rewrites = m'.rewrites := by
  have hUnmarked (is : List ManifestItem) : is.map ManifestItem.unmarked =
      (is.map fun i => (i.fragment, i.item.kind)).map fun p => ⟨p.1, ⟨p.2, false⟩⟩ := by
    rw [List.map_map]
    rfl
  have hInjective : Function.Injective fun p : String × ItemKind =>
      (⟨p.1, ⟨p.2, false⟩⟩ : ManifestItem) := by
    rintro ⟨fragment, kind⟩ ⟨fragment', kind'⟩ hEq
    simpa using hEq
  obtain ⟨version, configuration, flags, fragments, items, rewrites⟩ := m
  obtain ⟨version', configuration', flags', fragments', items', rewrites'⟩ := m'
  simp only [unmarked, mk.injEq, hUnmarked, (List.map_injective_iff.mpr hInjective).eq_iff]

open Fingerprint in
theorem shows_unmarked : Shows parts unmarked := by
  have hParts := (((((shows_number.comp fun m : Manifest => m.version.toNat).append
    (shows_optional.comp configuration)).append (shows_list.comp flags)).append
    (shows_list.comp fragments)).append (shows_item.counted.comp items)).append
    (shows_event.counted.comp rewrites)
  refine hParts.of_view ?_
  rintro ⟨version, configuration, flags, fragments, items, rewrites⟩
    ⟨version', configuration', flags', fragments', items', rewrites'⟩ hEq
  simp only [id_eq, List.map_id_fun, Prod.mk.injEq] at hEq
  obtain ⟨⟨⟨⟨⟨hVersion, rfl⟩, rfl⟩, rfl⟩, hItems⟩, rfl⟩ := hEq
  exact unmarked_eq_iff.mpr ⟨UInt32.toNat_inj.mp hVersion, rfl, rfl, rfl, hItems, rfl⟩

/-- Manifests with the same bytes are the same but for the marks of their items. -/
theorem unmarked_eq_of_encode (hm : Fingerprint.Clear m.parts) (hm' : Fingerprint.Clear m'.parts)
    (h : Fingerprint.encode m.parts = Fingerprint.encode m'.parts) : m.unmarked = m'.unmarked := by
  have hBytes : Fingerprint.encode m.parts ++ [] = Fingerprint.encode m'.parts ++ [] :=
    congrArg (· ++ []) h
  exact (shows_unmarked hm hm' hBytes).1

end Manifest

/-! ## What may be written -/

/-- The texts that say what an item declares. -/
def ItemKind.texts : ItemKind → List String
  | header path _ => [path]
  | text t id => t :: id.toList
  | initializer macroName typeName => [macroName, typeName]

/-- The texts of an item and the name of its fragment. -/
def ManifestItem.texts (i : ManifestItem) : List String :=
  i.fragment :: i.item.kind.texts

/-- The texts of an event. -/
def RewriteEvent.texts (e : RewriteEvent) : List String :=
  [e.symbol, e.fragment] ++ e.value.toList

namespace Manifest

variable {m m' : Manifest}

/-- Every text in a manifest. -/
def texts (m : Manifest) : List String :=
  m.configuration.toList ++ m.flags ++ m.fragments ++ m.items.flatMap ManifestItem.texts
    ++ m.rewrites.flatMap RewriteEvent.texts

/-- The lengths of the lists and the positions of the events are words of 64 bits. -/
structure Counted (m : Manifest) : Prop where
  flags : m.flags.length < UInt64.size
  fragments : m.fragments.length < UInt64.size
  items : m.items.length < UInt64.size
  rewrites : m.rewrites.length < UInt64.size
  positions : ∀ e ∈ m.rewrites, e.position < UInt64.size

open Fingerprint

theorem clear_append_iff {ps qs : List Part} : Clear (ps ++ qs) ↔ Clear ps ∧ Clear qs :=
  List.forall_mem_append

theorem clear_cons_iff {p : Part} {ps : List Part} : Clear (p :: ps) ↔ p.Clear ∧ Clear ps :=
  List.forall_mem_cons

theorem clear_flatMap {α : Type} {parts : α → List Part} {xs : List α}
    (h : ∀ x ∈ xs, Clear (parts x)) : Clear (xs.flatMap parts) := by
  intro p hp
  obtain ⟨x, hx, hp⟩ := List.mem_flatMap.mp hp
  exact h x hx p hp

theorem clear_listParts {texts : List String} (hCount : texts.length < UInt64.size)
    (h : ∀ s ∈ texts, '\x00' ∉ s.toList) : Clear (listParts texts) := by
  refine clear_cons_iff.mpr ⟨hCount, ?_⟩
  intro p hp
  obtain ⟨s, hs, rfl⟩ := List.mem_map.mp hp
  exact h s hs

theorem clear_kind {k : ItemKind} (h : ∀ s ∈ k.texts, '\x00' ∉ s.toList) : Clear k.parts := by
  cases k with
  | header path system =>
    have hPath : (Part.text path).Clear := h path List.mem_cons_self
    have hWord : (Part.text (if system then "system" else "local")).Clear := by
      cases system <;> decide
    refine clear_cons_iff.mpr ⟨by decide, clear_cons_iff.mpr ⟨hPath, ?_⟩⟩
    exact clear_cons_iff.mpr ⟨hWord, by decide⟩
  | text t id =>
    have hText : (Part.text t).Clear := h t List.mem_cons_self
    have hId : (Part.optional id).Clear := by
      intro i hi
      exact h i (List.mem_cons_of_mem t (Option.mem_toList.mpr hi))
    refine clear_cons_iff.mpr ⟨by decide, clear_cons_iff.mpr ⟨hText, ?_⟩⟩
    exact clear_cons_iff.mpr ⟨hId, by decide⟩
  | initializer macroName typeName =>
    have hMacro : (Part.text macroName).Clear := h macroName (by simp [ItemKind.texts])
    have hType : (Part.text typeName).Clear := h typeName (by simp [ItemKind.texts])
    refine clear_cons_iff.mpr ⟨by decide, clear_cons_iff.mpr ⟨hMacro, ?_⟩⟩
    exact clear_cons_iff.mpr ⟨hType, by decide⟩

theorem clear_event {e : RewriteEvent} (h : ∀ s ∈ e.texts, '\x00' ∉ s.toList)
    (hPosition : e.position < UInt64.size) : Clear e.parts := by
  have hWord : (Part.text e.action.word).Clear := by
    cases e.action <;> decide
  have hSymbol : (Part.text e.symbol).Clear := h e.symbol (by simp [RewriteEvent.texts])
  have hFragment : (Part.text e.fragment).Clear := h e.fragment (by simp [RewriteEvent.texts])
  have hValue : (Part.optional e.value).Clear := by
    intro v hv
    exact h v (List.mem_append_right _ (Option.mem_toList.mpr hv))
  have hNumber : (Part.number e.position).Clear := hPosition
  simp only [RewriteEvent.parts, clear_cons_iff, hWord, hSymbol, hValue, hFragment, hNumber,
    true_and]
  decide

/-- Texts without zero characters and numbers of 64 bits are all that the parts need. -/
theorem clear_parts (hTexts : ∀ s ∈ m.texts, '\x00' ∉ s.toList) (hCounted : m.Counted) :
    Clear m.parts := by
  simp only [texts, List.forall_mem_append] at hTexts
  obtain ⟨⟨⟨⟨hConfiguration, hFlags⟩, hFragments⟩, hItems⟩, hRewrites⟩ := hTexts
  have hVersion : (Part.number m.version.toNat).Clear :=
    Nat.lt_trans m.version.toNat_lt (by decide)
  have hName : (Part.optional m.configuration).Clear := by
    intro c hc
    exact hConfiguration c (Option.mem_toList.mpr hc)
  have hItemParts : Clear (m.items.flatMap ManifestItem.parts) := by
    refine clear_flatMap fun i hi => ?_
    have hi (s : String) (hs : s ∈ i.texts) := hItems s (List.mem_flatMap.mpr ⟨i, hi, hs⟩)
    have hFragment : (Part.text i.fragment).Clear := hi i.fragment List.mem_cons_self
    have hKind : Clear i.item.kind.parts :=
      clear_kind fun s hs => hi s (List.mem_cons_of_mem _ hs)
    exact clear_cons_iff.mpr ⟨hFragment, hKind⟩
  have hEventParts : Clear (m.rewrites.flatMap RewriteEvent.parts) := by
    refine clear_flatMap fun e he => ?_
    exact clear_event (fun s hs => hRewrites s (List.mem_flatMap.mpr ⟨e, he, hs⟩))
      (hCounted.positions e he)
  have hItemCount : (Part.number m.items.length).Clear := hCounted.items
  have hEventCount : (Part.number m.rewrites.length).Clear := hCounted.rewrites
  have hHead : Clear [.number m.version.toNat, .optional m.configuration] :=
    clear_cons_iff.mpr ⟨hVersion, clear_cons_iff.mpr ⟨hName, nofun⟩⟩
  have hLists : Clear (listParts m.flags) ∧ Clear (listParts m.fragments) :=
    ⟨clear_listParts hCounted.flags hFlags, clear_listParts hCounted.fragments hFragments⟩
  simp only [parts, clear_append_iff]
  exact ⟨⟨⟨⟨hHead, hLists.1⟩, hLists.2⟩, clear_cons_iff.mpr ⟨hItemCount, hItemParts⟩⟩,
    clear_cons_iff.mpr ⟨hEventCount, hEventParts⟩⟩

/--
The bytes that are digested tell every part of a manifest, down to whether an item has no identity
or an empty one. Manifests have the same bytes if and only if they are the same but for the marks of
their items.
-/
theorem encode_eq_iff (hm : ∀ s ∈ m.texts, '\x00' ∉ s.toList)
    (hm' : ∀ s ∈ m'.texts, '\x00' ∉ s.toList) (hCounted : m.Counted) (hCounted' : m'.Counted) :
    encode m.parts = encode m'.parts ↔
      m.version = m'.version ∧ m.configuration = m'.configuration ∧ m.flags = m'.flags ∧
        m.fragments = m'.fragments ∧
        m.items.map (fun i => (i.fragment, i.item.kind))
          = m'.items.map (fun i => (i.fragment, i.item.kind)) ∧
        m.rewrites = m'.rewrites := by
  rw [← unmarked_eq_iff]
  constructor
  · exact unmarked_eq_of_encode (clear_parts hm hCounted) (clear_parts hm' hCounted')
  · intro hSame
    rw [← encode_unmarked, hSame, encode_unmarked]

/-- A manifest that declares a text, under an identity if one is given. -/
def declaring (id : Option String) : Manifest :=
  { version := currentVersion, configuration := none, flags := ["FOO"], fragments := ["base"]
    items := [⟨"base", ⟨.text "int x;" id, false⟩⟩]
    rewrites := [⟨.apply, "INIT(x)", some "x", "base", 0⟩, ⟨.restore, "INIT(x)", none, "base", 1⟩] }

theorem counted_declaring (id : Option String) : (declaring id).Counted := by
  have hOne : 1 < UInt64.size := by decide
  have hTwo : 2 < UInt64.size := by decide
  have hPositions : ∀ e ∈ (declaring none).rewrites, e.position < UInt64.size := by decide
  exact ⟨hOne, hOne, hOne, hTwo, hPositions⟩

/-- No identity and an empty one are told apart. -/
theorem encode_eq_iff_sample :
    (∀ s ∈ (declaring none).texts, '\x00' ∉ s.toList) ∧
      (∀ s ∈ (declaring (some "")).texts, '\x00' ∉ s.toList) ∧
      (declaring none).Counted ∧ (declaring (some "")).Counted ∧
      encode (declaring none).parts ≠ encode (declaring (some "")).parts := by
  have hNone : ∀ s ∈ (declaring none).texts, '\x00' ∉ s.toList := by decide
  have hEmpty : ∀ s ∈ (declaring (some "")).texts, '\x00' ∉ s.toList := by decide
  refine ⟨hNone, hEmpty, counted_declaring none, counted_declaring (some ""), ?_⟩
  intro hBytes
  have hSame := (encode_eq_iff hNone hEmpty (counted_declaring none)
    (counted_declaring (some ""))).mp hBytes
  exact absurd hSame.2.2.2.2.1 (by decide)

end Manifest

end DeclSurface
