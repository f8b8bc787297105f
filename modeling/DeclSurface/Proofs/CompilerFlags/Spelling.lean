import DeclSurface.CompilerFlags
import Mathlib.Data.List.TakeWhile

/-!
# Spellings of mentions

A mention of a flag is written behind a marker, in the same argument or in the next one. An
argument behind a lone marker is taken whatever it looks like, so it matters that reading keeps in
step: what one mention takes the next one must not see.

* `FlagMention.Proper`       — the mentions that can be written.
* `FlagMention.written`      — what stands behind the marker.
* `Spelled`                  — the ways of writing mentions as arguments, among other arguments.
* `ofText_written`           — what stands behind a marker is read as the mention.
* `mentionsOfArgs_of_spelled` — reading the arguments gives back the mentions.
-/

namespace DeclSurface

namespace FlagMention

/-- The name of a flag can be told from its value, and is not empty. -/
def Proper : FlagMention → Prop
  | define name _ => name ≠ "" ∧ '=' ∉ name.toList
  | undefine name => name ≠ ""

/-- The kind of a mention. -/
def kind : FlagMention → Kind
  | define _ _ => .define
  | undefine _ => .undefine

/-- What is written behind the marker of a mention. -/
def written : FlagMention → String
  | define name none => name
  | define name (some value) => name ++ "=" ++ value
  | undefine name => name

/-- The markers of a kind of mentions. -/
def Kind.markers : Kind → List String
  | define => ["-D", "/D"]
  | undefine => ["-U"]

end FlagMention

/-- No marker stands at the start of an argument. -/
def Unmarked (arg : String) : Prop :=
  ∀ kind : FlagMention.Kind, ∀ marker ∈ kind.markers, ¬ marker.toList <+: arg.toList

/--
Arguments that spell mentions one after the other. Between two of them unmarked arguments may stand,
and a marker with nothing behind it may stand at the very end.
-/
inductive Spelled : List FlagMention → List String → Prop where
  | nil : Spelled [] []
  | dangling {k : FlagMention.Kind} {marker : String} :
      marker ∈ k.markers → Spelled [] [marker]
  | unmarked {ms : List FlagMention} {arg : String} {args : List String} :
      Unmarked arg → Spelled ms args → Spelled ms (arg :: args)
  | joined {m : FlagMention} {ms : List FlagMention} (marker : String) {args : List String} :
      m.Proper → marker ∈ m.kind.markers → Spelled ms args →
      Spelled (m :: ms) ((marker ++ m.written) :: args)
  | separate {m : FlagMention} {ms : List FlagMention} (marker : String) {args : List String} :
      m.Proper → marker ∈ m.kind.markers → Spelled ms args →
      Spelled (m :: ms) (marker :: m.written :: args)

namespace FlagMention

variable {m : FlagMention} {k : Kind} {marker arg : String}

/-! ## Markers -/

theorem Kind.ofArg_marker (h : marker ∈ k.markers) (rest : List Char) :
    ofArg (marker.toList ++ rest) = some (k, rest) := by
  cases k with
  | define =>
    have hEither : marker = "-D" ∨ marker = "/D" := by
      simpa [Kind.markers] using h
    rcases hEither with rfl | rfl
    · rfl
    · rfl
  | undefine =>
    obtain rfl := List.mem_singleton.mp h
    rfl

/-- An argument makes no mention exactly if it starts with no marker. -/
theorem Kind.ofArg_eq_none_iff : ofArg arg.toList = none ↔ Unmarked arg := by
  constructor
  · rintro hNone k marker hMarker ⟨rest, hRest⟩
    rw [← hRest, ofArg_marker hMarker] at hNone
    simp at hNone
  · intro hUnmarked
    unfold ofArg
    split
    · rename_i rest hArg
      exact absurd ⟨rest, hArg.symm⟩ (hUnmarked .define "-D" (by decide))
    · rename_i rest hArg
      exact absurd ⟨rest, hArg.symm⟩ (hUnmarked .define "/D" (by decide))
    · rename_i rest hArg
      exact absurd ⟨rest, hArg.symm⟩ (hUnmarked .undefine "-U" (by decide))
    · rfl

/-! ## What stands behind a marker -/

theorem toList_ne_nil {s : String} (h : s ≠ "") : s.toList ≠ [] := by
  intro hNil
  exact h (String.toList_injective hNil)

theorem bne_of_notMem {cs : List Char} (h : '=' ∉ cs) : ∀ c ∈ cs, (c != '=') = true := by
  intro c hc
  exact bne_iff_ne.mpr fun hEq => h (hEq ▸ hc)

/-- A definition without the sign is a definition of the whole text. -/
theorem ofDefinition_plain {name : List Char} (hSome : name ≠ []) (hFree : '=' ∉ name) :
    ofDefinition name = [define (String.ofList name) none] := by
  have hTake : name.takeWhile (· != '=') = name :=
    List.takeWhile_eq_self_iff.mpr (bne_of_notMem hFree)
  have hDrop : name.dropWhile (· != '=') = [] :=
    List.dropWhile_eq_nil_iff.mpr (bne_of_notMem hFree)
  rw [ofDefinition, hTake, hDrop, List.isEmpty_eq_false_iff.mpr hSome]
  rfl

/-- The first sign ends the name; what stands behind it is the value as it is. -/
theorem ofDefinition_valued {name : List Char} (hSome : name ≠ []) (hFree : '=' ∉ name)
    (value : List Char) :
    ofDefinition (name ++ '=' :: value)
      = [define (String.ofList name) (some (String.ofList value))] := by
  have hTake : (name ++ '=' :: value).takeWhile (· != '=') = name := by
    rw [List.takeWhile_append_of_pos (bne_of_notMem hFree), List.takeWhile_cons_of_neg (by decide),
      List.append_nil]
  have hDrop : (name ++ '=' :: value).dropWhile (· != '=') = '=' :: value := by
    rw [List.dropWhile_append_of_pos (bne_of_notMem hFree), List.dropWhile_cons_of_neg (by decide)]
  rw [ofDefinition, hTake, hDrop, List.isEmpty_eq_false_iff.mpr hSome]
  rfl

theorem toList_written_valued (name value : String) :
    (written (define name (some value))).toList = name.toList ++ '=' :: value.toList := by
  simp [written]

theorem written_ne_nil (h : m.Proper) : m.written.toList ≠ [] := by
  cases m with
  | undefine name => exact toList_ne_nil h
  | define name value =>
    cases value with
    | none => exact toList_ne_nil h.1
    | some value => simp [toList_written_valued]

/-- What is written behind the marker of a mention is read as that mention. -/
theorem ofText_written (h : m.Proper) : ofText m.kind m.written.toList = [m] := by
  cases m with
  | undefine name =>
    have hName : name.toList.isEmpty = false := List.isEmpty_eq_false_iff.mpr (toList_ne_nil h)
    show (if name.toList.isEmpty = true then [] else [undefine (String.ofList name.toList)]) = _
    rw [hName, if_neg Bool.false_ne_true, String.ofList_toList]
  | define name value =>
    cases value with
    | none =>
      show ofDefinition name.toList = _
      rw [ofDefinition_plain (toList_ne_nil h.1) h.2, String.ofList_toList]
    | some value =>
      show ofDefinition (written (define name (some value))).toList = _
      rw [toList_written_valued, ofDefinition_valued (toList_ne_nil h.1) h.2, String.ofList_toList,
        String.ofList_toList]

end FlagMention

/-! ## Reading arguments -/

variable {m : FlagMention} {ms : List FlagMention} {marker arg : String} {args : List String}

theorem mentionsOfArgs_unmarked (h : Unmarked arg) :
    mentionsOfArgs (arg :: args) = mentionsOfArgs args := by
  rw [mentionsOfArgs, FlagMention.Kind.ofArg_eq_none_iff.mpr h]

theorem mentionsOfArgs_dangling {k : FlagMention.Kind} (h : marker ∈ k.markers) :
    mentionsOfArgs [marker] = [] := by
  have hArg := FlagMention.Kind.ofArg_marker h []
  rw [List.append_nil] at hArg
  rw [mentionsOfArgs, hArg]

theorem mentionsOfArgs_joined (h : m.Proper) (hMarker : marker ∈ m.kind.markers) :
    mentionsOfArgs ((marker ++ m.written) :: args) = m :: mentionsOfArgs args := by
  -- something stands behind the marker, so the next argument is not taken
  obtain ⟨c, cs, hText⟩ := List.exists_cons_of_ne_nil (FlagMention.written_ne_nil h)
  have hArg : FlagMention.Kind.ofArg (marker ++ m.written).toList = some (m.kind, c :: cs) := by
    rw [String.toList_append, FlagMention.Kind.ofArg_marker hMarker, hText]
  rw [mentionsOfArgs, hArg]
  show FlagMention.ofText m.kind (c :: cs) ++ mentionsOfArgs args = _
  rw [← hText, FlagMention.ofText_written h, List.singleton_append]

/-- A marker on its own takes the next argument, whatever that looks like. -/
theorem mentionsOfArgs_separate (h : m.Proper) (hMarker : marker ∈ m.kind.markers) :
    mentionsOfArgs (marker :: m.written :: args) = m :: mentionsOfArgs args := by
  have hArg := FlagMention.Kind.ofArg_marker hMarker []
  rw [List.append_nil] at hArg
  rw [mentionsOfArgs, hArg]
  show FlagMention.ofText m.kind m.written.toList ++ mentionsOfArgs args = _
  rw [FlagMention.ofText_written h, List.singleton_append]

/-- However mentions are spelled, reading the arguments gives back just these, in order. -/
theorem mentionsOfArgs_of_spelled (h : Spelled ms args) : mentionsOfArgs args = ms := by
  -- each case of the spelling takes just the arguments that it has written
  induction h with
  | nil => rfl
  | dangling hMarker => exact mentionsOfArgs_dangling hMarker
  | unmarked hArg _ ih => rw [mentionsOfArgs_unmarked hArg, ih]
  | joined _ hProper hMarker _ ih => rw [mentionsOfArgs_joined hProper hMarker, ih]
  | separate _ hProper hMarker _ ih => rw [mentionsOfArgs_separate hProper hMarker, ih]

/-- The flag behind the second marker looks like a definition, and the value of the first like two. -/
theorem mentionsOfArgs_of_spelled_sample :
    Spelled [.define "A" (some "=B="), .undefine "-DC", .define "D" (some "")]
      ["-O2", "/DA==B=", "-I", "-U", "-DC", "-D", "D=", "/D"] ∧
    mentionsOfArgs ["-O2", "/DA==B=", "-I", "-U", "-DC", "-D", "D=", "/D"] =
      [.define "A" (some "=B="), .undefine "-DC", .define "D" (some "")] := by
  have hUnmarked (arg : String) (h : FlagMention.Kind.ofArg arg.toList = none) : Unmarked arg :=
    FlagMention.Kind.ofArg_eq_none_iff.mp h
  have hEnd : Spelled [] ["/D"] := .dangling (k := .define) (by decide)
  have hLast : Spelled [.define "D" (some "")] ["-D", "D=", "/D"] :=
    .separate "-D" (m := .define "D" (some "")) ⟨by decide, by decide⟩ (by decide) hEnd
  have hUndefined : Spelled [.undefine "-DC", .define "D" (some "")]
      ["-U", "-DC", "-D", "D=", "/D"] :=
    .separate "-U" (m := .undefine "-DC") (by decide : "-DC" ≠ "") (by decide) hLast
  have hFirst : Spelled [.define "A" (some "=B="), .undefine "-DC", .define "D" (some "")]
      ["/DA==B=", "-I", "-U", "-DC", "-D", "D=", "/D"] :=
    .joined "/D" (m := .define "A" (some "=B=")) ⟨by decide, by decide⟩ (by decide)
      (.unmarked (hUnmarked _ rfl) hUndefined)
  have hAll := Spelled.unmarked (hUnmarked "-O2" rfl) hFirst
  exact ⟨hAll, mentionsOfArgs_of_spelled hAll⟩

end DeclSurface
