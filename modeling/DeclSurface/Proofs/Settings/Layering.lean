import DeclSurface.Proofs.Record.RoundTrip
import DeclSurface.Settings

/-!
# Settings on top of settings

The settings of a project come on top of those of the user, and both on top of the defaults. A file
need not set anything, and what it leaves open should come from the layer below it. That is so for
the output format and the configuration, and flags add up. Whether headers show a fingerprint is
different: settings in effect do not tell a file that turns it on from one that says nothing, so a
project cannot turn it on again.

* `SettingsEntry.ofFile`      — what a file sets; a file that is missing or broken sets nothing.
* `ofDatum_toDatum`           — any choice of keys can be set, and is read back.
* `foldl_addFlag`             — flags are kept where they occur first.
* `Settings.Layered`          — what is promised about two files and the settings in effect.
* `Settings.layered_ofFiles`  — every two files keep the promise.
* `Settings.fingerprint_stays_off` — a project cannot turn on what the user has turned off.
-/

namespace DeclSurface

/-! ## What a file sets -/

namespace SettingsEntry

/-- What a file sets, which is nothing if it is not there or cannot be read as settings. -/
def ofFile (d : Disk) (file : Path) : SettingsEntry :=
  match (d.read? file).bind Toml.parse? with
  | none => {}
  | some doc =>
    match ofDatum doc with
    | .ok e => e
    | .error _ => {}

/-- The tables of a file that sets just what an entry says. -/
def toDatum (e : SettingsEntry) : Datum :=
  .record
    [("compose", .record (optionalField "format" e.format
        ++ (optionalField "configuration" e.configuration
          ++ (e.flags.toList.map fun flags => ("flags", Datum.texts flags))))),
      ("emit", .record (e.fingerprint.toList.map fun b => ("fingerprint", Datum.bool b)))]

/-- Whatever keys a file sets are read, and no others. -/
theorem ofDatum_toDatum (e : SettingsEntry) : ofDatum e.toDatum = .ok e := by
  obtain ⟨format, configuration, flags, fingerprint⟩ := e
  have hFlags : (compositionShape {}).readFields
      (flags.toList.map fun flags => ("flags", Datum.texts flags)) { format, configuration }
      = .ok { format, configuration, flags } := by
    cases flags with
    | none => rfl
    | some flags =>
      have hSet : (compositionShape {}).set "flags" (.texts flags) { format, configuration }
          = .ok { format, configuration, flags := some flags } := by
        show (Shape.listOf Shape.text (.texts flags) >>= _) = _
        rw [Shape.listOf_texts, ok_bind]
      exact RecordShape.readFields_cons (by decide) hSet
  have hCompose : (compositionShape {}).read none
      (.record (optionalField "format" format ++ (optionalField "configuration" configuration
        ++ (flags.toList.map fun flags => ("flags", Datum.texts flags)))))
      = .ok { format, configuration, flags } := by
    refine RecordShape.read_record (s := { format, configuration, flags }) ?_ rfl
    refine (RecordShape.readFields_optional (t := { format }) (by decide) ?_ ?_).trans ?_
    · rintro v rfl
      rfl
    · rintro rfl
      rfl
    refine (RecordShape.readFields_optional (t := { format, configuration }) (by decide)
      ?_ ?_).trans hFlags
    · rintro v rfl
      rfl
    · rintro rfl
      rfl
  have hEmit : (outputShape { format, configuration, flags }).read none
      (.record (fingerprint.toList.map fun b => ("fingerprint", Datum.bool b)))
      = .ok { format, configuration, flags, fingerprint } := by
    cases fingerprint <;> rfl
  refine RecordShape.read_record (s := { format, configuration, flags, fingerprint }) ?_ rfl
  refine (RecordShape.readFields_cons (by decide) hCompose).trans ?_
  exact RecordShape.readFields_cons (by decide) hEmit

end SettingsEntry

/-! ## One layer on top of another -/

namespace Settings

/-- A file is loaded as what it sets, over the defaults. -/
theorem loadOrDefault_eq (d : Disk) (file : Path) :
    loadOrDefault d file = (SettingsEntry.ofFile d file).toSettings := by
  rw [loadOrDefault, load, SettingsEntry.ofFile]
  cases d.read? file with
  | none => rfl
  | some text =>
    dsimp only [Option.bind_some]
    rw [parse]
    cases Toml.parse? text with
    | none => rfl
    | some doc =>
      dsimp only
      cases SettingsEntry.ofDatum doc <;> rfl

/-- Flags are added where they occur first. -/
theorem foldl_addFlag (flags added : List String) :
    added.foldl addFlag flags = flags ++ (added.filter fun x => !flags.contains x).eraseDups := by
  induction added generalizing flags with
  | nil => simp
  | cons x added ih =>
    rw [List.foldl_cons, ih, addFlag]
    by_cases h : flags.contains x
    · rw [if_pos h, List.filter_cons_of_neg (by simpa using h)]
    · rw [if_neg h, List.filter_cons_of_pos (by simpa using h), List.eraseDups_cons,
        List.filter_filter, List.append_assoc, List.singleton_append]
      congr 3
      refine List.filter_congr fun y _ => ?_
      rw [List.contains_append, Bool.not_or, Bool.and_comm, List.contains_cons, List.contains_nil,
        Bool.or_false]

theorem foldl_addFlag_nil (flags : List String) : flags.foldl addFlag [] = flags.eraseDups := by
  have hAll : flags.filter (fun x => !([] : List String).contains x) = flags :=
    List.filter_eq_self.mpr fun x _ => rfl
  rw [foldl_addFlag, List.nil_append, hAll]

/-- What is promised about the settings in effect, given what the two files set. -/
structure Layered (user project : SettingsEntry) (s : Settings) : Prop where
  /-- The output format of the project counts, then that of the user. -/
  format : s.format = project.format.or user.format
  configuration : s.configuration = project.configuration.or user.configuration
  /-- The flags of both files, those of the user first, each where it occurs first. -/
  flags : s.flags = (user.flags.getD [] ++ project.flags.getD []).eraseDups
  /-- Headers show a fingerprint unless one of the files turns it off. -/
  fingerprint : s.fingerprint = true ↔
    user.fingerprint ≠ some false ∧ project.fingerprint ≠ some false
  /-- So the project decides here too, unless it turns on what the user has turned off. -/
  fingerprint_project : s.fingerprint = (project.fingerprint.or user.fingerprint).getD true ↔
    ¬ (user.fingerprint = some false ∧ project.fingerprint = some true)

theorem layered_merge (user project : SettingsEntry) :
    Layered user project ((merge {} user.toSettings).merge project.toSettings) := by
  have hFirst (a b : Option String) : (a <|> (b <|> none)) = a.or b := by
    cases a <;> cases b <;> rfl
  have hFingerprint : ((merge {} user.toSettings).merge project.toSettings).fingerprint
      = (user.fingerprint.getD true && project.fingerprint.getD true) := rfl
  refine { format := ?format, configuration := ?configuration, flags := ?flags
           fingerprint := ?fingerprint, fingerprint_project := ?fingerprint_project }
  case format => exact hFirst project.format user.format
  case configuration => exact hFirst project.configuration user.configuration
  case flags =>
    show (project.flags.getD []).foldl addFlag ((user.flags.getD []).foldl addFlag []) = _
    rw [← List.foldl_append, foldl_addFlag_nil]
  case fingerprint =>
    rw [hFingerprint]
    rcases user.fingerprint with _ | _ | _ <;> rcases project.fingerprint with _ | _ | _ <;> simp
  case fingerprint_project =>
    rw [hFingerprint]
    rcases user.fingerprint with _ | _ | _ <;> rcases project.fingerprint with _ | _ | _ <;> simp

/--
Of two files, either of which may be missing, the project's comes first in all that it sets, except
that it cannot turn a fingerprint on again. Flags add up.
-/
theorem layered_ofFiles (d : Disk) (user project : Path) :
    Layered (SettingsEntry.ofFile d user) (SettingsEntry.ofFile d project)
      (ofFiles d user project) := by
  rw [ofFiles, loadOrDefault_eq, loadOrDefault_eq]
  exact layered_merge _ _

namespace Sample

/-- The user turns fingerprints off and the project turns them on. -/
def disk : Disk where
  tree :=
    { files :=
        [(["home", "config.toml"], "[emit]\nfingerprint = false\n"),
          (["lib", ".quay", "config.toml"], "[emit]\nfingerprint = true\n")] }

def userFile : Path := ⟨"home/config.toml"⟩

theorem ofFile_user : SettingsEntry.ofFile disk userFile = { fingerprint := some false } := by
  decide +kernel

theorem ofFile_project :
    SettingsEntry.ofFile disk (projectFile ⟨"lib"⟩) = { fingerprint := some true } := by
  decide +kernel

end Sample

/-- What a project sets does not always count: a fingerprint that the user turned off stays off. -/
theorem fingerprint_stays_off :
    ¬ ∀ d user project, (ofFiles d user project).fingerprint
      = ((SettingsEntry.ofFile d project).fingerprint.or
          (SettingsEntry.ofFile d user).fingerprint).getD true := by
  intro hLayered
  have hOn := hLayered Sample.disk Sample.userFile (projectFile ⟨"lib"⟩)
  rw [ofFiles, loadOrDefault_eq, loadOrDefault_eq, Sample.ofFile_user, Sample.ofFile_project] at hOn
  exact absurd hOn (by decide)

end Settings

end DeclSurface
