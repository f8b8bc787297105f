import DeclSurface.Library.Source
import DeclSurface.Proofs.Files.Spelling

/-!
# Included files

A library names the files that it includes by patterns. The files that fit are put in order, and
each of them adds its fragments and rules once. So neither the order of the patterns nor how often
one of them is listed makes a difference, and patterns may overlap. All of this holds for every
`glob`, whatever paths it gives for a pattern, and in whatever order; `Library.parse` is the case of
`Disk.glob`.

* `Contents`               — the fragments and rules of a file.
* `foldlM_includeFile`     — a run of included files adds the contents of each.
* `Disk.Matches`           — a file fits one of some patterns.
* `Library.Inclusion`      — what is promised about the files that a library includes.
* `Library.parse_included` — only the set of patterns counts, and the promise is kept.
-/

namespace DeclSurface

/-! ## What files contain -/

/-- The fragments and rules of a file. -/
structure Contents where
  fragments : List Fragment := []
  rewrites : List RewriteRule := []

namespace Contents

/-- The contents of several files, one after the other. -/
def joined (parts : List Contents) : Contents where
  fragments := parts.flatMap (·.fragments)
  rewrites := parts.flatMap (·.rewrites)

end Contents

/-- The fragments and rules that the entries of a file describe. -/
def LibraryEntry.contents (entry : LibraryEntry) : Result Contents := do
  let fragments ← entry.fragments.mapM (FragmentEntry.toFragment false)
  let rewrites ← entry.rewrites.mapM RewriteEntry.toRule
  .ok { fragments, rewrites }

namespace Library

/-- The fragments and rules of an included file, which may hold nothing else. -/
def contentsOf (d : Disk) (file : Path) : Result Contents := do
  let text ← readText d file
  let entry ← LibraryEntry.parse file.text text
  if entry.metadata.isSome || !entry.configurations.isEmpty then
    Result.fail (.includedContents file)
  else Result.within entry.contents (.includedFile file)

/-- The library with the fragments and rules of some files at its end. -/
def extended (l : Library) (files : List Path) (added : Contents) : Library :=
  { l with
    fragments := l.fragments ++ added.fragments
    rewrites := l.rewrites ++ added.rewrites
    sources := l.sources ++ files }

theorem absorb_eq (l : Library) (entry : LibraryEntry) :
    l.absorb entry = (do
      let added ← entry.contents
      .ok (l.extended [] added)) := by
  rw [absorb, LibraryEntry.contents]
  cases entry.fragments.mapM (FragmentEntry.toFragment false) with
  | error f => rfl
  | ok fragments =>
    cases entry.rewrites.mapM RewriteEntry.toRule with
    | error f => rfl
    | ok rewrites => simp [extended, bind, Except.bind]

/-- An included file adds its contents. -/
theorem includeFile_eq (d : Disk) (l : Library) (file : Path) :
    includeFile d l file = (do
      let added ← contentsOf d file
      .ok (l.extended [file] added)) := by
  rw [includeFile, contentsOf]
  cases readText d file with
  | error f => rfl
  | ok text =>
    rw [ok_bind, ok_bind]
    cases LibraryEntry.parse file.text text with
    | error f => rfl
    | ok entry =>
      rw [ok_bind, ok_bind, absorb_eq]
      split
      · -- the file holds more than fragments and rules
        rfl
      · cases entry.contents with
        | error f => rfl
        | ok added => simp [extended, Result.within, Except.mapError, bind, Except.bind]

/-- A run of included files adds the contents of each, in their order. -/
theorem foldlM_includeFile (d : Disk) (l : Library) (files : List Path) :
    files.foldlM (includeFile d) l = (do
      let parts ← files.mapM (contentsOf d)
      .ok (l.extended files (.joined parts))) := by
  induction files generalizing l with
  | nil => simp [extended, Contents.joined, pure, Except.pure, bind, Except.bind]
  | cons file files ih =>
    rw [List.foldlM_cons, List.mapM_cons, includeFile_eq]
    cases contentsOf d file with
    | error f => rfl
    | ok added =>
      rw [ok_bind, ok_bind, ok_bind, ih]
      -- the other files are read as they would be without the first
      cases files.mapM (contentsOf d) with
      | error f => rfl
      | ok parts => simp [extended, Contents.joined, pure, Except.pure, bind, Except.bind]

end Library

/-! ## Which files fit -/

namespace Disk

/-- A text is a pattern for files below a directory. -/
def Accepts (glob : Matcher) (root : Path) (pattern : String) : Prop :=
  ∃ ps, glob (root.child pattern).text = .ok ps

/-- A path leads to a file and fits one of some patterns for files below a directory. -/
def Matches (d : Disk) (glob : Matcher) (root : Path) (patterns : List String) (p : Path) : Prop :=
  d.isFile p ∧ ∃ pattern ∈ patterns, ∃ ps, glob (root.child pattern).text = .ok ps ∧ p ∈ ps

/-- The files that fit a pattern, if it is one. -/
def fitting (d : Disk) (glob : Matcher) (root : Path) (pattern : String) : List Path :=
  ((glob (root.child pattern).text).toOption.getD []).filter d.isFile

variable {d : Disk} {glob : Matcher} {root p : Path} {patterns : List String}

theorem mem_flatMap_fitting :
    p ∈ patterns.flatMap (d.fitting glob root) ↔ d.Matches glob root patterns p := by
  have hEach (pattern : String) : p ∈ d.fitting glob root pattern ↔
      d.isFile p ∧ ∃ ps, glob (root.child pattern).text = .ok ps ∧ p ∈ ps := by
    rw [fitting, List.mem_filter, and_comm]
    cases glob (root.child pattern).text <;> simp [Except.toOption]
  simp only [List.mem_flatMap, hEach, Matches]
  constructor
  · rintro ⟨pattern, hPattern, hFile, hFits⟩
    exact ⟨hFile, pattern, hPattern, hFits⟩
  · rintro ⟨hFile, pattern, hPattern, hFits⟩
    exact ⟨pattern, hPattern, hFile, hFits⟩

theorem Matches.mono {patterns' : List String} (h : d.Matches glob root patterns p)
    (hSubset : patterns ⊆ patterns') : d.Matches glob root patterns' p := by
  obtain ⟨hFile, pattern, hPattern, hFits⟩ := h
  exact ⟨hFile, pattern, hSubset hPattern, hFits⟩

/-- Where all patterns are valid, the files that fit any of them are found. -/
theorem filesMatching_eq (h : ∀ pattern ∈ patterns, Accepts glob root pattern) :
    d.filesMatching glob root patterns
      = .ok (Path.sorted (patterns.flatMap (d.fitting glob root))) := by
  refine bind_eq_ok_iff.mpr ⟨patterns.map (d.fitting glob root), mapM_eq_ok_iff.mpr ?_, rfl⟩
  rw [List.forall₂_map_right_iff, List.forall₂_same]
  intro pattern hPattern
  obtain ⟨ps, hps⟩ := h pattern hPattern
  rw [fitting, hps]
  rfl

end Disk

namespace Library

variable {d : Disk} {glob : Disk.Matcher} {root p q : Path} {entry : LibraryEntry}
  {metadata : MetadataEntry} {patterns : List String} {text : String}

/-- The files that a library includes: those that fit a pattern, in order and each once. -/
def filesIncluded (glob : Disk.Matcher) (d : Disk) (root : Path) (patterns : List String) :
    List Path :=
  Path.sorted (patterns.flatMap (d.fitting glob root))

theorem matches_of_mem_filesIncluded (h : p ∈ filesIncluded glob d root patterns) :
    d.Matches glob root patterns p :=
  Disk.mem_flatMap_fitting.mp (Path.mem_of_mem_sorted h)

/-- Only the set of patterns counts for the files that are included. -/
theorem forall₂_same_filesIncluded {patterns' : List String}
    (h : ∀ pattern, pattern ∈ patterns ↔ pattern ∈ patterns') :
    List.Forall₂ (fun p q => p.same q) (filesIncluded glob d root patterns)
      (filesIncluded glob d root patterns') := by
  refine Path.forall₂_same_sorted (fun p hp => ?_) (fun p hp => ?_)
  · rw [Disk.mem_flatMap_fitting] at hp ⊢
    exact hp.mono fun x hx => (h x).mp hx
  · rw [Disk.mem_flatMap_fitting] at hp ⊢
    exact hp.mono fun x hx => (h x).mpr hx

/-! ## The library of a text -/

/-- A library of a main file, which includes further files. -/
def assembled (root : Path) (entry : LibraryEntry) (metadata : MetadataEntry) (own : Contents)
    (files : List Path) (added : Contents) : Library where
  name := metadata.name
  description := metadata.description
  root
  fragments := own.fragments ++ added.fragments
  rewrites := own.rewrites ++ added.rewrites
  configurations := NameMap.ofList entry.configurations
  sources := files

theorem parseWith_eq (hEntry : LibraryEntry.parse libraryFileName text = .ok entry)
    (hMetadata : entry.metadata = some metadata)
    (hValid : ∀ pattern ∈ metadata.include_, Disk.Accepts glob root pattern) :
    parseWith glob d text root = (do
      let own ← entry.contents
      let parts ← (filesIncluded glob d root metadata.include_).mapM (contentsOf d)
      .ok (assembled root entry metadata own (filesIncluded glob d root metadata.include_)
        (.joined parts))) := by
  rw [parseWith, hEntry, ok_bind, hMetadata]
  dsimp only
  rw [absorb_eq]
  cases entry.contents with
  | error f => rfl
  | ok own =>
    rw [ok_bind, ok_bind, ok_bind, includedFilesWith, Disk.filesMatching_eq hValid]
    dsimp only
    rw [ok_bind, foldlM_includeFile]
    simp [extended, assembled, filesIncluded]

/-- The name under which a text is read counts only where the text is no library file. -/
theorem alike_parse (hSame : p.same q) (text : String) :
    Alike Eq (LibraryEntry.parse p.text text) (LibraryEntry.parse q.text text) := by
  rw [LibraryEntry.parse, LibraryEntry.parse]
  cases Toml.parse? text with
  | none => exact .error (.ofCause (.libraryText hSame))
  | some doc =>
    dsimp only
    cases LibraryEntry.ofDatum doc with
    | ok entry => exact .ok rfl
    | error e => exact .error (.ofCause (.libraryShape hSame e))

/-- What an included file contains does not depend on how it is spelled. -/
theorem alike_contentsOf (hSame : p.same q) (hp : d.isFile p) (hq : d.isFile q) :
    Alike Eq (contentsOf d p) (contentsOf d q) := by
  obtain ⟨text, hText⟩ := Disk.exists_read?_of_isFile hp
  have hReadP : readText d p = .ok text := by rw [readText, hText]
  have hReadQ : readText d q = .ok text := by
    rw [readText, ← Disk.read?_eq_of_same hSame hp hq, hText]
  rw [contentsOf, contentsOf, hReadP, hReadQ, ok_bind, ok_bind]
  refine (alike_parse hSame text).bind ?_
  rintro entry _ rfl
  split
  · exact .error (.ofCause (.includedContents hSame))
  · exact Alike.within_includedFile hSame entry.contents

/-- The same library, read from the same files, which may be spelled differently. -/
structure Same (l m : Library) : Prop where
  sources : List.Forall₂ (fun p q => p.same q) l.sources m.sources
  rest : { l with sources := m.sources } = m

/-- What is promised about a library that is read, given the files that it includes. -/
structure Inclusion (glob : Disk.Matcher) (d : Disk) (root : Path) (entry : LibraryEntry)
    (metadata : MetadataEntry) (files : List Path) (r : Result Library) : Prop where
  /-- Only files that fit a pattern are included. -/
  matched : ∀ p ∈ files, d.Matches glob root metadata.include_ p
  /-- All files that fit a pattern are included. -/
  complete : ∀ p, d.Matches glob root metadata.include_ p → ∃ q ∈ files, q.same p
  /-- They are in strictly increasing order, so none of them is included twice. -/
  increasing : files.Pairwise Path.Precedes
  /-- The library can be read just if the main file and each of them can. -/
  readable : (∃ l, r = .ok l) ↔
    (∃ own, entry.contents = .ok own) ∧ ∀ p ∈ files, ∃ added, contentsOf d p = .ok added
  /-- The contents of the main file come first, then those of each included file. -/
  contents : ∀ l, r = .ok l → ∃ own parts, entry.contents = .ok own ∧
    List.Forall₂ (fun p added => contentsOf d p = .ok added) files parts ∧
    l = assembled root entry metadata own files (.joined parts)

theorem inclusion_parseWith (hEntry : LibraryEntry.parse libraryFileName text = .ok entry)
    (hMetadata : entry.metadata = some metadata)
    (hValid : ∀ pattern ∈ metadata.include_, Disk.Accepts glob root pattern) :
    Inclusion glob d root entry metadata (filesIncluded glob d root metadata.include_)
      (parseWith glob d text root) where
  matched p hp := matches_of_mem_filesIncluded hp
  complete p hp := Path.exists_same_mem_sorted (Disk.mem_flatMap_fitting.mpr hp)
  increasing := Path.pairwise_sorted _
  readable := by
    rw [parseWith_eq hEntry hMetadata hValid, ← exists_mapM_eq_ok_iff]
    simp only [bind_eq_ok_iff]
    constructor
    · rintro ⟨l, own, hOwn, parts, hParts, -⟩
      exact ⟨⟨own, hOwn⟩, parts, hParts⟩
    · rintro ⟨⟨own, hOwn⟩, parts, hParts⟩
      exact ⟨_, own, hOwn, parts, hParts, rfl⟩
  contents l hl := by
    rw [parseWith_eq hEntry hMetadata hValid] at hl
    obtain ⟨own, hOwn, hl⟩ := bind_eq_ok_iff.mp hl
    obtain ⟨parts, hParts, hl⟩ := bind_eq_ok_iff.mp hl
    exact ⟨own, parts, hOwn, mapM_eq_ok_iff.mp hParts, (Except.ok.inj hl).symm⟩

/--
Two texts that differ only in the order in which patterns for included files are listed, and in how
often, have the same library. The files that it includes are those that fit a pattern, whatever
paths `glob` gives for it.
-/
theorem parse_included {text' : String}
    (hEntry : LibraryEntry.parse libraryFileName text = .ok entry)
    (hMetadata : entry.metadata = some metadata)
    (hEntry' : LibraryEntry.parse libraryFileName text'
      = .ok { entry with metadata := some { metadata with include_ := patterns } })
    (hPatterns : ∀ pattern, pattern ∈ metadata.include_ ↔ pattern ∈ patterns)
    (hValid : ∀ pattern ∈ metadata.include_, Disk.Accepts glob root pattern) :
    Alike Same (parseWith glob d text root) (parseWith glob d text' root) ∧
    ∃ files, Inclusion glob d root entry metadata files (parseWith glob d text root) := by
  refine ⟨?_, _, inclusion_parseWith hEntry hMetadata hValid⟩
  have hValid' : ∀ pattern ∈ patterns, Disk.Accepts glob root pattern :=
    fun pattern hPattern => hValid pattern ((hPatterns pattern).mpr hPattern)
  rw [parseWith_eq hEntry hMetadata hValid, parseWith_eq hEntry' rfl hValid']
  have hFiles : List.Forall₂ (fun p q => p.same q) (filesIncluded glob d root metadata.include_)
      (filesIncluded glob d root patterns) := forall₂_same_filesIncluded hPatterns
  refine Alike.bind_self fun own => ?_
  -- every file of one list is included, under some spelling, by the other
  have hParts := Alike.mapM (R := Eq) hFiles fun p hp q hq hSame =>
    alike_contentsOf hSame (matches_of_mem_filesIncluded hp).1 (matches_of_mem_filesIncluded hq).1
  refine hParts.bind fun parts parts' h => ?_
  rw [List.forall₂_eq_eq_eq] at h
  subst h
  exact .ok ⟨hFiles, rfl⟩

namespace Sample

/-- Two files that may be included. -/
def shelf : Disk where
  tree :=
    { files := [(["a.toml"], "[[fragment]]\nname = \"a\"\n"),
        (["b.toml"], "[[fragment]]\nname = \"b\"\n")] }

/-- A library with patterns that overlap. -/
def overlapping : String :=
  "[library]\nname = \"x\"\ninclude = [\"b.toml\", \"?.toml\"]\n"

/-- The same patterns in another order, one of them twice. -/
def relisted : String :=
  "[library]\nname = \"x\"\ninclude = [\"?.toml\", \"b.toml\", \"?.toml\"]\n"

def section_ : MetadataEntry :=
  { name := "x", description := none, include_ := ["b.toml", "?.toml"] }

theorem parse_overlapping :
    LibraryEntry.parse libraryFileName overlapping = .ok { metadata := some section_ } := by
  decide +kernel

theorem parse_relisted : LibraryEntry.parse libraryFileName relisted = .ok
    { metadata := some { section_ with include_ := ["?.toml", "b.toml", "?.toml"] } } := by
  decide +kernel

theorem accepts_include :
    ∀ pattern ∈ section_.include_, Disk.Accepts shelf.glob ⟨""⟩ pattern := by
  intro pattern h
  rcases List.mem_cons.mp h with rfl | h
  · exact ⟨_, rfl⟩
  · rw [List.mem_singleton.mp h]
    exact ⟨_, rfl⟩

end Sample

theorem parse_included_sample :
    (∀ pattern, pattern ∈ Sample.section_.include_ ↔ pattern ∈ ["?.toml", "b.toml", "?.toml"]) ∧
    (∀ pattern ∈ Sample.section_.include_, Disk.Accepts Sample.shelf.glob ⟨""⟩ pattern) ∧
    Alike Same (parse Sample.shelf Sample.overlapping ⟨""⟩)
      (parse Sample.shelf Sample.relisted ⟨""⟩) ∧
    ∃ files, Inclusion Sample.shelf.glob Sample.shelf ⟨""⟩ { metadata := some Sample.section_ }
      Sample.section_ files (parse Sample.shelf Sample.overlapping ⟨""⟩) := by
  have hPatterns : ∀ pattern, pattern ∈ Sample.section_.include_ ↔
      pattern ∈ ["?.toml", "b.toml", "?.toml"] := by
    intro pattern
    simp only [Sample.section_, List.mem_cons, List.not_mem_nil]
    tauto
  exact ⟨hPatterns, Sample.accepts_include,
    parse_included Sample.parse_overlapping rfl Sample.parse_relisted hPatterns
      Sample.accepts_include⟩

end Library

end DeclSurface
