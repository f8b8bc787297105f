import DeclSurface.Failure
import DeclSurface.Proofs.Files.PathOrder
import DeclSurface.Proofs.Outcome

/-!
# One path, several spellings

A path may be spelled in several ways. Which spelling leads to a file makes no difference to what is
read from it, but it is shown where something fails. So two computations that use different
spellings end alike: with related results, or with failures that differ only in how they spell a
file.

* `Disk.read?_eq_of_same`   — a file reads the same under all of its spellings.
* `Failure.Same`            — failures that differ only in how a file is spelled.
* `Alike`                   — how two computations end alike; `Alike.bind` and `Alike.mapM`.
-/

namespace DeclSurface

/-! ## Files -/

namespace Disk

variable {d : Disk} {p q : Path}

theorem isFile_iff : d.isFile p ↔
    p.text ≠ "" ∧ ∃ l, d.tree.follow d.cwd p.components = some l ∧
      wantsDir p = false ∧ d.tree.isFile l := by
  rw [isFile, locate]
  by_cases hText : p.text = ""
  · simp [hText]
  · cases d.tree.follow d.cwd p.components <;> simp [hText]

theorem read?_of_follow {l : Location} (hText : p.text ≠ "")
    (hFollow : d.tree.follow d.cwd p.components = some l) (hDir : wantsDir p = false) :
    d.read? p = d.tree.contents? l := by
  simp [read?, locate, hText, hFollow, hDir]

/-- A file can be read. -/
theorem exists_read?_of_isFile (h : d.isFile p) : ∃ text, d.read? p = some text := by
  obtain ⟨hText, l, hFollow, hDir, hFile⟩ := isFile_iff.mp h
  rw [read?_of_follow hText hFollow hDir]
  exact Option.isSome_iff_exists.mp hFile

/-- A file reads the same under all of its spellings. -/
theorem read?_eq_of_same (hSame : p.same q) (hp : d.isFile p) (hq : d.isFile q) :
    d.read? p = d.read? q := by
  obtain ⟨hTextP, l, hFollowP, hDirP, -⟩ := isFile_iff.mp hp
  obtain ⟨hTextQ, m, hFollowQ, hDirQ, -⟩ := isFile_iff.mp hq
  -- the way to a file is its components, and these are the same
  rw [of_decide_eq_true hSame, hFollowQ] at hFollowP
  obtain rfl := Option.some.inj hFollowP
  rw [read?_of_follow hTextP (of_decide_eq_true hSame ▸ hFollowQ) hDirP,
    read?_of_follow hTextQ hFollowQ hDirQ]

end Disk

/-! ## Failures -/

/-- The same cause, in which a file that is included may be spelled differently. -/
inductive Cause.Same : Cause → Cause → Prop where
  | refl (c : Cause) : Same c c
  | libraryText {p q : Path} (h : p.same q) : Same (.libraryText p.text) (.libraryText q.text)
  | libraryShape {p q : Path} (h : p.same q) (e : ShapeError) :
    Same (.libraryShape p.text e) (.libraryShape q.text e)
  | includedContents {p q : Path} (h : p.same q) : Same (.includedContents p) (.includedContents q)

/-- The same context, in which a file that is included may be spelled differently. -/
inductive Context.Same : Context → Context → Prop where
  | refl (c : Context) : Same c c
  | includedFile {p q : Path} (h : p.same q) : Same (.includedFile p) (.includedFile q)

/-- The same failure, in which files that are included may be spelled differently. -/
structure Failure.Same (f g : Failure) : Prop where
  contexts : List.Forall₂ Context.Same f.contexts g.contexts
  cause : f.cause.Same g.cause

theorem Failure.Same.refl (f : Failure) : f.Same f :=
  ⟨List.forall₂_same.mpr fun c _ => .refl c, .refl f.cause⟩

theorem Failure.Same.ofCause {c c' : Cause} (h : c.Same c') :
    (Failure.ofCause c).Same (Failure.ofCause c') :=
  ⟨List.Forall₂.nil, h⟩

/-! ## Outcomes -/

variable {α β γ δ : Type}

/-- Both computations end with results that `R` relates, or with the same failure. -/
inductive Alike (R : α → β → Prop) : Result α → Result β → Prop where
  | ok {a : α} {b : β} (h : R a b) : Alike R (.ok a) (.ok b)
  | error {f g : Failure} (h : f.Same g) : Alike R (.error f) (.error g)

namespace Alike

theorem bind {R : α → β → Prop} {S : γ → δ → Prop} {x : Result α} {y : Result β}
    {k : α → Result γ} {l : β → Result δ} (h : Alike R x y)
    (hNext : ∀ a b, R a b → Alike S (k a) (l b)) : Alike S (x >>= k) (y >>= l) := by
  cases h with
  | ok h => exact hNext _ _ h
  | error h => exact .error h

/-- A step that both computations share. -/
theorem bind_self {S : γ → δ → Prop} {x : Result α} {k : α → Result γ} {l : α → Result δ}
    (hNext : ∀ a, Alike S (k a) (l a)) : Alike S (x >>= k) (x >>= l) := by
  cases x with
  | ok a => exact hNext a
  | error f => exact .error (.refl f)

/-- Both computations put the same result in the context of one file. -/
theorem within_includedFile {p q : Path} (hSame : p.same q) (x : Result α) :
    Alike Eq (x.within (.includedFile p)) (x.within (.includedFile q)) := by
  cases x with
  | ok a => exact .ok rfl
  | error f =>
    have hRest := Failure.Same.refl f
    exact .error ⟨.cons (.includedFile hSame) hRest.contexts, hRest.cause⟩

/-- One by one, what is related gives related results. -/
theorem mapM {P : α → β → Prop} {R : γ → δ → Prop} {as : List α} {bs : List β}
    {f : α → Result γ} {g : β → Result δ} (h : List.Forall₂ P as bs)
    (hEach : ∀ a ∈ as, ∀ b ∈ bs, P a b → Alike R (f a) (g b)) :
    Alike (List.Forall₂ R) (as.mapM f) (bs.mapM g) := by
  induction h with
  | nil => exact .ok .nil
  | cons hHead _ ih =>
    rw [List.mapM_cons, List.mapM_cons]
    refine (hEach _ List.mem_cons_self _ List.mem_cons_self hHead).bind fun c d hc => ?_
    refine (ih fun a ha b hb => hEach a (List.mem_cons_of_mem _ ha) b
      (List.mem_cons_of_mem _ hb)).bind fun cs ds hcs => ?_
    exact .ok (.cons hc hcs)

end Alike

end DeclSurface
