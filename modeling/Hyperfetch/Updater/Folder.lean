import Mathlib.Data.List.Infix
import Mathlib.Logic.Function.Basic
import Mathlib.Tactic.Common

/-!
# The folder of the programs (`updater.rs`)

The two programs' files by their names: the program, its new build before it
is swapped in, and old builds moved aside. `cleanup_in` decides from the names
alone what to finish and what to delete; what it does to a program only
depends on that program's files (`cleanupIn_exe`, `cleanupIn_left`).

Left out: the browser extension's folder beside the programs, and folders in
place of files.
-/

namespace Hyperfetch

namespace Updater

abbrev FileName := List Char

inductive Program
  | gui
  | cli
  deriving DecidableEq, Repr

/-- The name without its extension. -/
def Program.stem : Program → FileName
  | .gui => "Endos-Unified-Downloader".toList
  | .cli => "Endos-Unified-Downloader-CLI".toList

def Program.exe (p : Program) : FileName := p.stem ++ ".exe".toList

/-- Where a program's new build is written before it is swapped in. -/
def newName (p : Program) : FileName := p.exe ++ ".new".toList

/-- Where a program is moved to make way for its new build, and where it is
moved when what an earlier update left there cannot be deleted. -/
def oldExe (p : Program) : FileName := p.stem ++ ".old.exe".toList

def oldUnique (p : Program) (unique : List Char) : FileName :=
  p.stem ++ ".old-".toList ++ unique ++ ".exe".toList

/-- A whole build, or one whose writing was cut off. -/
inductive Build (V : Type)
  | whole (build : V)
  | cut
  deriving DecidableEq, Repr

abbrev Folder (V : Type) := FileName → Option (Build V)

variable {V : Type}

/-- A rename that succeeds; one of no file fails and changes nothing. -/
def Folder.rename (f : Folder V) (source target : FileName) : Folder V :=
  match f source with
  | some build => Function.update (Function.update f source none) target (some build)
  | none => f

/-- Whether a file is one that updates of `p` leave behind. -/
def leftExe (p : Program) (name : FileName) : Bool :=
  name == newName p || name == oldExe p ||
    (p.stem ++ ".old-".toList).isPrefixOf name &&
      ".exe".toList.isSuffixOf (name.drop (p.stem ++ ".old-".toList).length)

/-- Finishes a swap cut off between moving `p` aside and its new build in. -/
def finishSwap (f : Folder V) (p : Program) : Folder V :=
  if (f p.exe).isNone then f.rename (newName p) p.exe else f

/-- Finishes what was cut off, then deletes what updates left of the programs
that are there. -/
def cleanupIn (f : Folder V) : Folder V :=
  let finished := [Program.gui, .cli].foldl finishSwap f
  let present := [Program.gui, .cli].filter fun p => (finished p.exe).isSome
  fun name => if present.any (leftExe · name) then none else finished name

/-! ## Names -/

/-- Every name of a program is its stem, a dot and something. -/
def Program.named (p : Program) (ext : List Char) : FileName := p.stem ++ '.' :: ext

theorem exe_eq (p : Program) : p.exe = p.named "exe".toList := rfl

theorem newName_eq (p : Program) : newName p = p.named "exe.new".toList := List.append_assoc _ _ _

theorem oldExe_eq (p : Program) : oldExe p = p.named "old.exe".toList := rfl

theorem oldUnique_eq (p : Program) (unique : List Char) :
    oldUnique p unique = p.named ("old-".toList ++ unique ++ ".exe".toList) := by
  unfold oldUnique
  rw [List.append_assoc, List.append_assoc]
  rfl

theorem stem_cli : Program.cli.stem = Program.gui.stem ++ "-CLI".toList := by decide

/-- A name belongs to one program. -/
theorem named_inj {p q : Program} {a b : List Char} (h : p.named a = q.named b) : p = q ∧ a = b := by
  unfold Program.named at h
  have hdot : ∀ a b : List Char, Program.gui.stem ++ '.' :: a ≠ Program.cli.stem ++ '.' :: b := by
    intro a b h
    rw [stem_cli, List.append_assoc, List.append_cancel_left_eq] at h
    exact absurd (List.cons.inj h).1 (by decide)
  cases p <;> cases q
  · exact ⟨rfl, (List.cons.inj (List.append_cancel_left h)).2⟩
  · exact (hdot a b h).elim
  · exact (hdot b a h.symm).elim
  · exact ⟨rfl, (List.cons.inj (List.append_cancel_left h)).2⟩

theorem named_ne {p q : Program} {a b : List Char} (h : p ≠ q ∨ a ≠ b) : p.named a ≠ q.named b := by
  intro heq
  obtain ⟨hp, hab⟩ := named_inj heq
  exact h.elim (fun hne => hne hp) fun hne => hne hab

/-- What cleanup takes for a leftover of `p` is a name of `p` and not the
program itself. -/
theorem leftExe_named {p : Program} {name : FileName} (h : leftExe p name = true) :
    ∃ ext, name = p.named ext ∧ ext ≠ "exe".toList := by
  unfold leftExe at h
  rw [Bool.or_eq_true, Bool.or_eq_true, beq_iff_eq, beq_iff_eq, Bool.and_eq_true] at h
  rcases h with (rfl | rfl) | ⟨hstarts, _⟩
  · exact ⟨_, newName_eq p, by decide⟩
  · exact ⟨_, oldExe_eq p, by decide⟩
  · obtain ⟨rest, rfl⟩ := List.isPrefixOf_iff_prefix.mp hstarts
    refine ⟨"old-".toList ++ rest, ?_, fun heq => ?_⟩
    · rw [List.append_assoc]
      rfl
    · exact absurd (List.cons.inj heq).1 (by decide)

/-! ## What cleanup does to one program -/

/-- `g` has the files of `p` as `f` has them. -/
def SameFor (p : Program) (f g : Folder V) : Prop := ∀ ext, g (p.named ext) = f (p.named ext)

theorem SameFor.refl (p : Program) (f : Folder V) : SameFor p f f := fun _ => rfl

theorem SameFor.trans {p : Program} {f g k : Folder V} (hfg : SameFor p f g)
    (hgk : SameFor p g k) : SameFor p f k :=
  fun ext => (hgk ext).trans (hfg ext)

/-- Writing or removing a file of one program leaves the other's. -/
theorem sameFor_update {p q : Program} (hpq : q ≠ p) (f : Folder V) (ext : List Char)
    (build : Option (Build V)) : SameFor q f (Function.update f (p.named ext) build) := by
  intro ext'
  exact Function.update_of_ne (named_ne (.inl hpq)) _ _

theorem sameFor_rename {p q : Program} (hpq : q ≠ p) (f : Folder V) (a b : List Char) :
    SameFor q f (f.rename (p.named a) (p.named b)) := by
  unfold Folder.rename
  split
  · exact (sameFor_update hpq f a none).trans (sameFor_update hpq _ b _)
  · exact .refl q f

/-- A rename between two names of a program, file by file. -/
theorem rename_named {p : Program} {f : Folder V} {a b : List Char} {build : Build V}
    (hsource : f (p.named a) = some build) (ext : List Char) :
    f.rename (p.named a) (p.named b) (p.named ext) =
      if ext = b then some build else if ext = a then none else f (p.named ext) := by
  unfold Folder.rename
  rw [hsource]
  show Function.update (Function.update f (p.named a) none) (p.named b) (some build) _ = _
  by_cases hb : ext = b
  · rw [if_pos hb, hb, Function.update_self]
  rw [if_neg hb, Function.update_of_ne (named_ne (.inr hb))]
  by_cases ha : ext = a
  · rw [if_pos ha, ha, Function.update_self]
  · rw [if_neg ha, Function.update_of_ne (named_ne (.inr ha))]

theorem finishSwap_other {p q : Program} (hpq : q ≠ p) (f : Folder V) :
    SameFor q f (finishSwap f p) := by
  unfold finishSwap
  split
  · rw [newName_eq, exe_eq]
    exact sameFor_rename hpq f _ _
  · exact .refl q f

/-- Finishing a swap looks at the program's own files only. -/
theorem finishSwap_congr {p : Program} {f g : Folder V} (h : SameFor p f g) :
    SameFor p (finishSwap f p) (finishSwap g p) := by
  intro ext
  unfold finishSwap
  have hexe : g p.exe = f p.exe := h "exe".toList
  rw [hexe]
  split
  · have hnew : g (p.named "exe.new".toList) = f (p.named "exe.new".toList) := h _
    rw [newName_eq, exe_eq]
    cases hf : f (p.named "exe.new".toList) with
    | none =>
      show Folder.rename g _ _ _ = Folder.rename f _ _ _
      unfold Folder.rename
      rw [hnew, hf]
      exact h ext
    | some build => rw [rename_named hf, rename_named (hnew.trans hf), h ext]
  · exact h ext

theorem finished_named (f : Folder V) (p : Program) :
    SameFor p (finishSwap f p) ([Program.gui, .cli].foldl finishSwap f) := by
  show SameFor p _ (finishSwap (finishSwap f .gui) .cli)
  cases p with
  | gui => exact finishSwap_other (by decide) _
  | cli => exact finishSwap_congr (finishSwap_other (by decide) f)

/-- After cleanup a program is what it was, or its new build where it was
missing. -/
theorem cleanupIn_exe (f : Folder V) (p : Program) : cleanupIn f p.exe = finishSwap f p p.exe := by
  have hleft : ∀ q, leftExe q p.exe = false := by
    intro q
    by_contra h
    obtain ⟨ext, heq, hne⟩ := leftExe_named (Bool.not_eq_false _ ▸ h)
    exact hne (named_inj heq).2.symm
  have hexe := finished_named f p "exe".toList
  unfold cleanupIn
  simp only [hleft, List.any_eq_true, Bool.false_eq_true, and_false, exists_false, if_false]
  exact hexe

theorem cleanupIn_present {f : Folder V} {p : Program} {build : Build V}
    (hexe : f p.exe = some build) : cleanupIn f p.exe = some build := by
  rw [cleanupIn_exe, finishSwap, hexe]
  exact hexe

theorem cleanupIn_missing {f : Folder V} {p : Program} (hexe : f p.exe = none) :
    cleanupIn f p.exe = f (newName p) := by
  rw [cleanupIn_exe, finishSwap, hexe]
  show f.rename (newName p) p.exe p.exe = _
  cases hnew : f (newName p) with
  | none =>
    unfold Folder.rename
    rw [hnew]
    exact hexe
  | some build =>
    rw [newName_eq] at hnew
    rw [newName_eq, exe_eq, rename_named hnew, if_pos rfl]

/-- A program that stays missing keeps all its files. -/
theorem cleanupIn_keeps {f : Folder V} {p : Program} (hexe : f p.exe = none)
    (hnew : f (newName p) = none) : SameFor p f (cleanupIn f) := by
  intro ext
  have hsame : SameFor p f ([Program.gui, .cli].foldl finishSwap f) := by
    refine SameFor.trans (fun ext' => ?_) (finished_named f p)
    rw [finishSwap, hexe]
    show f.rename (newName p) p.exe (p.named ext') = _
    unfold Folder.rename
    rw [hnew]
  have hnone : ([Program.gui, .cli].foldl finishSwap f) p.exe = none :=
    (hsame "exe".toList).trans hexe
  unfold cleanupIn
  rw [if_neg, hsame ext]
  rw [List.any_eq_true]
  rintro ⟨q, hq, hleft⟩
  obtain ⟨ext', heq, _⟩ := leftExe_named hleft
  obtain ⟨rfl, _⟩ := named_inj heq
  have hpresent := (List.mem_filter.mp hq).2
  rw [hnone] at hpresent
  cases hpresent

end Updater

end Hyperfetch
