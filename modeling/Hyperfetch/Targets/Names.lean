import Hyperfetch.Text
import Hyperfetch.Weft.Fields

/-!
# The names beside a download (`numbered`, `part_path`, `state_file_path`)

A download of `x.zip` goes to `x.zip`, or `x (1).zip`, `x (2).zip` and so on. Beside the
name it goes to are its `.part`, the state of that and its lock, each with an extension of
its own: what has another is none of them (`Ordinary`).

A path is one of a file, so that its name is neither empty nor `.` or `..`.
-/

namespace Hyperfetch.Targets

open Weft

structure Path where
  folder : Text
  name : Text
  deriving DecidableEq

namespace Path

/-- The path with `suffix` after its name. -/
def beside (path : Path) (suffix : String) : Path := { path with name := path.name ++ suffix.toList }

/-- `file_stem` and `extension`: what is before and after the last dot, but for one that starts
the name. -/
def splitName (path : Path) : Text × Option Text :=
  match rsplitOnce '.' path.name with
  | some ([], _) => (path.name, none)
  | some (stem, ext) => (stem, some ext)
  | none => (path.name, none)

/-- What is after the last dot. -/
def ending (path : Path) : Option Text := (rsplitOnce '.' path.name).map (·.2)

end Path

def partPath (final : Path) : Path := final.beside ".part"

def stateFilePath (target : Path) : Path := target.beside ".hfstate"

/-- `<final>.part.lock`. -/
def lockPath (final : Path) : Path := (partPath final).beside ".lock"

/-- The name of a state while it is written. -/
def tmpPath (state : Path) : Path := state.beside ".tmp"

/-- `base` for `n = 0`, else `stem (n).ext`. -/
def numbered (base : Path) (n : Nat) : Path :=
  if n = 0 then base
  else
    let ext := match base.splitName.2 with
      | some ext => '.' :: ext
      | none => []
    { base with name := base.splitName.1 ++ ' ' :: '(' :: (Nat.toDigits 10 n ++ ')' :: ext) }

example : (numbered ⟨[], "a.tar.gz".toList⟩ 12).name = "a.tar (12).gz".toList := by decide

/-- The extensions of what is kept beside a download. -/
def kept : List Text := ["part", "hfstate", "hlsstate", "tmp", "lock"].map String.toList

/-- A name that is not of what is kept beside a download. -/
def Ordinary (path : Path) : Prop := ∀ ext ∈ path.ending, ext ∉ kept

instance (path : Path) : Decidable (Ordinary path) := inferInstanceAs (Decidable (∀ ext ∈ path.ending, ext ∉ kept))

/-! ## Names apart -/

theorem ending_of {path : Path} {front ext : Text} (hname : path.name = front ++ '.' :: ext) (hext : '.' ∉ ext) :
    path.ending = some ext := by
  rw [Path.ending, rsplitOnce_eq_some.mpr ⟨hname, hext⟩]
  rfl

theorem ending_beside (path : Path) {suffix : String} {ext : Text} (hsuffix : suffix.toList = '.' :: ext) (hext : '.' ∉ ext) :
    (path.beside suffix).ending = some ext :=
  ending_of (show path.name ++ suffix.toList = _ by rw [hsuffix]) hext

@[simp] theorem ending_partPath (final : Path) : (partPath final).ending = some "part".toList := ending_beside final rfl (by decide)

@[simp] theorem ending_stateFilePath (target : Path) : (stateFilePath target).ending = some "hfstate".toList :=
  ending_beside target rfl (by decide)

@[simp] theorem ending_lockPath (final : Path) : (lockPath final).ending = some "lock".toList := ending_beside _ rfl (by decide)

@[simp] theorem ending_tmpPath (state : Path) : (tmpPath state).ending = some "tmp".toList := ending_beside _ rfl (by decide)

theorem beside_inj {a b : Path} {suffix : String} (h : a.beside suffix = b.beside suffix) : a = b := by
  obtain ⟨folder, name⟩ := a
  obtain ⟨folder', name'⟩ := b
  obtain ⟨hfolder, hname⟩ := Path.mk.injEq _ _ _ _ ▸ h
  rw [Path.mk.injEq]
  exact ⟨hfolder, List.append_cancel_right hname⟩

theorem partPath_inj {a b : Path} (h : partPath a = partPath b) : a = b := beside_inj h

theorem stateFilePath_inj {a b : Path} (h : stateFilePath a = stateFilePath b) : a = b := beside_inj h

/-- What is kept beside a download has no ordinary name. -/
theorem Ordinary.ne {path other : Path} (h : Ordinary path) {ext : Text} (hending : other.ending = some ext) (hkept : ext ∈ kept) :
    path ≠ other := by
  rintro rfl
  exact h ext hending hkept

/-! ## Numbers -/

theorem numbered_zero (base : Path) : numbered base 0 = base := rfl

theorem numbered_name {base : Path} {n : Nat} (hn : n ≠ 0) :
    ∃ ext, base.name = base.splitName.1 ++ ext ∧
      (numbered base n).name = base.splitName.1 ++ ' ' :: '(' :: (Nat.toDigits 10 n ++ ')' :: ext) ∧
      (ext = [] ∧ base.splitName.2 = none ∨ ∃ e, ext = '.' :: e ∧ base.splitName.2 = some e ∧ '.' ∉ e) := by
  unfold numbered
  rw [if_neg hn]
  unfold Path.splitName
  cases hsplit : rsplitOnce '.' base.name with
  | none => exact ⟨[], (List.append_nil _).symm, rfl, .inl ⟨rfl, rfl⟩⟩
  | some cut =>
    obtain ⟨stem, e⟩ := cut
    obtain ⟨hname, hdot⟩ := rsplitOnce_eq_some.mp hsplit
    cases stem with
    | nil => exact ⟨[], (List.append_nil _).symm, rfl, .inl ⟨rfl, rfl⟩⟩
    | cons c stem => exact ⟨'.' :: e, hname, rfl, .inr ⟨e, rfl, rfl, hdot⟩⟩

theorem not_mem_digits (n : Nat) : ')' ∉ Nat.toDigits 10 n := fun h => absurd ((decimal_toDigits n).all _ h) (by decide)

/-- A lock's name is none of the names tried. -/
theorem lockPath_ne_numbered (base : Path) (m n : Nat) : lockPath (numbered base m) ≠ numbered base n := by
  intro h
  have hname : (numbered base m).name ++ ".part".toList ++ ".lock".toList = (numbered base n).name := congrArg Path.name h
  rw [List.append_assoc] at hname
  by_cases hm : m = 0
  · subst hm
    by_cases hn : n = 0
    · subst hn
      have hlength := congrArg List.length hname
      rw [List.length_append] at hlength
      exact absurd hlength (by simp)
    · -- after what is before the extension comes a dot, or a space
      obtain ⟨ext, hbase, hnumbered, hext⟩ := @numbered_name base n hn
      rw [numbered_zero, hnumbered, hbase, List.append_assoc] at hname
      have hrest := List.append_cancel_left hname
      rcases hext with ⟨rfl, -⟩ | ⟨e, rfl, -⟩
      · exact absurd (List.cons.inj hrest).1 (by decide)
      · exact absurd (List.cons.inj hrest).1 (by decide)
  · by_cases hn : n = 0
    · subst hn
      obtain ⟨ext, hbase, hnumbered, -⟩ := @numbered_name base m hm
      have hlength := congrArg List.length hname
      rw [numbered_zero, hnumbered, hbase] at hlength
      simp only [List.length_append, List.length_cons] at hlength
      omega
    · obtain ⟨ext, -, hnumbered, -⟩ := @numbered_name base m hm
      unfold numbered at hname
      rw [if_neg hm, if_neg hn] at hname
      dsimp only at hname
      rw [List.append_assoc, List.cons_append, List.cons_append, List.append_assoc, List.cons_append] at hname
      have hrest := List.append_cancel_left hname
      rw [List.cons_inj_right, List.cons_inj_right] at hrest
      -- the digits end where the bracket comes
      have hcut := splitOnce_eq_some.mpr ⟨hrest, not_mem_digits n⟩
      rw [splitOnce_eq_some.mpr ⟨rfl, not_mem_digits m⟩, Option.some.injEq, Prod.mk.injEq] at hcut
      have hlength := congrArg List.length hcut.2
      rw [List.length_append] at hlength
      exact absurd hlength (by simp)

/-- A numbered name is as ordinary as the one it is made of. -/
theorem Ordinary.numbered {base : Path} (h : Ordinary base) (n : Nat) : Ordinary (numbered base n) := by
  by_cases hn : n = 0
  · rwa [hn]
  · obtain ⟨ext, hbase, hname, ⟨rfl, -⟩ | ⟨e, rfl, -, hdot⟩⟩ := @numbered_name base n hn
    · intro last hlast
      obtain ⟨⟨front, back⟩, hcut, rfl⟩ := Option.map_eq_some_iff.mp hlast
      -- it ends with a bracket
      obtain ⟨heq, -⟩ := rsplitOnce_eq_some.mp hcut
      rw [hname] at heq
      have hend : (front ++ '.' :: back).getLast? = some ')' := by
        rw [← heq, show base.splitName.1 ++ ' ' :: '(' :: (Nat.toDigits 10 n ++ [')']) =
          (base.splitName.1 ++ ' ' :: '(' :: Nat.toDigits 10 n) ++ [')'] by simp, List.getLast?_concat]
      rw [List.getLast?_append_of_ne_nil _ (List.cons_ne_nil _ _)] at hend
      have hnone : ∀ ext ∈ kept, ('.' :: ext).getLast? ≠ some ')' := by decide
      exact fun hkept => hnone back hkept hend
    · have hending : (Targets.numbered base n).ending = some e := by
        refine @ending_of _ (base.splitName.1 ++ ' ' :: '(' :: (Nat.toDigits 10 n ++ [')'])) e ?_ hdot
        rw [hname]
        simp
      intro last hlast
      rw [hending, Option.mem_some_iff] at hlast
      exact hlast ▸ h e (ending_of hbase hdot)

end Hyperfetch.Targets
