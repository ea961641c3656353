import Hyperfetch.Text
import Hyperfetch.Weft.Strip
import Hyperfetch.Weft.Text

/-!
# Cues (`subs.rs`)

What is read of a subtitle is tidied: each line trimmed and blank ones left
out. A line break's `'\r'` is white space, which `trim` drops with it, so a
text's lines are those that `'\n'` ends.
-/

namespace Hyperfetch.Subs

open Weft

/-- One subtitle, its times in milliseconds. -/
structure Cue where
  start : Nat
  end_ : Nat
  text : Text
  deriving DecidableEq, Repr

/-- The lines of a text, each trimmed, blank ones left out. -/
def tidyLines (text : Text) : List Text := ((lines '\n' text).map trim).filter (· ≠ [])

def joinLines (all : List Text) : Text := ['\n'].intercalate all

def tidy (text : Text) : Text := joinLines (tidyLines text)

/-- A cue, none when it shows nothing: no text, or no time. A start before 0 is
taken as 0. -/
def cue (start end_ : Int) (text : Text) : Option Cue :=
  let start := max start 0
  let text := tidy text
  if start < end_ ∧ text ≠ [] then some { start := start.toNat, end_ := end_.toNat, text } else none

/-! ## Tidy lines -/

/-- Lines as tidying leaves them. -/
def Tidy (all : List Text) : Prop := ∀ line ∈ all, line ≠ [] ∧ Trimmed line ∧ '\n' ∉ line

theorem mem_of_mem_trim {text : Text} {c : Char} (h : c ∈ trim text) : c ∈ text := mem_strip h

theorem tidy_tidyLines (text : Text) : Tidy (tidyLines text) := by
  intro line hline
  obtain ⟨hin, hne⟩ := List.mem_filter.mp hline
  obtain ⟨raw, hraw, rfl⟩ := List.mem_map.mp hin
  exact ⟨of_decide_eq_true hne, bare_strip isWhite raw, fun hnl => not_mem_of_mem_lines hraw (mem_of_mem_trim hnl)⟩

/-- The lines of lines joined, none of them empty. -/
theorem lines_joinLines {all : List Text} (h : Tidy all) : lines '\n' (joinLines all) = all := by
  induction all with
  | nil => rfl
  | cons line all ih =>
    obtain ⟨hne, _, hnl⟩ := h line List.mem_cons_self
    have hmore : Tidy all := fun l hl => h l (List.mem_cons_of_mem line hl)
    cases all with
    | nil =>
      show lines '\n' ([line].flatten) = [line]
      rw [List.flatten_singleton]
      exact lines_single hne hnl
    | cons next all =>
      have hjoined : joinLines (line :: next :: all) = line ++ '\n' :: joinLines (next :: all) := by
        simp [joinLines, List.intercalate_cons_cons]
      rw [hjoined, lines_line hnl, ih hmore]

theorem tidyLines_joinLines {all : List Text} (h : Tidy all) : tidyLines (joinLines all) = all := by
  have htrim : all.map trim = all := by
    refine (List.map_congr_left fun line hline => ?_).trans (List.map_id all)
    exact trim_of_trimmed (h line hline).2.1
  have hkeep : all.filter (· ≠ []) = all := by
    rw [List.filter_eq_self]
    intro line hline
    exact decide_eq_true (h line hline).1
  rw [tidyLines, lines_joinLines h, htrim, hkeep]

/-- Tidying twice is tidying once. -/
@[simp] theorem tidy_tidy (text : Text) : tidy (tidy text) = tidy text := by
  have hlines : tidyLines (tidy text) = tidyLines text := tidyLines_joinLines (tidy_tidyLines text)
  rw [tidy, hlines]
  rfl

/-! ## Cues as they are read -/

/-- A cue that shows a tidy text for some time. -/
structure Cue.Shows (c : Cue) : Prop where
  lt : c.start < c.end_
  tidy : tidy c.text = c.text
  text : c.text ≠ []

theorem shows_of_cue {start end_ : Int} {text : Text} {c : Cue} (h : cue start end_ text = some c) : c.Shows := by
  unfold cue at h
  dsimp only at h
  split at h
  · rename_i hshown
    cases h
    exact ⟨by dsimp only; omega, tidy_tidy text, hshown.2⟩
  · cases h

theorem cue_eq_some {start end_ : Nat} {text : Text} (hlt : start < end_) (htext : tidy text ≠ []) :
    cue start end_ text = some { start, end_, text := tidy text } := by
  have hstart : max (start : Int) 0 = start := max_eq_left (by omega)
  unfold cue
  dsimp only
  rw [hstart, if_pos ⟨by omega, htext⟩]
  rfl

end Hyperfetch.Subs
