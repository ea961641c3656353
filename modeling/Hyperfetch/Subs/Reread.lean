import Hyperfetch.Subs.Escape
import Hyperfetch.Subs.Stamp

/-!
# Written cues read back

The lines of the file that `to_vtt` writes, the blocks `parse_vtt` takes them
for, and the cue each block gives. A `'\r'` that a reference put into a cue's
text is written as it is, and ends a line when it is read.
-/

namespace Hyperfetch.Subs

open Weft

/-! ## The lines of a file -/

/-- No line break within, and none that would be one with the break behind it. -/
structure Plain (line : Text) : Prop where
  lineFeed : '\n' ∉ line
  last : line.getLast? ≠ some '\r'

theorem replaceCrLf_line {line : Text} (h : Plain line) (rest : Text) :
    replaceCrLf (line ++ '\n' :: rest) = line ++ '\n' :: replaceCrLf rest := by
  obtain ⟨hnl, hlast⟩ := h
  induction line with
  | nil => rfl
  | cons c line ih =>
    have hback : ∀ back, c = '\r' → line ++ '\n' :: rest = '\n' :: back → False := by
      intro back hc heq
      cases line with
      | nil => exact hlast (congrArg some hc)
      | cons d line =>
        cases heq
        exact hnl (List.mem_cons_of_mem c List.mem_cons_self)
    rw [List.cons_append, replaceCrLf.eq_2 _ _ hback, ih (fun hin => hnl (List.mem_cons_of_mem c hin))]
    · rfl
    · intro hends
      rw [List.getLast?_cons, hends] at hlast
      exact hlast rfl

/-- What a line is read as: its `'\r'`s end lines too. -/
def broken (line : Text) : List Text := lines '\n' (replaceCr line ++ ['\n'])

theorem lines_file {all : List Text} (h : ∀ line ∈ all, Plain line) :
    lines '\n' (replaceCr (replaceCrLf (all.flatMap (· ++ ['\n'])))) = all.flatMap broken := by
  induction all with
  | nil => rfl
  | cons line all ih =>
    have hline := replaceCrLf_line (h line List.mem_cons_self) (all.flatMap (· ++ ['\n']))
    have hclosed : Closed '\n' (replaceCr line ++ ['\n']) := .inr List.getLast?_concat
    have hsplit : replaceCr (line ++ '\n' :: replaceCrLf (all.flatMap (· ++ ['\n']))) =
        (replaceCr line ++ ['\n']) ++ replaceCr (replaceCrLf (all.flatMap (· ++ ['\n']))) := by
      simp [replaceCr]
    rw [List.flatMap_cons, List.flatMap_cons, List.append_assoc, List.singleton_append, hline, hsplit,
      lines_append hclosed, ih fun l hl => h l (List.mem_cons_of_mem line hl)]
    rfl

theorem replaceCr_of_not_mem {line : Text} (h : '\r' ∉ line) : replaceCr line = line := by
  refine (List.map_congr_left fun c hc => ?_).trans (List.map_id line)
  exact if_neg fun heq : c = '\r' => h (heq ▸ hc)

theorem not_mem_replaceCr (line : Text) : '\r' ∉ replaceCr line := by
  intro hin
  obtain ⟨c, _, hc⟩ := List.mem_map.mp hin
  split at hc
  · cases hc
  · rename_i hne
    exact hne hc

theorem broken_of_not_mem {line : Text} (hnl : '\n' ∉ line) (hcr : '\r' ∉ line) : broken line = [line] := by
  rw [broken, replaceCr_of_not_mem hcr, lines_line hnl]
  rfl

theorem replaceCr_escapeVtt (text : Text) : replaceCr (escapeVtt text) = escapeVtt (replaceCr text) := by
  induction hlen : text.length using Nat.strong_induction_on generalizing text with
  | _ n ih =>
    rcases exists_line_or '\r' text with hnot | ⟨a, b, ha, rfl⟩
    · rw [replaceCr_of_not_mem hnot, replaceCr_of_not_mem (kept_return.not_mem_escapeVtt hnot)]
    · rw [List.length_append, List.length_cons] at hlen
      have hsplit : ∀ x y : Text, '\r' ∉ x → replaceCr (x ++ '\r' :: y) = x ++ '\n' :: replaceCr y := by
        intro x y hx
        have hmap : replaceCr (x ++ '\r' :: y) = replaceCr x ++ '\n' :: replaceCr y := by simp [replaceCr]
        rw [hmap, replaceCr_of_not_mem hx]
      rw [kept_return.escapeVtt_append, hsplit _ _ (kept_return.not_mem_escapeVtt ha), hsplit _ _ ha,
        kept_lineFeed.escapeVtt_append, ih b.length (by omega) b rfl]

theorem lines_escapeVtt (text : Text) : lines '\n' (escapeVtt text) = (lines '\n' text).map escapeVtt := by
  induction hlen : text.length using Nat.strong_induction_on generalizing text with
  | _ n ih =>
    rcases exists_line_or '\n' text with hnot | ⟨line, rest, hline, rfl⟩
    · rcases eq_or_ne text [] with rfl | hne
      · rfl
      · have hkept : escapeVtt text ≠ [] := fun hnil => hne (escapeVtt_eq_nil.mp hnil)
        rw [lines_single hne hnot, lines_single hkept (kept_lineFeed.not_mem_escapeVtt hnot)]
        rfl
    · rw [List.length_append, List.length_cons] at hlen
      rw [kept_lineFeed.escapeVtt_append, lines_line (kept_lineFeed.not_mem_escapeVtt hline), lines_line hline,
        ih rest.length (by omega) rest rfl]
      rfl

theorem broken_escapeVtt (line : Text) : broken (escapeVtt line) = (broken line).map escapeVtt := by
  rw [broken, broken, replaceCr_escapeVtt, ← lines_escapeVtt, kept_lineFeed.escapeVtt_append]
  rfl

/-! ## The lines `to_vtt` writes -/

def fileLines (cues : List Cue) : List Text :=
  "WEBVTT".toList :: cues.flatMap fun c => [] :: timing c :: (tidyLines c.text).map escapeVtt

theorem escapeVtt_joinLines {all : List Text} (hne : all ≠ []) :
    escapeVtt (joinLines all) ++ ['\n'] = (all.map escapeVtt).flatMap (· ++ ['\n']) := by
  induction all with
  | nil => exact absurd rfl hne
  | cons line all ih =>
    cases all with
    | nil => simp [joinLines, List.intercalate]
    | cons next all =>
      have hjoined : joinLines (line :: next :: all) = line ++ '\n' :: joinLines (next :: all) := by
        simp [joinLines, List.intercalate_cons_cons]
      rw [hjoined, kept_lineFeed.escapeVtt_append, List.append_assoc, List.cons_append, ih (List.cons_ne_nil _ _)]
      simp

theorem Cue.Shows.lines_ne_nil {c : Cue} (h : c.Shows) : tidyLines c.text ≠ [] := by
  intro hnil
  have htidy := h.tidy
  rw [Subs.tidy, hnil] at htidy
  exact h.text htidy.symm

theorem vttBlock_eq {c : Cue} (h : c.Shows) :
    vttBlock c c.text = ([] :: timing c :: (tidyLines c.text).map escapeVtt).flatMap (· ++ ['\n']) := by
  have htext := escapeVtt_joinLines h.lines_ne_nil
  have hjoined : joinLines (tidyLines c.text) = c.text := h.tidy
  rw [hjoined] at htext
  rw [vttBlock, htext, List.flatMap_cons, List.flatMap_cons]
  simp [timing]

theorem shown_eq {cues : List Cue} (h : ∀ c ∈ cues, c.Shows) : shown cues = cues.map fun c => (c, c.text) := by
  have hmap : (cues.map fun c => (c, tidy c.text)) = cues.map fun c => (c, c.text) :=
    List.map_congr_left fun c hc => by rw [(h c hc).tidy]
  rw [shown, hmap, List.filter_eq_self]
  intro p hp
  obtain ⟨c, hc, rfl⟩ := List.mem_map.mp hp
  exact decide_eq_true (h c hc).text

theorem vttBlocks_eq {cues : List Cue} (h : ∀ c ∈ cues, c.Shows) :
    (cues.flatMap fun c => vttBlock c c.text) =
      (cues.flatMap fun c => [] :: timing c :: (tidyLines c.text).map escapeVtt).flatMap (· ++ ['\n']) := by
  induction cues with
  | nil => rfl
  | cons c cues ih =>
    rw [List.flatMap_cons, List.flatMap_cons, List.flatMap_append, vttBlock_eq (h c List.mem_cons_self),
      ih fun d hd => h d (List.mem_cons_of_mem c hd)]

theorem toVtt_eq {cues : List Cue} (h : ∀ c ∈ cues, c.Shows) : toVtt cues = (fileLines cues).flatMap (· ++ ['\n']) := by
  unfold toVtt fileLines
  rw [shown_eq h, List.flatMap_map, vttBlocks_eq h, List.flatMap_cons]
  rfl

theorem mem_timing {c : Cue} {d : Char} (h : d ∈ timing c) :
    d.isDigit = true ∨ d = ':' ∨ d = '.' ∨ d = ' ' ∨ d = '-' ∨ d = '>' := by
  have harrow : " --> ".toList = [' ', '-', '-', '>', ' '] := rfl
  rw [timing, harrow, List.mem_append, List.mem_append] at h
  rcases h with (h | h) | h
  · rcases mem_stamp h with h | h | h <;> simp [h]
  · simp only [List.mem_cons, List.not_mem_nil, or_false] at h
    rcases h with h | h | h | h | h <;> simp [h]
  · rcases mem_stamp h with h | h | h <;> simp [h]

theorem plain_timing (c : Cue) : Plain (timing c) where
  lineFeed hin := absurd (mem_timing hin) (by decide)
  last hlast := absurd (mem_timing (List.mem_of_getLast? hlast)) (by decide)

theorem plain_escapeVtt {text line : Text} (h : line ∈ tidyLines text) : Plain (escapeVtt line) := by
  obtain ⟨_, htrim, hnl⟩ := tidy_tidyLines text line h
  refine ⟨kept_lineFeed.not_mem_escapeVtt hnl, kept_return.getLast?_escapeVtt fun hlast => ?_⟩
  exact absurd (htrim.2 _ hlast) (by decide)

theorem plain_fileLines (cues : List Cue) : ∀ line ∈ fileLines cues, Plain line := by
  intro line hline
  rw [fileLines, List.mem_cons, List.mem_flatMap] at hline
  rcases hline with rfl | ⟨c, _, hline⟩
  · exact ⟨by decide, by decide⟩
  · rw [List.mem_cons, List.mem_cons, List.mem_map] at hline
    rcases hline with rfl | rfl | ⟨raw, hraw, rfl⟩
    · exact ⟨by decide, by decide⟩
    · exact plain_timing c
    · exact plain_escapeVtt hraw

/-- The lines a cue's text is read as. -/
def Cue.reading (c : Cue) : List Text := (tidyLines c.text).flatMap broken

theorem lines_toVtt {cues : List Cue} (h : ∀ c ∈ cues, c.Shows) :
    lines '\n' (replaceCr (replaceCrLf (toVtt cues))) =
      "WEBVTT".toList :: cues.flatMap fun c => [] :: timing c :: c.reading.map escapeVtt := by
  rw [toVtt_eq h, lines_file (plain_fileLines cues), fileLines, List.flatMap_cons, List.flatMap_assoc]
  have hheader : broken "WEBVTT".toList = ["WEBVTT".toList] := broken_of_not_mem (by decide) (by decide)
  have hblock : ∀ c : Cue, ([] :: timing c :: (tidyLines c.text).map escapeVtt).flatMap broken =
      [] :: timing c :: c.reading.map escapeVtt := by
    intro c
    have hreturn : '\r' ∉ timing c := fun hin => absurd (mem_timing hin) (by decide)
    have hnil : broken [] = [[]] := rfl
    rw [List.flatMap_cons, List.flatMap_cons, hnil, broken_of_not_mem (plain_timing c).lineFeed hreturn,
      List.flatMap_map, Cue.reading, List.map_flatMap]
    simp only [broken_escapeVtt, List.singleton_append]
  simp only [hheader, hblock, List.singleton_append]

/-! ## Blocks -/

theorem blocks_append (a b : List Text) : blocks (a ++ [] :: b) = blocks a ++ blocks b := by
  have hblank : blank [] = true := rfl
  rw [blocks, List.splitOnP_append_cons a b hblank, List.filter_append]
  rfl

theorem exists_splitOnP (all : List Text) :
    ∃ more, all.splitOnP blank = all.takeWhile (!blank ·) :: more ∧ ∀ block ∈ more, ∀ line ∈ block, line ∈ all := by
  induction all with
  | nil => exact ⟨[], rfl, fun block hblock => absurd hblock List.not_mem_nil⟩
  | cons first all ih =>
    obtain ⟨more, hsplit, hmore⟩ := ih
    rw [List.splitOnP_cons_eq_if_modifyHead, hsplit, List.takeWhile_cons]
    cases blank first with
    | true =>
      refine ⟨all.takeWhile (!blank ·) :: more, rfl, ?_⟩
      intro block hblock line hline
      rcases List.mem_cons.mp hblock with rfl | hblock
      · exact List.mem_cons_of_mem first ((List.takeWhile_prefix _).subset hline)
      · exact List.mem_cons_of_mem first (hmore block hblock line hline)
    | false =>
      exact ⟨more, rfl, fun block hblock line hline => List.mem_cons_of_mem first (hmore block hblock line hline)⟩

/-- A line that is not blank starts a block, which goes on to a blank one. -/
theorem blocks_cons {first : Text} (h : blank first = false) (all : List Text) :
    ∃ others, blocks (first :: all) = (first :: all.takeWhile (!blank ·)) :: others ∧
      ∀ block ∈ others, ∀ line ∈ block, line ∈ all := by
  obtain ⟨more, hsplit, hmore⟩ := exists_splitOnP all
  refine ⟨more.filter (· ≠ []), ?_, fun block hblock => hmore block (List.mem_of_mem_filter hblock)⟩
  rw [blocks, List.splitOnP_cons_eq_if_modifyHead, h, hsplit]
  rfl

theorem blocks_flatMap (front : List Text) (cues : List Cue) (back : Cue → List Text) :
    blocks (front ++ cues.flatMap fun c => [] :: back c) = blocks front ++ cues.flatMap fun c => blocks (back c) := by
  induction cues generalizing front with
  | nil => simp
  | cons c cues ih =>
    rw [List.flatMap_cons, List.flatMap_cons, List.cons_append, blocks_append, ih]

theorem timed_eq_none {block : List Text} (h : ∀ line ∈ block, splitArrow line = none) : timed block = none := by
  have hfind : (block.take 2).findIdx? (fun l => (splitArrow l).isSome) = none := by
    rw [List.findIdx?_eq_none_iff]
    intro line hline
    rw [h line (List.mem_of_mem_take hline)]
    rfl
  unfold timed
  rw [hfind]
  cases block.head? with
  | none => rfl
  | some first => exact ite_self none

/-! ## A cue's block -/

/-- The cue that is read where `c` was written. -/
def reread (c : Cue) : Option Cue := cueOf 0 (timing c :: (c.reading.map escapeVtt).takeWhile (!blank ·))

theorem trim_timing (c : Cue) : trim (timing c) = timing c :=
  strip_of_bare ((bare_stamp c.start).append (bare_stamp c.end_) (stamp_ne_nil _) (stamp_ne_nil _) _)

theorem blank_timing (c : Cue) : blank (timing c) = false := by
  have hne : timing c ≠ [] := List.append_ne_nil_of_right_ne_nil _ (stamp_ne_nil _)
  rw [blank, trim_timing]
  exact decide_eq_false hne

theorem isKind_eq_false {k first : Text} {d : Char} (hd : d ∈ k) (h : d ∉ first) : isKind k first = false := by
  rw [isKind, Bool.and_eq_false_iff]
  refine .inl (Bool.eq_false_iff.mpr fun hprefix => h ?_)
  exact (List.isPrefixOf_iff_prefix.mp hprefix).subset hd

theorem isAside_timing (c : Cue) : isAside (timing c) = false := by
  have hn : 'T' ∈ "NOTE".toList := by decide
  have hs : 'T' ∈ "STYLE".toList := by decide
  have hr : 'G' ∈ "REGION".toList := by decide
  have hT : 'T' ∉ timing c := fun hin => absurd (mem_timing hin) (by decide)
  have hG : 'G' ∉ timing c := fun hin => absurd (mem_timing hin) (by decide)
  rw [isAside, isKind_eq_false hn hT, isKind_eq_false hs hT, isKind_eq_false hr hG]
  rfl

/-- A written block is timed if its times can be read back. -/
theorem timed_timing {c : Cue} (h : c.start ≤ c.end_) (more : List Text) :
    timed (timing c :: more) = if c.end_ < tenDigitHours then some (c.start, c.end_, more) else none := by
  have hfind : ((timing c :: more).take 2).findIdx? (fun l => (splitArrow l).isSome) = some 0 := by
    rw [List.take_succ_cons, List.findIdx?_cons, splitArrow_timing]
    rfl
  unfold timed
  rw [hfind, List.head?_cons]
  simp only [Option.bind_eq_bind, Option.bind_some, trim_timing, isAside_timing, Bool.false_eq_true, if_false,
    List.getElem?_cons_zero, vttTiming_timing c h]
  split <;> rfl

theorem filterMap_blocks (c : Cue) :
    (blocks (timing c :: c.reading.map escapeVtt)).filterMap (cueOf 0) = (reread c).toList := by
  obtain ⟨others, hblocks, hothers⟩ := blocks_cons (blank_timing c) (c.reading.map escapeVtt)
  have hnone : others.filterMap (cueOf 0) = [] := by
    rw [List.filterMap_eq_nil_iff]
    intro block hblock
    have harrow : ∀ line ∈ block, splitArrow line = none := by
      intro line hline
      obtain ⟨raw, _, rfl⟩ := List.mem_map.mp (hothers block hblock line hline)
      exact splitArrow_escapeVtt raw
    rw [cueOf, timed_eq_none harrow]
    rfl
  rw [hblocks, List.filterMap_cons, hnone, ← reread]
  cases reread c <;> rfl

theorem body_toVtt {cues : List Cue} (h : ∀ c ∈ cues, c.Shows) :
    body (toVtt cues) = (0, cues.flatMap fun c => blocks (timing c :: c.reading.map escapeVtt)) := by
  have hbom : (toVtt cues).dropWhile (· = '\ufeff') = toVtt cues := by
    rfl
  have hblocks := blocks_flatMap ["WEBVTT".toList] cues fun c => timing c :: c.reading.map escapeVtt
  have hheader : blocks ["WEBVTT".toList] = [["WEBVTT".toList]] := by decide
  have hoffset : headerOffset ["WEBVTT".toList] = some 0 := by decide
  rw [hheader, List.singleton_append, List.singleton_append] at hblocks
  unfold body
  rw [hbom]
  dsimp only
  rw [lines_toVtt h, hblocks]
  dsimp only
  rw [hoffset]

/-- Reading what was written reads each cue where it was written. -/
theorem parseVtt_toVtt {cues : List Cue} (h : ∀ c ∈ cues, c.Shows) : parseVtt (toVtt cues) = cues.filterMap reread := by
  rw [parseVtt, body_toVtt h]
  show (cues.flatMap fun c => blocks (timing c :: c.reading.map escapeVtt)).filterMap (cueOf 0) = _
  induction cues with
  | nil => rfl
  | cons c cues ih =>
    rw [List.flatMap_cons, List.filterMap_append, ih fun d hd => h d (List.mem_cons_of_mem c hd),
      filterMap_blocks, List.filterMap_cons]
    cases reread c <;> rfl

/-! ## What is read back whole -/

theorem escapeVtt_joined (all : List Text) : joinLines (all.map escapeVtt) = escapeVtt (joinLines all) := by
  induction all with
  | nil => rfl
  | cons line all ih =>
    cases all with
    | nil => simp [joinLines, List.intercalate]
    | cons next all =>
      have hjoin : ∀ a b : Text, ∀ more, joinLines (a :: b :: more) = a ++ '\n' :: joinLines (b :: more) := by
        intro a b more
        simp [joinLines, List.intercalate_cons_cons]
      rw [List.map_cons] at ih
      rw [List.map_cons, List.map_cons, hjoin, hjoin, ih, kept_lineFeed.escapeVtt_append]

theorem takeWhile_escapeVtt (all : List Text) :
    (all.map escapeVtt).takeWhile (!blank ·) = (all.takeWhile (!blank ·)).map escapeVtt := by
  rw [List.takeWhile_map]
  have hsame : (fun line => !blank line) ∘ escapeVtt = fun line => !blank line := by
    funext line
    exact congrArg (!·) (blank_escapeVtt line)
  rw [hsame]

theorem reread_eq {c : Cue} (h : c.Shows) :
    reread c = if c.end_ < tenDigitHours then cue c.start c.end_ (joinLines (c.reading.takeWhile (!blank ·))) else none := by
  have htext : cleanVttText (joinLines ((c.reading.map escapeVtt).takeWhile (!blank ·))) =
      joinLines (c.reading.takeWhile (!blank ·)) := by
    rw [takeWhile_escapeVtt, escapeVtt_joined, clean_escapeVtt]
  unfold reread cueOf
  rw [timed_timing (Nat.le_of_lt h.lt)]
  split
  · show cue (c.start + 0) (c.end_ + 0) _ = _
    rw [htext, Int.add_zero, Int.add_zero]
  · rfl

/-- Without a `'\r'`, a text's lines are read as they are. -/
theorem reading_eq {c : Cue} (h : c.Shows) (hreturn : '\r' ∉ c.text) : c.reading.takeWhile (!blank ·) = tidyLines c.text := by
  have htidy := tidy_tidyLines c.text
  have hplain : ∀ line ∈ tidyLines c.text, broken line = [line] := by
    intro line hline
    refine broken_of_not_mem (htidy line hline).2.2 fun hin => hreturn ?_
    rw [← h.tidy]
    exact mem_intercalate_of_mem hline hin
  have hreading : c.reading = tidyLines c.text := by
    have hsame : c.reading = (tidyLines c.text).flatMap fun line => [line] := by
      rw [Cue.reading]
      exact List.flatMap_congr hplain
    rw [hsame]
    simp
  rw [hreading, List.takeWhile_eq_self_iff]
  intro line hline
  obtain ⟨hne, htrim, _⟩ := htidy line hline
  rw [blank, trim_of_trimmed htrim, decide_eq_false hne]
  rfl

theorem not_mem_reading {c : Cue} {line : Text} (h : line ∈ c.reading) : '\r' ∉ line := by
  intro hin
  obtain ⟨raw, _, hraw⟩ := List.mem_flatMap.mp h
  rcases List.mem_append.mp (mem_of_mem_lines hraw hin) with hin | hin
  · exact not_mem_replaceCr raw hin
  · exact absurd hin (by decide)

theorem return_of_mem_tidy {text : Text} (h : '\r' ∈ tidy text) : '\r' ∈ text := by
  rcases mem_intercalate h with hsep | ⟨line, hline, hin⟩
  · cases hsep
  · obtain ⟨raw, hraw, rfl⟩ := List.mem_map.mp (List.mem_of_mem_filter hline)
    exact mem_of_mem_lines hraw (mem_of_mem_trim hin)

theorem reread_eq_self {c : Cue} (h : c.Shows) : reread c = some c ↔ '\r' ∉ c.text ∧ c.end_ < tenDigitHours := by
  rw [reread_eq h]
  constructor
  · intro hread
    split at hread
    · rename_i hsmall
      refine ⟨fun hin => ?_, hsmall⟩
      unfold cue at hread
      dsimp only at hread
      split at hread
      · have htext := congrArg Cue.text (Option.some_inj.mp hread)
        rw [← htext] at hin
        rcases mem_intercalate (return_of_mem_tidy hin) with hsep | ⟨line, hline, hin⟩
        · cases hsep
        · exact not_mem_reading ((List.takeWhile_prefix _).subset hline) hin
      · cases hread
    · cases hread
  · rintro ⟨hreturn, hsmall⟩
    have hjoined : joinLines (tidyLines c.text) = c.text := h.tidy
    have htext : tidy c.text ≠ [] := by
      rw [h.tidy]
      exact h.text
    rw [if_pos hsmall, reading_eq h hreturn, hjoined, cue_eq_some h.lt htext, h.tidy]

theorem filterMap_eq_self_iff {α : Type} {f : α → Option α} {all : List α} :
    all.filterMap f = all ↔ ∀ x ∈ all, f x = some x := by
  constructor
  · intro h
    induction all with
    | nil => exact fun x hx => absurd hx List.not_mem_nil
    | cons x all ih =>
      rw [List.filterMap_cons] at h
      cases hx : f x with
      | none =>
        rw [hx] at h
        dsimp only at h
        have hlen := List.length_filterMap_le f all
        rw [h, List.length_cons] at hlen
        omega
      | some y =>
        rw [hx] at h
        obtain ⟨rfl, hrest⟩ := List.cons.inj h
        exact List.forall_mem_cons.mpr ⟨hx, ih hrest⟩
  · intro h
    rw [List.filterMap_congr h]
    exact List.filterMap_some

/-- Cues that show are read back exactly if none has a `'\r'` or ends in ten-digit hours. -/
theorem parseVtt_toVtt_eq_self {cues : List Cue} (h : ∀ c ∈ cues, c.Shows) :
    parseVtt (toVtt cues) = cues ↔ ∀ c ∈ cues, '\r' ∉ c.text ∧ c.end_ < tenDigitHours := by
  rw [parseVtt_toVtt h, filterMap_eq_self_iff]
  exact forall₂_congr fun c hc => reread_eq_self (h c hc)

/-! ## The round trip of a file -/

/-- A block whose cue can be written: its text has no `'\r'` left within when it
is read and tidied, and its end no ten-digit hours. -/
def Writable (offset : Int) (block : List Text) : Prop :=
  ∀ start end_ rest, timed block = some (start, end_, rest) →
    max (start + offset) 0 < end_ + offset → tidy (cleanVttText (joinLines rest)) ≠ [] →
      '\r' ∉ tidy (cleanVttText (joinLines rest)) ∧ end_ + offset < tenDigitHours

theorem cueOf_eq_some {offset : Int} {block : List Text} {c : Cue} :
    cueOf offset block = some c ↔
      ∃ start end_ rest, timed block = some (start, end_, rest) ∧
        cue (start + offset) (end_ + offset) (cleanVttText (joinLines rest)) = some c := by
  unfold cueOf
  constructor
  · intro h
    obtain ⟨⟨start, end_, rest⟩, htimed, hcue⟩ := Option.bind_eq_some_iff.mp h
    exact ⟨start, end_, rest, htimed, hcue⟩
  · rintro ⟨start, end_, rest, htimed, hcue⟩
    exact Option.bind_eq_some_iff.mpr ⟨(start, end_, rest), htimed, hcue⟩

theorem shows_of_cueOf {offset : Int} {block : List Text} {c : Cue} (h : cueOf offset block = some c) : c.Shows := by
  obtain ⟨_, _, _, _, hcue⟩ := cueOf_eq_some.mp h
  exact shows_of_cue hcue

theorem writable_iff {offset : Int} {block : List Text} :
    Writable offset block ↔ ∀ c, cueOf offset block = some c → '\r' ∉ c.text ∧ c.end_ < tenDigitHours := by
  constructor
  · intro h c hc
    obtain ⟨start, end_, rest, htimed, hcue⟩ := cueOf_eq_some.mp hc
    unfold cue at hcue
    dsimp only at hcue
    split at hcue
    · rename_i hshown
      obtain ⟨hreturn, hsmall⟩ := h start end_ rest htimed hshown.1 hshown.2
      cases hcue
      exact ⟨hreturn, by dsimp only; omega⟩
    · cases hcue
  · intro h start end_ rest htimed hlt htext
    have hcue : cue (start + offset) (end_ + offset) (cleanVttText (joinLines rest)) =
        some ⟨(max (start + offset) 0).toNat, (end_ + offset).toNat, tidy (cleanVttText (joinLines rest))⟩ := by
      unfold cue
      exact if_pos ⟨hlt, htext⟩
    obtain ⟨hreturn, hsmall⟩ := h _ (cueOf_eq_some.mpr ⟨start, end_, rest, htimed, hcue⟩)
    dsimp only at hreturn hsmall
    exact ⟨hreturn, by omega⟩

/-- The cues of a file come back from what is written of them exactly if each of
its blocks can be written. -/
theorem round_trip_iff (text : Text) :
    parseVtt (toVtt (parseVtt text)) = parseVtt text ↔ ∀ block ∈ (body text).2, Writable (body text).1 block := by
  have hshows : ∀ c ∈ parseVtt text, c.Shows := by
    intro c hc
    obtain ⟨block, _, hblock⟩ := List.mem_filterMap.mp hc
    exact shows_of_cueOf hblock
  rw [parseVtt_toVtt_eq_self hshows]
  constructor
  · intro h block hblock
    rw [writable_iff]
    intro c hc
    exact h c (List.mem_filterMap.mpr ⟨block, hblock, hc⟩)
  · intro h c hc
    obtain ⟨block, hblock, hcue⟩ := List.mem_filterMap.mp hc
    exact writable_iff.mp (h block hblock) c hcue

/-- A `'\r'` that a reference names comes back as a line break, and a cue at
ten-digit hours not at all. -/
theorem round_trip_breaks :
    (parseVtt "00:00.000 --> 00:01.000\na&#13;b".toList = [⟨0, 1000, "a\rb".toList⟩] ∧
      parseVtt (toVtt (parseVtt "00:00.000 --> 00:01.000\na&#13;b".toList)) = [⟨0, 1000, "a\nb".toList⟩]) ∧
    (parseVtt "999999999:999999999:00.000 --> 999999999:999999999:01.000\nx".toList =
        [⟨3659999996340000, 3659999996341000, "x".toList⟩] ∧
      parseVtt (toVtt (parseVtt "999999999:999999999:00.000 --> 999999999:999999999:01.000\nx".toList)) = []) := by
  decide +kernel

end Hyperfetch.Subs
