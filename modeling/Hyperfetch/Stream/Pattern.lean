import Hyperfetch.Text
import Hyperfetch.Weft.InTurn
import Hyperfetch.Weft.Text

/-!
# Patterns with `*`

`pattern_matches` says whether a link or a channel's name holds what a pattern
describes. It looks for the pieces between the stars one after another.
-/

namespace Hyperfetch.Stream

open Weft

/-- What stands between the stars of a pattern, less what is empty. -/
def pieces (pattern : Text) : List Text := (pattern.splitOn '*').filter fun piece => !piece.isEmpty

/-- `pattern_matches`; `toLowercase` is `str::to_lowercase`. -/
def patternMatches (toLowercase : Text → Text) (pattern text : Text) : Bool :=
  let pattern := toLowercase (trim pattern)
  let text := toLowercase text
  if pattern.isEmpty then false else (findEach (pieces pattern) text).isSome

/-- `check_pattern`. -/
def checkPattern (pattern : Text) : Except String Unit :=
  if (trim pattern).isEmpty then .error "A pattern may not be empty (e.g. ad*.ts, or *news*)" else .ok ()

theorem ne_nil_of_mem_pieces {pattern piece : Text} (h : piece ∈ pieces pattern) : piece ≠ [] := by
  simpa using (List.mem_filter.mp h).2

/-- A pattern matches where it is not blank and its pieces stand in the text in turn,
wherever that is: taking each at its leftmost place misses nothing. -/
theorem pattern_matches_iff {toLowercase : Text → Text} (hlower : ∀ text, toLowercase text = [] ↔ text = [])
    (pattern text : Text) :
    patternMatches toLowercase pattern text = true ↔
      trim pattern ≠ [] ∧ ∃ places, Placed (toLowercase text) 0 (pieces (toLowercase (trim pattern))) places := by
  simp only [patternMatches, List.isEmpty_iff, hlower]
  split
  next hblank => simp [hblank]
  next hnot =>
    rw [and_iff_right hnot]
    have hfind := @isSome_findEach _ _ (pieces (toLowercase (trim pattern)))
      (fun piece hpiece => ne_nil_of_mem_pieces hpiece) (toLowercase text) 0
    rwa [List.drop_zero] at hfind

theorem pattern_matches_lower :
    (∀ text : Text, text.map Char.toLower = [] ↔ text = []) ∧
      patternMatches (List.map Char.toLower) "ad*.TS ".toList "cdn/Ad_01.ts?x".toList = true ∧
      Placed "cdn/ad_01.ts?x".toList 0 ["ad".toList, ".ts".toList] [4, 9] := by
  have hlower : ∀ text : Text, text.map Char.toLower = [] ↔ text = [] := fun text => List.map_eq_nil_iff
  have hplaced : Placed "cdn/ad_01.ts?x".toList 0 ["ad".toList, ".ts".toList] [4, 9] :=
    ⟨by decide, by decide, by decide, by decide, trivial⟩
  refine ⟨hlower, ?_, hplaced⟩
  exact (pattern_matches_iff hlower "ad*.TS ".toList "cdn/Ad_01.ts?x".toList).mpr ⟨by decide, [4, 9], hplaced⟩

end Hyperfetch.Stream
