import Hyperfetch.Subs.Vtt

/-!
# Times written and read

A stamp is read back while its hours have no more digits than a time may have.
-/

namespace Hyperfetch.Subs

open Weft

/-! ## Numbers with leading zeros -/

theorem digits_padded {width : Nat} (hwidth : width ≤ 9) (n : Nat) : digits (padded width n) = decide (n < 10 ^ 9) := by
  have hdec := decimal_padded width n
  have hlen : (padded width n).length ≤ 9 ↔ n < 10 ^ 9 := by
    rw [padded, List.length_leftpad, ← Nat.length_toDigits_le_iff (b := 10) (by decide) (by decide)]
    omega
  have hall : (padded width n).all Char.isDigit = true := List.all_eq_true.mpr hdec.all
  simp only [digits, hdec.nonempty, hall, ne_eq, not_false_eq_true, decide_true, Bool.true_and, Bool.and_true, hlen]

/-! ## One time -/

theorem splitAt_eq {p : Char → Bool} {front back : Text} {sep : Char} (hfront : ∀ c ∈ front, p c = false)
    (hsep : p sep = true) : splitAt p (front ++ sep :: back) = some (front, back) := by
  have hpass : ∀ c ∈ front, (!p c) = true := by
    intro c hc
    rw [hfront c hc]
    rfl
  have hdrop : (front ++ sep :: back).dropWhile (!p ·) = sep :: back := by
    rw [List.dropWhile_append_of_pos hpass, List.dropWhile_cons_of_neg]
    simp [hsep]
  have htake : (front ++ sep :: back).takeWhile (!p ·) = front := by
    rw [List.takeWhile_append_of_pos hpass, List.takeWhile_cons_of_neg]
    · exact List.append_nil front
    · simp [hsep]
  rw [splitAt, hdrop, htake]

/-- What stands before a stamp's fraction. -/
def clock (ms : Nat) : Text :=
  padded 2 (ms / 3600000) ++ ':' :: (padded 2 (ms / 60000 % 60) ++ ':' :: padded 2 (ms / 1000 % 60))

theorem stamp_eq (ms : Nat) (sep : Char) : stamp ms sep = clock ms ++ sep :: padded 3 (ms % 1000) := by
  simp [stamp, clock]

theorem mem_clock {ms : Nat} {c : Char} (h : c ∈ clock ms) : c.isDigit = true ∨ c = ':' := by
  simp only [clock, List.mem_append, List.mem_cons] at h
  rcases h with h | rfl | h | rfl | h
  · exact .inl ((decimal_padded _ _).all c h)
  · exact .inr rfl
  · exact .inl ((decimal_padded _ _).all c h)
  · exact .inr rfl
  · exact .inl ((decimal_padded _ _).all c h)

theorem mem_stamp {ms : Nat} {c : Char} (h : c ∈ stamp ms '.') : c.isDigit = true ∨ c = ':' ∨ c = '.' := by
  rw [stamp_eq, List.mem_append, List.mem_cons] at h
  rcases h with h | rfl | h
  · exact (mem_clock h).imp_right .inl
  · exact .inr (.inr rfl)
  · exact .inl ((decimal_padded _ _).all c h)

theorem isWhite_of_mem_stamp {ms : Nat} {c : Char} (h : c ∈ stamp ms '.') : isWhite c = false := by
  rcases mem_stamp h with h | rfl | rfl
  · exact isWhite_of_isDigit h
  · decide
  · decide

theorem splitOn_clock (ms : Nat) :
    (clock ms).splitOn ':' = [padded 2 (ms / 3600000), padded 2 (ms / 60000 % 60), padded 2 (ms / 1000 % 60)] := by
  have hcolon : ∀ n, ':' ∉ padded 2 n := fun n => (decimal_padded 2 n).not_mem (by decide)
  rw [clock, List.splitOn_append_cons_self_of_not_mem (hcolon _), List.splitOn_append_cons_self_of_not_mem (hcolon _),
    List.splitOn_eq_singleton (hcolon _)]

/-- The first time whose hours have ten digits. -/
def tenDigitHours : Nat := 3600000000000000

/-- A time that was written is read back if its hours have at most nine digits. -/
theorem vttTime_stamp {time : Text} {ms : Nat} (h : trim time = stamp ms '.') :
    vttTime time = if ms < tenDigitHours then some ms else none := by
  have hsplit : splitAt (fun c => c = '.' || c = ',') (stamp ms '.') = some (clock ms, padded 3 (ms % 1000)) := by
    rw [stamp_eq]
    refine splitAt_eq ?_ rfl
    intro c hc
    rcases mem_clock hc with hc | rfl
    · have hrange := (isDigit_iff c).mp hc
      have hdot : c ≠ '.' := by rintro rfl; exact absurd hrange (by decide)
      have hcomma : c ≠ ',' := by rintro rfl; exact absurd hrange (by decide)
      simp [hdot, hcomma]
    · rfl
  have hfraction : digits (padded 3 (ms % 1000)) = true := by
    rw [digits_padded (by decide)]
    exact decide_eq_true (by omega)
  have hlen : (padded 3 (ms % 1000)).length = 3 := length_padded (by decide) (by omega)
  have htake : (padded 3 (ms % 1000)).take 3 = padded 3 (ms % 1000) := List.take_of_length_le (by omega)
  have hminutes : digits (padded 2 (ms / 60000 % 60)) = true := by
    rw [digits_padded (by decide)]
    exact decide_eq_true (by omega)
  have hseconds : digits (padded 2 (ms / 1000 % 60)) = true := by
    rw [digits_padded (by decide)]
    exact decide_eq_true (by omega)
  have hvalue : ∀ width n, decimalValue (padded width n) = n := fun width n => (decimal_padded width n).value
  unfold vttTime
  rw [h, hsplit]
  simp only [Option.bind_eq_bind, Option.bind_some, hfraction, htake, hlen, splitOn_clock, hvalue, List.length_cons,
    List.length_nil, List.all_cons, List.all_nil, hminutes, hseconds, digits_padded (show 2 ≤ 9 by decide),
    List.foldl_cons, List.foldl_nil, Bool.and_true]
  unfold tenDigitHours
  by_cases hsmall : ms < 3600000000000000
  · have hhours : ms / 3600000 < 10 ^ 9 := by omega
    have hsum : ((ms / 3600000 * 60 + ms / 60000 % 60) * 60 + ms / 1000 % 60) * 1000 + ms % 1000 = ms := by omega
    rw [if_pos hsmall, decide_eq_true hhours]
    simpa using hsum
  · have hhours : ¬ ms / 3600000 < 10 ^ 9 := by omega
    rw [if_neg hsmall, decide_eq_false hhours]
    simp

/-! ## A timing line -/

def timing (c : Cue) : Text := stamp c.start '.' ++ " --> ".toList ++ stamp c.end_ '.'

theorem splitArrow_append {front : Text} (h : '-' ∉ front) (back : Text) :
    splitArrow (front ++ "-->".toList ++ back) = some (front, back) := by
  induction front with
  | nil => rfl
  | cons c front ih =>
    have hc : c ≠ '-' := fun heq => h (heq ▸ List.mem_cons_self)
    have hrest : splitArrow (front ++ "-->".toList ++ back) = some (front, back) :=
      ih fun hin => h (List.mem_cons_of_mem c hin)
    rw [List.cons_append, List.cons_append, splitArrow.eq_2 _ _ (by rintro _ rfl _; exact hc rfl), hrest]
    rfl

theorem splitArrow_timing (c : Cue) :
    splitArrow (timing c) = some (stamp c.start '.' ++ [' '], ' ' :: stamp c.end_ '.') := by
  have hdash : '-' ∉ stamp c.start '.' ++ [' '] := by
    intro hin
    rcases List.mem_append.mp hin with hin | hin
    · rcases mem_stamp hin with h | h | h <;> exact absurd h (by decide)
    · exact absurd hin (by decide)
  have hline : timing c = (stamp c.start '.' ++ [' ']) ++ "-->".toList ++ (' ' :: stamp c.end_ '.') := by
    simp [timing]
  rw [hline, splitArrow_append hdash]

theorem bare_stamp (ms : Nat) : Bare isWhite (stamp ms '.') :=
  ⟨fun _ hc => isWhite_of_mem_stamp (List.mem_of_head? hc), fun _ hc => isWhite_of_mem_stamp (List.mem_of_getLast? hc)⟩

theorem stamp_ne_nil (ms : Nat) : stamp ms '.' ≠ [] := by
  rw [stamp_eq]
  exact List.append_ne_nil_of_right_ne_nil _ (List.cons_ne_nil _ _)

theorem firstWord_stamp (ms : Nat) : firstWord (' ' :: stamp ms '.') = some (stamp ms '.') := by
  have hpass : ∀ c ∈ stamp ms '.', (!isWhite c) = true := by
    intro c hc
    rw [isWhite_of_mem_stamp hc]
    rfl
  have hdrop : (' ' :: stamp ms '.').dropWhile isWhite = stamp ms '.' := by
    rw [List.dropWhile_cons_of_pos (by decide)]
    exact @dropWhile_append Char isWhite [] _ (fun c hc => absurd hc List.not_mem_nil) (bare_stamp ms).1
  have htake : (stamp ms '.').takeWhile (!isWhite ·) = stamp ms '.' := List.takeWhile_eq_self_iff.mpr hpass
  rw [firstWord, hdrop, htake]
  split
  · rename_i hnil
    exact absurd hnil (stamp_ne_nil ms)
  · rfl

theorem vttTiming_timing (c : Cue) (h : c.start ≤ c.end_) :
    vttTiming (timing c) = if c.end_ < tenDigitHours then some (c.start, c.end_) else none := by
  have hstart : trim (stamp c.start '.' ++ [' ']) = stamp c.start '.' := by
    have hnil : ∀ c ∈ ([] : Text), isWhite c = true := fun c hc => absurd hc List.not_mem_nil
    have hspace : ∀ c ∈ [' '], isWhite c = true := by
      intro c hc
      rw [List.mem_singleton.mp hc]
      rfl
    exact strip_eq hnil (bare_stamp c.start) hspace
  have hend : trim (stamp c.end_ '.') = stamp c.end_ '.' := strip_of_bare (bare_stamp c.end_)
  have hfirst := vttTime_stamp hstart
  have hlast := vttTime_stamp hend
  unfold vttTiming
  rw [splitArrow_timing, Option.bind_eq_bind, Option.bind_some]
  dsimp only
  rw [hfirst, firstWord_stamp]
  by_cases hsmall : c.end_ < tenDigitHours
  · have hbefore : c.start < tenDigitHours := by omega
    rw [if_pos hsmall] at hlast
    rw [if_pos hbefore, if_pos hsmall]
    simp only [Option.bind_eq_bind, Option.bind_some, hlast]
  · rw [if_neg hsmall] at hlast
    rw [if_neg hsmall]
    simp only [Option.bind_eq_bind, Option.bind_some, hlast, Option.bind_none, Option.bind_fun_none]

end Hyperfetch.Subs
