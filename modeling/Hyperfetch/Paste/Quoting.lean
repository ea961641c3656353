import Hyperfetch.Paste.Words

/-!
# Quoted commands

The ways a shell's words are quoted, and what the words of a command quoted so are read as:
the words again, unless cmd's rules are taken for the command's (`words_quoted_iff`). These
read fewer carets than the command holds (`count_cmdWords_lt`).
-/

namespace Hyperfetch.Paste

open Weft

/-! ## Ways to quote -/

/-- What POSIX rules read otherwise than as itself outside quotes. -/
def isSpecial (c : Char) : Bool := isWhite c || c ∈ ['\\', '\'', '"', '$', '`']

/-- Two or four digits of `code`. -/
def HexOf (width code : ℕ) (digits : Text) : Prop :=
  digits.length = width ∧ (∀ c ∈ digits, (hexDigit c).isSome) ∧ digits.foldl (fun n c => 16 * n + (hexDigit c).getD 0) 0 = code

/-- One character of a `$'…'` string. -/
inductive AnsiChar : Char → Text → Prop where
  | plain {c : Char} (hquote : c ≠ '\'') (hslash : c ≠ '\\') : AnsiChar c [c]
  | quote : AnsiChar '\'' ['\\', '\'']
  | slash : AnsiChar '\\' ['\\', '\\']
  | newline : AnsiChar '\n' ['\\', 'n']
  | return : AnsiChar '\r' ['\\', 'r']
  | tab : AnsiChar '\t' ['\\', 't']
  | hex {c : Char} {digits : Text} (hcontrol : isControl c = true) (hdigits : HexOf 2 c.toNat digits) :
      AnsiChar c ('\\' :: 'x' :: digits)
  | unicode {c : Char} {digits : Text} (hcontrol : isControl c = true) (hdigits : HexOf 4 c.toNat digits) :
      AnsiChar c ('\\' :: 'u' :: digits)

/-- One character outside quotes: a line break cannot be escaped, and what is special must be. -/
inductive BareChar : Char → Text → Prop where
  | plain {c : Char} (hplain : isSpecial c = false) : BareChar c [c]
  | escaped {c : Char} (hbreak : c ≠ '\n') : BareChar c ['\\', c]

def singleChar (c : Char) : Text := if c = '\'' then ['\'', '\\', '\'', '\''] else [c]

def doubleChar (c : Char) : Text := if c ∈ ['"', '\\', '$', '`'] then ['\\', c] else [c]

/-- A string as one word of a command. -/
inductive Quoted : Text → Text → Prop where
  | single (s : Text) : Quoted s ('\'' :: (s.flatMap singleChar ++ ['\'']))
  | double (s : Text) : Quoted s ('"' :: (s.flatMap doubleChar ++ ['"']))
  | bare {s : Text} {pieces : List Text} (hne : s ≠ []) (h : List.Forall₂ BareChar s pieces) : Quoted s pieces.flatten
  | ansi {s : Text} {pieces : List Text} (h : List.Forall₂ AnsiChar s pieces) :
      Quoted s ('$' :: '\'' :: (pieces.flatten ++ ['\'']))

/-- What stands between two words. -/
inductive Gap : Text → Prop where
  | spaces (n : ℕ) : Gap (List.replicate (n + 1) ' ')
  | goesOn (n m : ℕ) : Gap (List.replicate (n + 1) ' ' ++ '\\' :: '\n' :: List.replicate (m + 1) ' ')

/-- A command of the strings, each quoted in any way. -/
inductive Command : List Text → Text → Prop where
  | nil : Command [] []
  | last {s t : Text} (h : Quoted s t) : Command [s] t
  | cons {s t gap rest : Text} {strings : List Text} (h : Quoted s t) (hgap : Gap gap) (hrest : Command strings rest) :
      Command (s :: strings) (t ++ gap ++ rest)

/-! ## POSIX reads them back -/

theorem doubleQuoted_body (s w rest : Text) : doubleQuoted (s.flatMap doubleChar ++ '"' :: rest) w = (w ++ s, rest) := by
  induction s generalizing w with
  | nil => simp [doubleQuoted]
  | cons c s ih =>
    rw [List.flatMap_cons, List.append_assoc, doubleChar]
    split
    · rename_i hc
      have hbreak : c ≠ '\n' := by
        rintro rfl
        simp at hc
      rw [List.cons_append, List.cons_append, List.nil_append, doubleQuoted, if_pos hc, ih]
      · simp
      · exact hbreak
    · rename_i hc
      simp only [List.mem_cons, List.not_mem_nil, or_false, not_or] at hc
      rw [List.cons_append, List.nil_append, doubleQuoted, ih]
      · simp
      · exact hc.1
      all_goals
        intros
        exact absurd ‹c = '\\'› hc.2.1

/-! ### The branches of the loop -/

theorem posixLoop_nil (word : Option Text) : posixLoop [] word = word.toList := by rw [posixLoop.eq_def]

theorem posixLoop_blank {c : Char} (hc : isWhite c = true) (rest : Text) (word : Option Text) :
    posixLoop (c :: rest) word = word.toList ++ posixLoop rest none := by
  rw [posixLoop.eq_def]
  simp only [hc, if_true]

theorem posixLoop_goesOn (rest : Text) (word : Option Text) : posixLoop ('\\' :: '\n' :: rest) word = posixLoop rest word := by
  have hwhite : isWhite '\\' = false := rfl
  rw [posixLoop.eq_def]
  simp only [hwhite, Bool.false_eq_true, if_false, if_true]

theorem posixLoop_escape {c : Char} (hc : c ≠ '\n') (rest : Text) (word : Option Text) :
    posixLoop ('\\' :: c :: rest) word = posixLoop rest (some (word.getD [] ++ [c])) := by
  have hwhite : isWhite '\\' = false := rfl
  rw [posixLoop.eq_def]
  simp only [hwhite, Bool.false_eq_true, if_false, if_true]

theorem posixLoop_quote (chars : Text) (word : Option Text) :
    posixLoop ('\'' :: chars) word =
      posixLoop ((chars.dropWhile (· ≠ '\'')).drop 1) (some (word.getD [] ++ chars.takeWhile (· ≠ '\''))) := by
  have hwhite : isWhite '\'' = false := rfl
  rw [posixLoop.eq_def]
  simp only [hwhite, Bool.false_eq_true, if_false, if_true, Char.reduceEq]

theorem posixLoop_doubleQuote (chars : Text) (word : Option Text) :
    posixLoop ('"' :: chars) word =
      posixLoop (doubleQuoted chars (word.getD [])).2 (some (doubleQuoted chars (word.getD [])).1) := by
  have hwhite : isWhite '"' = false := rfl
  rw [posixLoop.eq_def]
  simp only [hwhite, Bool.false_eq_true, if_false, if_true, Char.reduceEq]

theorem posixLoop_dollar (chars : Text) (word : Option Text) :
    posixLoop ('$' :: '\'' :: chars) word = posixLoop (ansiC chars (word.getD [])).2 (some (ansiC chars (word.getD [])).1) := by
  have hwhite : isWhite '$' = false := rfl
  rw [posixLoop.eq_def]
  simp only [hwhite, Bool.false_eq_true, if_false, if_true, Char.reduceEq, List.head?_cons, and_self, List.drop_one, List.tail_cons]

theorem posixLoop_plain {c : Char} (hc : isSpecial c = false) (rest : Text) (word : Option Text) :
    posixLoop (c :: rest) word = posixLoop rest (some (word.getD [] ++ [c])) := by
  simp only [isSpecial, Bool.or_eq_false_iff, decide_eq_false_iff_not, List.mem_cons, List.not_mem_nil, or_false, not_or] at hc
  obtain ⟨hwhite, hslash, hquote, hdouble, hdollar, -⟩ := hc
  rw [posixLoop.eq_def]
  simp only [hwhite, hslash, hquote, hdouble, hdollar, Bool.false_eq_true, if_false, false_and]

/-! ### A word -/

/-- The rest of a single-quoted string: what is there goes on, a quote in it leaves it and comes back. -/
theorem posixLoop_single (s rest : Text) (word : Option Text) :
    posixLoop ('\'' :: (s.flatMap singleChar ++ '\'' :: rest)) word = posixLoop rest (some (word.getD [] ++ s)) := by
  induction s generalizing word with
  | nil =>
    rw [posixLoop_quote]
    simp
  | cons c s ih =>
    rw [List.flatMap_cons, List.append_assoc, singleChar]
    split
    · rename_i hc
      subst hc
      rw [posixLoop_quote]
      simp only [List.cons_append, List.nil_append, List.dropWhile_cons, List.takeWhile_cons, ne_eq, not_true_eq_false, decide_false,
        Bool.false_eq_true, if_false, List.drop_one, List.tail_cons, List.append_nil]
      rw [posixLoop_escape (by decide), ih]
      simp
    · rename_i hc
      have hnext := ih (some (word.getD [] ++ [c]))
      rw [posixLoop_quote] at hnext ⊢
      simp only [List.cons_append, List.nil_append, List.dropWhile_cons, List.takeWhile_cons, ne_eq, hc, not_false_eq_true, decide_true,
        if_true, Option.getD_some, List.append_assoc] at hnext ⊢
      exact hnext

theorem posixLoop_double (s rest : Text) (word : Option Text) :
    posixLoop ('"' :: (s.flatMap doubleChar ++ '"' :: rest)) word = posixLoop rest (some (word.getD [] ++ s)) := by
  rw [posixLoop_doubleQuote, doubleQuoted_body]

theorem posixLoop_bare {s : Text} {pieces : List Text} (h : List.Forall₂ BareChar s pieces) (rest : Text) {word : Option Text}
    (hword : word = none → s ≠ []) : posixLoop (pieces.flatten ++ rest) word = posixLoop rest (some (word.getD [] ++ s)) := by
  induction h generalizing word with
  | nil =>
    cases word with
    | none => exact absurd rfl (hword rfl)
    | some w => simp
  | @cons c piece s pieces hc hrest ih =>
    rw [List.flatten_cons, List.append_assoc]
    cases hc with
    | plain hplain =>
      rw [List.singleton_append, posixLoop_plain hplain, ih (fun h => by cases h)]
      simp
    | escaped hbreak =>
      rw [List.cons_append, List.cons_append, List.nil_append, posixLoop_escape hbreak, ih (fun h => by cases h)]
      simp

theorem isValidChar_toNat (c : Char) : c.toNat.isValidChar := c.valid

theorem hexDigits_append {width code : ℕ} {digits : Text} (h : HexOf width code digits) (rest : Text) :
    hexDigits width (digits ++ rest) = digits := by
  obtain ⟨hlen, hall, -⟩ := h
  rw [hexDigits, ← hlen, List.take_left, List.takeWhile_eq_self_iff]
  exact hall

theorem hexChar_eq {width : ℕ} {c : Char} {digits : Text} (h : HexOf (width + 1) c.toNat digits) : hexChar digits = [c] := by
  obtain ⟨hlen, -, hcode⟩ := h
  have hne : digits ≠ [] := by
    rintro rfl
    cases hlen
  rw [hexChar, if_neg hne]
  simp only [hcode]
  rw [if_pos (isValidChar_toNat c), Char.ofNat_toNat]

theorem ansiC_char {c : Char} {piece : Text} (h : AnsiChar c piece) (rest out : Text) :
    ansiC (piece ++ rest) out = ansiC rest (out ++ [c]) := by
  cases h with
  | plain hquote hslash =>
    rw [List.singleton_append, ansiC]
    · exact hquote
    all_goals
      intros
      exact absurd ‹c = '\\'› hslash
  | quote => rw [List.cons_append, List.cons_append, List.nil_append, ansiC] <;> simp
  | slash => rw [List.cons_append, List.cons_append, List.nil_append, ansiC] <;> simp
  | newline => rw [List.cons_append, List.cons_append, List.nil_append, ansiC]
  | «return» => rw [List.cons_append, List.cons_append, List.nil_append, ansiC]
  | tab => rw [List.cons_append, List.cons_append, List.nil_append, ansiC]
  | hex _ hdigits =>
    rw [List.cons_append, List.cons_append, ansiC, hexDigits_append hdigits, hexChar_eq hdigits, List.drop_left]
  | unicode _ hdigits =>
    rw [List.cons_append, List.cons_append, ansiC, hexDigits_append hdigits, hexChar_eq hdigits, List.drop_left]

theorem ansiC_body {s : Text} {pieces : List Text} (h : List.Forall₂ AnsiChar s pieces) (rest out : Text) :
    ansiC (pieces.flatten ++ '\'' :: rest) out = (out ++ s, rest) := by
  induction h generalizing out with
  | nil => simp [ansiC]
  | cons hc _ ih =>
    rw [List.flatten_cons, List.append_assoc, ansiC_char hc, ih]
    simp

/-- A quoted string is read as itself, however it is quoted. -/
theorem posixLoop_quoted {s t : Text} (h : Quoted s t) (rest : Text) : posixLoop (t ++ rest) none = posixLoop rest (some s) := by
  cases h with
  | single =>
    rw [List.cons_append, List.append_assoc, List.singleton_append, posixLoop_single]
    rfl
  | double =>
    rw [List.cons_append, List.append_assoc, List.singleton_append, posixLoop_double]
    rfl
  | bare hne hpieces =>
    rw [posixLoop_bare hpieces rest (fun _ => hne)]
    rfl
  | ansi hpieces =>
    rw [List.cons_append, List.cons_append, List.append_assoc, List.singleton_append, posixLoop_dollar, ansiC_body hpieces]
    rfl

/-! ### A command -/

theorem posixLoop_spaces (n : ℕ) (rest : Text) : posixLoop (List.replicate n ' ' ++ rest) none = posixLoop rest none := by
  induction n with
  | zero => rfl
  | succ n ih =>
    rw [List.replicate_succ, List.cons_append, posixLoop_blank rfl, ih]
    rfl

theorem posixLoop_gap {gap : Text} (h : Gap gap) (w rest : Text) : posixLoop (gap ++ rest) (some w) = w :: posixLoop rest none := by
  cases h with
  | spaces n =>
    rw [List.replicate_succ, List.cons_append, posixLoop_blank rfl, posixLoop_spaces]
    rfl
  | goesOn n m =>
    rw [List.append_assoc, List.replicate_succ, List.cons_append, posixLoop_blank rfl, posixLoop_spaces, List.cons_append,
      List.cons_append, posixLoop_goesOn, posixLoop_spaces]
    rfl

theorem posixWords_command {strings : List Text} {command : Text} (h : Command strings command) : posixWords command = strings := by
  rw [posixWords]
  induction h with
  | nil => exact posixLoop_nil none
  | @last s t hquoted =>
    have hword := posixLoop_quoted hquoted []
    rw [List.append_nil] at hword
    rw [hword, posixLoop_nil]
    rfl
  | @cons s t gap rest strings hquoted hgap _ ih => rw [List.append_assoc, posixLoop_quoted hquoted, posixLoop_gap hgap, ih]

/-! ## cmd reads fewer carets -/

theorem count_pieces {R : Char → Text → Prop} (hR : ∀ c piece, R c piece → piece.count '^' = [c].count '^') {s : Text}
    {pieces : List Text} (h : List.Forall₂ R s pieces) : pieces.flatten.count '^' = s.count '^' := by
  induction h with
  | nil => rfl
  | @cons c piece s pieces hc _ ih => rw [List.flatten_cons, List.count_append, hR c piece hc, ih, ← List.count_append, List.singleton_append]

theorem count_flatMap {f : Char → Text} (hf : ∀ c, (f c).count '^' = [c].count '^') (s : Text) :
    (s.flatMap f).count '^' = s.count '^' := by
  induction s with
  | nil => rfl
  | cons c s ih => rw [List.flatMap_cons, List.count_append, hf, ih, ← List.count_append, List.singleton_append]

theorem count_hex {width code : ℕ} {digits : Text} (h : HexOf width code digits) : digits.count '^' = 0 := by
  rw [List.count_eq_zero]
  intro hin
  have hdigit := h.2.1 '^' hin
  simp [hexDigit] at hdigit

theorem count_ansiChar {c : Char} {piece : Text} (h : AnsiChar c piece) : piece.count '^' = [c].count '^' := by
  have hcontrol : isControl c = true → [c].count '^' = 0 := by
    intro hc
    rw [List.count_eq_zero, List.mem_singleton]
    rintro rfl
    cases hc
  cases h with
  | plain => rfl
  | quote => rfl
  | slash => rfl
  | newline => rfl
  | «return» => rfl
  | tab => rfl
  | hex hc hdigits => rw [hcontrol hc, List.count_cons_of_ne (by decide), List.count_cons_of_ne (by decide), count_hex hdigits]
  | unicode hc hdigits => rw [hcontrol hc, List.count_cons_of_ne (by decide), List.count_cons_of_ne (by decide), count_hex hdigits]

theorem count_bareChar {c : Char} {piece : Text} (h : BareChar c piece) : piece.count '^' = [c].count '^' := by
  cases h with
  | plain => rfl
  | escaped => exact List.count_cons_of_ne (by decide)

theorem count_singleChar (c : Char) : (singleChar c).count '^' = [c].count '^' := by
  unfold singleChar
  split
  · rename_i hc
    rw [hc]
    rfl
  · rfl

theorem count_doubleChar (c : Char) : (doubleChar c).count '^' = [c].count '^' := by
  unfold doubleChar
  split
  · exact List.count_cons_of_ne (by decide)
  · rfl

theorem count_quoted {s t : Text} (h : Quoted s t) : t.count '^' = s.count '^' := by
  cases h with
  | single => simp [count_flatMap count_singleChar]
  | double => simp [count_flatMap count_doubleChar]
  | bare _ hpieces => exact count_pieces (fun _ _ => count_bareChar) hpieces
  | ansi hpieces => simp [count_pieces (fun _ _ => count_ansiChar) hpieces]

theorem count_gap {gap : Text} (h : Gap gap) : gap.count '^' = 0 := by
  cases h <;> simp [List.count_replicate]

/-- Every caret of a command is one of its strings'. -/
theorem count_command {strings : List Text} {command : Text} (h : Command strings command) :
    command.count '^' = strings.flatten.count '^' := by
  induction h with
  | nil => rfl
  | last hquoted => simp [count_quoted hquoted]
  | cons hquoted hgap _ ih => simp [count_quoted hquoted, count_gap hgap, ih]

/-- Of the carets of a command cmd leaves half at most. -/
theorem count_cmdLine (command : Text) : 2 * (cmdLine command).count '^' ≤ command.count '^' := by
  fun_induction cmdLine command with
  | case1 => rfl
  | case2 => simp
  | case3 c chars ih =>
    rw [List.count_append, List.count_cons_self]
    split
    · rw [← List.singleton_append (l := chars), List.count_append]
      have hone : [c].count '^' ≤ 1 := List.count_le_length
      omega
    · rw [List.count_nil]
      have hle : chars.count '^' ≤ (c :: chars).count '^' := List.count_le_count_cons
      omega
  | case4 c chars hlast hcaret ih =>
    have hne : c ≠ '^' := by
      rintro rfl
      cases chars with
      | nil => exact hlast rfl rfl
      | cons d chars => exact hcaret d chars rfl rfl
    rw [List.count_cons_of_ne hne, List.count_cons_of_ne hne]
    exact ih

theorem count_dropWhile_le (p : Char → Bool) (chars : Text) : (chars.dropWhile p).count '^' ≤ chars.count '^' :=
  (List.dropWhile_sublist p).count_le '^'

/-- The words of a line hold no caret that the line does not. -/
theorem count_cmdLoop_le (chars : Text) (word : Option Text) (quoted : Bool) :
    (cmdLoop chars word quoted).flatten.count '^' ≤ chars.count '^' + (word.getD []).count '^' := by
  fun_induction cmdLoop chars word quoted with
  | case1 word => cases word <;> simp
  | case2 chars word quoted n rest hquote w hodd ih =>
    have hdrop := ((rest.drop_sublist 1).trans (List.dropWhile_sublist _)).count_le '^'
    have hslash : ('\\' :: chars).count '^' = chars.count '^' := List.count_cons_of_ne (by decide)
    have hw : (w ++ ['"']).count '^' = (word.getD []).count '^' := by simp [w, List.count_replicate]
    rw [Option.getD_some, hw] at ih
    rw [hslash]
    exact ih.trans (Nat.add_le_add_right hdrop _)
  | case3 chars word quoted n rest hquote w heven ih =>
    have hdrop : rest.count '^' ≤ chars.count '^' := count_dropWhile_le _ chars
    have hslash : ('\\' :: chars).count '^' = chars.count '^' := List.count_cons_of_ne (by decide)
    have hw : w.count '^' = (word.getD []).count '^' := by simp [w, List.count_replicate]
    rw [Option.getD_some, hw] at ih
    rw [hslash]
    exact ih.trans (Nat.add_le_add_right hdrop _)
  | case4 chars word quoted n rest hquote ih =>
    have hdrop : rest.count '^' ≤ chars.count '^' := count_dropWhile_le _ chars
    have hslash : ('\\' :: chars).count '^' = chars.count '^' := List.count_cons_of_ne (by decide)
    have hw : (word.getD [] ++ List.replicate n '\\').count '^' = (word.getD []).count '^' := by simp [List.count_replicate]
    rw [Option.getD_some, hw] at ih
    rw [hslash]
    exact ih.trans (Nat.add_le_add_right hdrop _)
  | case5 chars word quoted hc ih =>
    rw [List.count_cons_of_ne (by decide)]
    exact ih
  | case6 c chars word quoted hslash hquote hblank ih =>
    -- white space ends the word, which is counted from here on
    have hword : word.toList.flatten.count '^' = (word.getD []).count '^' := by cases word <;> simp
    have hcons : chars.count '^' ≤ (c :: chars).count '^' := List.count_le_count_cons
    rw [Option.getD_none, List.count_nil] at ih
    rw [List.flatten_append, List.count_append, hword]
    omega
  | case7 c chars word quoted hslash hquote hblank ih =>
    have hcons : (c :: chars).count '^' = [c].count '^' + chars.count '^' := by rw [← List.count_append, List.singleton_append]
    rw [Option.getD_some, List.count_append] at ih
    omega

theorem count_cmdWords_lt {command : Text} (h : '^' ∈ command) : (cmdWords command).flatten.count '^' < command.count '^' := by
  have hline := count_cmdLine command
  have hloop := count_cmdLoop_le (cmdLine command) none false
  have hpos := List.count_pos_iff.mpr h
  rw [Option.getD_none, List.count_nil] at hloop
  rw [cmdWords]
  omega

theorem caret_of_cmdEscape {command : Text} (h : hasCmdEscape command) : '^' ∈ command := by
  rcases h with h | h
  · exact h.subset List.mem_cons_self
  · exact h.subset List.mem_cons_self

/-- cmd's rules never give back the words of a quoted command. -/
theorem words_of_cmdEscape {strings : List Text} {command : Text} (h : Command strings command) (hcmd : hasCmdEscape command) :
    words command ≠ strings := by
  intro heq
  have hlt := count_cmdWords_lt (caret_of_cmdEscape hcmd)
  rw [words, if_pos hcmd] at heq
  rw [heq, count_command h] at hlt
  exact lt_irrefl _ hlt

/-- A command of strings quoted in any way is read back as them exactly where it holds no caret
before a double quote or a line break. -/
theorem words_quoted_iff {strings : List Text} {command : Text} (h : Command strings command) :
    words command = strings ↔ ¬ hasCmdEscape command := by
  constructor
  · intro heq hcmd
    exact words_of_cmdEscape h hcmd heq
  · intro hposix
    rw [words, if_neg hposix]
    exact posixWords_command h

theorem words_of_quotes : words "'a b' \"c\"".toList = ["a b".toList, "c".toList] := by
  have hcommand : Command ["a b".toList, "c".toList] "'a b' \"c\"".toList :=
    .cons (.single "a b".toList) (.spaces 0) (.last (.double "c".toList))
  exact (words_quoted_iff hcommand).mpr (by decide)

/-- A quoted string that holds a caret and a double quote is read by cmd's rules. -/
theorem words_of_caret : Command ["q=^\"a\"".toList] "'q=^\"a\"'".toList ∧ words "'q=^\"a\"'".toList ≠ ["q=^\"a\"".toList] := by
  have hcommand : Command ["q=^\"a\"".toList] "'q=^\"a\"'".toList := .last (.single "q=^\"a\"".toList)
  exact ⟨hcommand, words_of_cmdEscape hcommand (by decide)⟩

end Hyperfetch.Paste
