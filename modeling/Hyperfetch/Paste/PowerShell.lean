import Hyperfetch.Weft.Text
import Hyperfetch.Text

/-!
# The pieces of a pasted PowerShell command

paste.rs 867–920: `ps_tokens` takes a command apart into words, strings without their quotes
and the signs between them. However the pieces of a command are written, in quotes of
either kind or none and with what may stand between them, they are read again
(`psTokens_command`).
-/

namespace Hyperfetch.Paste

open Weft

inductive Token where
  | text (t : Text)
  | sym (c : Char)
deriving DecidableEq

def syms : Text := ['{', '}', '(', ')', '=', ';', ',']

/-- What a backtick and a character stand for in double quotes. -/
def psEscape : Char → Char
  | 'n' => '\n'
  | 'r' => '\r'
  | 't' => '\t'
  | '0' => '\x00'
  | e => e

/-- The rest of a string in `quote`s after `s`, and what is behind it. -/
def psString (quote : Char) : Text → Text → Text × Text
  | [], s => (s, [])
  | [ch], s => if (ch = '`' ∧ quote = '"') ∨ ch = quote then (s, []) else (s ++ [ch], [])
  | ch :: next :: chars, s =>
    if ch = '`' ∧ quote = '"' then psString quote chars (s ++ [psEscape next])
    else if ch = quote then if next = quote then psString quote chars (s ++ [quote]) else (s, next :: chars)
    else psString quote (next :: chars) (s ++ [ch])

theorem length_psString_le (quote : Char) (chars s : Text) : (psString quote chars s).2.length ≤ chars.length := by
  fun_induction psString quote chars s <;> simp only [List.length_cons, List.length_nil] at * <;> omega

/-- Whether a word goes on with `c`. -/
def inWord (c : Char) : Bool := !isWhite c && c ∉ syms && c ∉ ['"', '\'', '`']

def psTokens : Text → List Token
  | [] => []
  | c :: chars =>
    if c = '`' then psTokens (chars.drop 1)
    else if c = '"' ∨ c = '\'' then .text (psString c chars []).1 :: psTokens (psString c chars []).2
    else if c = '@' ∧ chars.head? = some '{' then psTokens chars
    else if c ∈ syms then .sym c :: psTokens chars
    else if isWhite c then psTokens chars
    else .text (c :: chars.takeWhile inWord) :: psTokens (chars.dropWhile inWord)
termination_by chars => chars.length
decreasing_by
  all_goals simp only [List.length_cons, List.length_drop]
  · omega
  · have hle := length_psString_le c chars []
    omega
  · omega
  · omega
  · omega
  · have hle := (List.dropWhile_sublist inWord (l := chars)).length_le
    omega

/-! ## Ways to write a piece -/

/-- One character of a string in `quote`s. -/
inductive StringChar (quote : Char) : Char → Text → Prop where
  | plain {c : Char} (hquote : c ≠ quote) (htick : ¬(c = '`' ∧ quote = '"')) : StringChar quote c [c]
  | doubled : StringChar quote quote [quote, quote]
  | escaped {e : Char} (hquote : quote = '"') : StringChar quote (psEscape e) ['`', e]

/-- A piece as it may be written in front of `next`. -/
inductive PsWritten : Token → Text → Option Char → Prop where
  | sym {c : Char} {next : Option Char} (hsym : c ∈ syms) : PsWritten (.sym c) [c] next
  | table {next : Option Char} : PsWritten (.sym '{') ['@', '{'] next
  | string {quote : Char} {s : Text} {pieces : List Text} {next : Option Char} (hquote : quote = '"' ∨ quote = '\'')
      (hchars : List.Forall₂ (StringChar quote) s pieces) (hnext : next ≠ some quote) :
      PsWritten (.text s) (quote :: (pieces.flatten ++ [quote])) next
  | word {c : Char} {s : Text} {next : Option Char} (hfirst : inWord c = true) (hrest : ∀ d ∈ s, inWord d = true)
      (hnext : ∀ d ∈ next, inWord d = false) (htable : ¬(c = '@' ∧ s = [] ∧ next = some '{')) :
      PsWritten (.text (c :: s)) (c :: s) next

/-- What may stand between two pieces: white space, and line breaks behind a backtick. -/
inductive Blank : Text → Prop where
  | nil : Blank []
  | white {c : Char} {gap : Text} (hc : isWhite c = true) (hgap : Blank gap) : Blank (c :: gap)
  | goesOn {c : Char} {gap : Text} (hgap : Blank gap) : Blank ('`' :: c :: gap)

/-- A command of the pieces. -/
inductive PsCommand : List Token → Text → Prop where
  | nil {gap : Text} (hgap : Blank gap) : PsCommand [] gap
  | cons {token : Token} {gap t rest : Text} {tokens : List Token} (hgap : Blank gap) (hwritten : PsWritten token t rest.head?)
      (hrest : PsCommand tokens rest) : PsCommand (token :: tokens) (gap ++ (t ++ rest))

/-! ## They are read again -/

theorem psString_plain {quote c : Char} (hquote : c ≠ quote) (htick : ¬(c = '`' ∧ quote = '"')) (chars s : Text) :
    psString quote (c :: chars) s = psString quote chars (s ++ [c]) := by
  cases chars with
  | nil => simp only [psString, if_neg (not_or.mpr ⟨htick, hquote⟩)]
  | cons next chars => rw [psString, if_neg htick, if_neg hquote]

theorem psString_char {quote c : Char} (hquote : quote ≠ '`') {piece : Text} (h : StringChar quote c piece) (chars s : Text) :
    psString quote (piece ++ chars) s = psString quote chars (s ++ [c]) := by
  cases h with
  | plain hne htick => exact psString_plain hne htick chars s
  | doubled =>
    show psString quote (quote :: quote :: chars) s = _
    rw [psString, if_neg fun h => hquote h.1, if_pos rfl, if_pos rfl]
  | escaped hdouble =>
    subst hdouble
    show psString '"' ('`' :: _ :: chars) s = _
    rw [psString, if_pos ⟨rfl, rfl⟩]

/-- A string is read up to its closing quote, unless another one follows. -/
theorem psString_body {quote : Char} (hquote : quote ≠ '`') {body : Text} {pieces : List Text}
    (h : List.Forall₂ (StringChar quote) body pieces) {rest : Text} (hnext : rest.head? ≠ some quote) (s : Text) :
    psString quote (pieces.flatten ++ quote :: rest) s = (s ++ body, rest) := by
  induction h generalizing s with
  | nil =>
    rw [List.flatten_nil, List.nil_append, List.append_nil]
    cases rest with
    | nil => rw [psString, if_pos (.inr rfl)]
    | cons next rest => rw [psString, if_neg fun h => hquote h.1, if_pos rfl, if_neg fun h => hnext (congrArg some h)]
  | @cons c piece body pieces hc _ ih =>
    rw [List.flatten_cons, List.append_assoc, psString_char hquote hc, ih, List.append_assoc, List.singleton_append]

theorem of_inWord {c : Char} (h : inWord c = true) :
    isWhite c = false ∧ c ∉ syms ∧ c ≠ '"' ∧ c ≠ '\'' ∧ c ≠ '`' := by
  simpa [inWord, and_assoc] using h

theorem of_sym {c : Char} (h : c ∈ syms) : isWhite c = false ∧ c ≠ '`' ∧ ¬(c = '"' ∨ c = '\'') ∧ c ≠ '@' := by
  simp only [syms, List.mem_cons, List.not_mem_nil, or_false] at h
  rcases h with rfl | rfl | rfl | rfl | rfl | rfl | rfl <;> exact ⟨rfl, by decide, by decide, by decide⟩

theorem of_white {c : Char} (h : isWhite c = true) : c ≠ '`' ∧ ¬(c = '"' ∨ c = '\'') ∧ c ≠ '@' ∧ c ∉ syms := by
  refine ⟨?_, ?_, ?_, fun hsym => ?_⟩
  · rintro rfl
    cases h
  · rintro (rfl | rfl) <;> cases h
  · rintro rfl
    cases h
  · rw [(of_sym hsym).1] at h
    cases h

/-! ### The branches of the loop -/

theorem psTokens_tick (c : Char) (chars : Text) : psTokens ('`' :: c :: chars) = psTokens chars := by
  rw [psTokens, if_pos rfl]
  rfl

theorem psTokens_white {c : Char} (h : isWhite c = true) (chars : Text) : psTokens (c :: chars) = psTokens chars := by
  obtain ⟨htick, hquote, hat, hsym⟩ := of_white h
  rw [psTokens, if_neg htick, if_neg hquote, if_neg fun h => hat h.1, if_neg hsym, if_pos h]

theorem psTokens_string {quote : Char} (hquote : quote = '"' ∨ quote = '\'') (chars : Text) :
    psTokens (quote :: chars) = .text (psString quote chars []).1 :: psTokens (psString quote chars []).2 := by
  have htick : quote ≠ '`' := by rcases hquote with rfl | rfl <;> decide
  rw [psTokens, if_neg htick, if_pos hquote]

theorem psTokens_sym {c : Char} (h : c ∈ syms) (chars : Text) : psTokens (c :: chars) = .sym c :: psTokens chars := by
  obtain ⟨-, htick, hquote, hat⟩ := of_sym h
  rw [psTokens, if_neg htick, if_neg hquote, if_neg fun h => hat h.1, if_pos h]

theorem psTokens_word {c : Char} (h : inWord c = true) {chars : Text} (htable : ¬(c = '@' ∧ chars.head? = some '{')) :
    psTokens (c :: chars) = .text (c :: chars.takeWhile inWord) :: psTokens (chars.dropWhile inWord) := by
  obtain ⟨hwhite, hsym, hdouble, hsingle, htick⟩ := of_inWord h
  rw [psTokens, if_neg htick, if_neg (not_or.mpr ⟨hdouble, hsingle⟩), if_neg htable, if_neg hsym, hwhite]
  rfl

theorem psTokens_table (chars : Text) : psTokens ('@' :: '{' :: chars) = .sym '{' :: psTokens chars := by
  rw [psTokens, if_neg (by decide), if_neg (by decide), if_pos ⟨rfl, rfl⟩, psTokens_sym (by decide)]

/-! ### A command -/

theorem psTokens_blank {gap : Text} (h : Blank gap) (rest : Text) : psTokens (gap ++ rest) = psTokens rest := by
  induction h with
  | nil => rfl
  | white hc _ ih => rw [List.cons_append, psTokens_white hc, ih]
  | goesOn _ ih => rw [List.cons_append, List.cons_append, psTokens_tick, ih]

theorem psTokens_written {token : Token} {t rest : Text} (h : PsWritten token t rest.head?) :
    psTokens (t ++ rest) = token :: psTokens rest := by
  generalize hnext : rest.head? = next at h
  cases h with
  | sym hsym => exact psTokens_sym hsym rest
  | table => exact psTokens_table rest
  | string hquote hchars hother =>
    have htick := hquote
    rw [List.cons_append, List.append_assoc, List.singleton_append, psTokens_string hquote,
      psString_body (by rcases htick with rfl | rfl <;> decide) hchars (hnext ▸ hother), List.nil_append]
  | @word c s _ hfirst hrest hother htable =>
    have htake : (s ++ rest).takeWhile inWord = s := by
      rw [List.takeWhile_append_of_pos hrest]
      cases rest with
      | nil => exact List.append_nil s
      | cons d rest => rw [List.takeWhile_cons_of_neg (by rw [hother d hnext.symm]; decide), List.append_nil]
    have hdrop : (s ++ rest).dropWhile inWord = rest := by
      rw [List.dropWhile_append_of_pos hrest]
      cases rest with
      | nil => rfl
      | cons d rest => exact List.dropWhile_cons_of_neg (by rw [hother d hnext.symm]; decide)
    rw [List.cons_append, psTokens_word hfirst, htake, hdrop]
    rintro ⟨hat, hhead⟩
    cases s with
    | nil => exact htable ⟨hat, rfl, hnext.symm.trans hhead⟩
    | cons d s =>
      -- a word that goes on has no `{` in it
      obtain rfl := Option.some.inj hhead
      exact (of_inWord (hrest _ (List.mem_cons_self ..))).2.1 (by decide)

/-- The pieces of a command are read as they were meant, however they are written. -/
theorem psTokens_command {tokens : List Token} {command : Text} (h : PsCommand tokens command) : psTokens command = tokens := by
  induction h with
  | @nil gap hgap =>
    have hread := psTokens_blank hgap []
    rwa [List.append_nil, psTokens] at hread
  | cons hgap hwritten _ ih => rw [psTokens_blank hgap, psTokens_written hwritten, ih]

/-- `u= """"`. -/
theorem psTokens_command_doubled : psTokens ['u', '=', ' ', '"', '"', '"', '"'] = [.text ['u'], .sym '=', .text ['"']] := by
  have hquote : PsWritten (.text ['"']) ['"', '"', '"', '"'] none :=
    @PsWritten.string '"' ['"'] [['"', '"']] none (.inl rfl) (.cons .doubled .nil) (by decide)
  have hvalue : PsCommand [.text ['"']] [' ', '"', '"', '"', '"'] :=
    @PsCommand.cons (.text ['"']) [' '] ['"', '"', '"', '"'] [] [] (.white rfl .nil) hquote (.nil .nil)
  have hsign : PsCommand [.sym '=', .text ['"']] ['=', ' ', '"', '"', '"', '"'] :=
    @PsCommand.cons (.sym '=') [] ['='] [' ', '"', '"', '"', '"'] _ .nil (.sym (by decide)) hvalue
  have hword : PsWritten (.text ['u']) ['u'] (some '=') := .word (by decide) (by simp) (by simp [inWord, syms]) (by decide)
  exact psTokens_command (@PsCommand.cons (.text ['u']) [] ['u'] ['=', ' ', '"', '"', '"', '"'] _ .nil hword hsign)

end Hyperfetch.Paste
