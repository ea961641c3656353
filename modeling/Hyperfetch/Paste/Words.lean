import Hyperfetch.Weft.Text
import Hyperfetch.Text

/-!
# The words of a pasted command

paste.rs 751–864: the words a POSIX shell or cmd hands a program. Every loop takes characters
off the front of what is left, so it ends.
-/

namespace Hyperfetch.Paste

open Weft

/-! ## POSIX -/

/-- The rest of a `"…"` string after `w`, and what is behind it. -/
def doubleQuoted : Text → Text → Text × Text
  | [], w => (w, [])
  | '"' :: chars, w => (w, chars)
  | ['\\'], w => (w ++ ['\\'], [])
  | '\\' :: '\n' :: chars, w => doubleQuoted chars w
  | '\\' :: c :: chars, w => doubleQuoted chars (w ++ if c ∈ ['"', '\\', '$', '`'] then [c] else ['\\', c])
  | c :: chars, w => doubleQuoted chars (w ++ [c])

/-- `char::to_digit(16)`. -/
def hexDigit (c : Char) : Option ℕ :=
  if '0' ≤ c ∧ c ≤ '9' then some (c.toNat - 48)
  else if 'a' ≤ c ∧ c ≤ 'f' then some (c.toNat - 87)
  else if 'A' ≤ c ∧ c ≤ 'F' then some (c.toNat - 55)
  else none

/-- What up to four digits stand for, if it is a character. -/
def hexChar (digits : Text) : Text :=
  if digits = [] then []
  else
    let code := digits.foldl (fun n c => 16 * n + (hexDigit c).getD 0) 0
    if code.isValidChar then [Char.ofNat code] else []

/-- At most `most` digits off the front. -/
def hexDigits (most : ℕ) (chars : Text) : Text := (chars.take most).takeWhile fun c => (hexDigit c).isSome

/-- The rest of a `$'…'` string after `out`, and what is behind it. -/
def ansiC : Text → Text → Text × Text
  | [], out => (out, [])
  | '\'' :: chars, out => (out, chars)
  | ['\\'], out => (out, [])
  | '\\' :: 'n' :: chars, out => ansiC chars (out ++ ['\n'])
  | '\\' :: 'r' :: chars, out => ansiC chars (out ++ ['\r'])
  | '\\' :: 't' :: chars, out => ansiC chars (out ++ ['\t'])
  | '\\' :: 'x' :: chars, out => ansiC (chars.drop (hexDigits 2 chars).length) (out ++ hexChar (hexDigits 2 chars))
  | '\\' :: 'u' :: chars, out => ansiC (chars.drop (hexDigits 4 chars).length) (out ++ hexChar (hexDigits 4 chars))
  | '\\' :: c :: chars, out => ansiC chars (out ++ [c])
  | c :: chars, out => ansiC chars (out ++ [c])
termination_by chars => chars.length

theorem length_doubleQuoted_le (chars w : Text) : (doubleQuoted chars w).2.length ≤ chars.length := by
  fun_induction doubleQuoted chars w <;> simp only [List.length_cons, List.length_nil] at * <;> omega

theorem length_ansiC_le (chars out : Text) : (ansiC chars out).2.length ≤ chars.length := by
  fun_induction ansiC chars out <;> simp only [List.length_cons, List.length_nil, List.length_drop] at * <;> omega

/-- The loop of `posix_words`, with the word begun. -/
def posixLoop : Text → Option Text → List Text
  | [], word => word.toList
  | c :: chars, word =>
    if isWhite c then word.toList ++ posixLoop chars none
    else if c = '\\' then
      match chars with
      | [] => posixLoop [] word
      | '\n' :: chars => posixLoop chars word
      | c :: chars => posixLoop chars (some (word.getD [] ++ [c]))
    else if c = '\'' then
      posixLoop ((chars.dropWhile (· ≠ '\'')).drop 1) (some (word.getD [] ++ chars.takeWhile (· ≠ '\'')))
    else if c = '"' then
      posixLoop (doubleQuoted chars (word.getD [])).2 (some (doubleQuoted chars (word.getD [])).1)
    else if c = '$' ∧ chars.head? = some '\'' then
      posixLoop (ansiC (chars.drop 1) (word.getD [])).2 (some (ansiC (chars.drop 1) (word.getD [])).1)
    else posixLoop chars (some (word.getD [] ++ [c]))
termination_by chars => chars.length
decreasing_by
  all_goals simp only [List.length_cons, List.length_nil]
  · omega
  · omega
  · omega
  · omega
  · have hle := (List.dropWhile_sublist (· ≠ '\'') (l := chars)).length_le
    rw [List.length_drop]
    omega
  · have hle := length_doubleQuoted_le chars (word.getD [])
    omega
  · have hle := length_ansiC_le (chars.drop 1) (word.getD [])
    rw [List.length_drop] at hle
    omega
  · omega

def posixWords (command : Text) : List Text := posixLoop command none

/-! ## cmd -/

/-- The line cmd hands on: `^` escapes the character after it. -/
def cmdLine : Text → Text
  | [] => []
  | ['^'] => []
  | '^' :: c :: chars => (if c ≠ '\n' then [c] else []) ++ cmdLine chars
  | c :: chars => c :: cmdLine chars

/-- The C runtime's loop over the line, with the word begun. -/
def cmdLoop : Text → Option Text → Bool → List Text
  | [], word, _ => word.toList
  | c :: chars, word, quoted =>
    if c = '\\' then
      let n := 1 + (chars.takeWhile (· = '\\')).length
      let rest := chars.dropWhile (· = '\\')
      if rest.head? = some '"' then
        let w := word.getD [] ++ List.replicate (n / 2) '\\'
        if n % 2 = 1 then cmdLoop (rest.drop 1) (some (w ++ ['"'])) quoted else cmdLoop rest (some w) quoted
      else cmdLoop rest (some (word.getD [] ++ List.replicate n '\\')) quoted
    else if c = '"' then cmdLoop chars (some (word.getD [])) !quoted
    else if isWhite c ∧ !quoted then word.toList ++ cmdLoop chars none quoted
    else cmdLoop chars (some (word.getD [] ++ [c])) quoted
termination_by chars => chars.length
decreasing_by
  all_goals simp only [List.length_cons]
  · have hle := (List.dropWhile_sublist (· = '\\') (l := chars)).length_le
    rw [List.length_drop]
    omega
  · have hle := (List.dropWhile_sublist (· = '\\') (l := chars)).length_le
    omega
  · have hle := (List.dropWhile_sublist (· = '\\') (l := chars)).length_le
    omega
  · omega
  · omega
  · omega

def cmdWords (command : Text) : List Text := cmdLoop (cmdLine command) none false

/-- Whether a command has cmd's `^` escapes, as it is told. -/
def hasCmdEscape (command : Text) : Prop := ['^', '"'] <:+: command ∨ ['^', '\n'] <:+: command

instance (command : Text) : Decidable (hasCmdEscape command) := inferInstanceAs (Decidable (_ ∨ _))

/-- The words a shell hands a program for `command`. -/
def words (command : Text) : List Text := if hasCmdEscape command then cmdWords command else posixWords command

end Hyperfetch.Paste
