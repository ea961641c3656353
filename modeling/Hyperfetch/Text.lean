import Hyperfetch.Weft.Fields
import Mathlib.Tactic

/-!
# Texts and results

What several modules do with texts, a text being the list of its characters, and
with what may fail.
-/

namespace Hyperfetch

open Weft

abbrev Text : Type := List Char

/-- `eq_ignore_ascii_case`. -/
def eqIgnoreAsciiCase (a b : Text) : Bool := a.map Char.toLower == b.map Char.toLower

/-- `char::is_control`. -/
def isControl (c : Char) : Bool := c.toNat < 0x20 || (0x7F ≤ c.toNat && c.toNat ≤ 0x9F)

/-- `{:0width$}` of a number. -/
def padded (width n : Nat) : Text := (Nat.toDigits 10 n).leftpad width '0'

theorem decimalValue_zeros (k : Nat) (text : Text) : decimalValue (List.replicate k '0' ++ text) = decimalValue text := by
  induction k with
  | zero => rfl
  | succ k ih =>
    rw [List.replicate_succ, List.cons_append, ← ih]
    rfl

theorem decimal_padded (width n : Nat) : Decimal (padded width n) n where
  nonempty := by
    intro hnil
    exact (decimal_toDigits n).nonempty (List.append_eq_nil_iff.mp hnil).2
  all c hc := by
    rcases List.mem_append.mp hc with hc | hc
    · rw [List.eq_of_mem_replicate hc]
      rfl
    · exact (decimal_toDigits n).all c hc
  value := by
    rw [padded, List.leftpad, decimalValue_zeros]
    exact (decimal_toDigits n).value

theorem length_padded {width n : Nat} (hwidth : 0 < width) (h : n < 10 ^ width) : (padded width n).length = width := by
  have hle := (Nat.length_toDigits_le_iff (b := 10) (by decide) hwidth).mpr h
  rw [padded, List.length_leftpad]
  omega

/-- `str::parse::<u64>`. -/
def parseU64 : Text → Option Nat
  | '+' :: digits => readDecimal (2 ^ 64 - 1) digits
  | digits => readDecimal (2 ^ 64 - 1) digits

/-- `ok_or_else`. -/
def okOr {ε α : Type} (error : ε) : Option α → Except ε α
  | some a => .ok a
  | none => .error error

@[simp] theorem okOr_eq_ok {ε α : Type} {error : ε} {o : Option α} {a : α} : okOr error o = .ok a ↔ o = some a := by
  cases o <;> simp [okOr]

theorem bind_eq_ok {ε α β : Type} {x : Except ε α} {f : α → Except ε β} {b : β} :
    (x >>= f) = .ok b ↔ ∃ a, x = .ok a ∧ f a = .ok b := by
  cases x with
  | error e => simp [bind, Except.bind]
  | ok a => simp [bind, Except.bind]

end Hyperfetch
