import Hyperfetch.Weft.Fields
import Mathlib.Tactic

/-!
# Texts in lower case

Unicode's lower case of a text, which is each character's but for a capital sigma: at the end
of a word it becomes another letter than elsewhere. What Unicode says of the characters is a
parameter. A number in parentheses can still be read off (`lowercase_number`).
-/

namespace Weft

/-- The marks that are the lower case of themselves alone. -/
def marks : List Char := ['(', ')', '/']

/-- What Unicode says of the case of characters. -/
structure CaseTables where
  lower : Char → List Char
  cased : Char → Bool
  caseIgnorable : Char → Bool
  ascii : ∀ c, c.toNat < 128 → lower c = [c.toLower]
  mark : ∀ c, ∀ m ∈ marks, m ∈ lower c → c = m

section

variable (T : CaseTables)

/-- Whether a letter is next, past what does not count. -/
def casedNext (text : List Char) : Bool := ((text.dropWhile T.caseIgnorable).head?.map T.cased).getD false

/-- A capital sigma's lower case: `before` is what stands before it, from the back. -/
def lowerSigma (before rest : List Char) : Char := if casedNext T before && !casedNext T rest then 'ς' else 'σ'

def lowercaseFrom : List Char → List Char → List Char
  | _, [] => []
  | before, c :: rest => (if c = 'Σ' then [lowerSigma T before rest] else T.lower c) ++ lowercaseFrom (c :: before) rest

/-- `str::to_lowercase`. -/
def lowercase (text : List Char) : List Char := lowercaseFrom T [] text

variable {T}

theorem mem_marks_lowercase {m : Char} (hm : m ∈ marks) {before text : List Char} (h : m ∈ lowercaseFrom T before text) : m ∈ text := by
  induction text generalizing before with
  | nil => exact h
  | cons c rest ih =>
    rcases List.mem_append.mp h with h | h
    · split at h
      · -- a sigma's lower case is a letter
        have hsigma : m = lowerSigma T before rest := List.mem_singleton.mp h
        have hletter : m = 'ς' ∨ m = 'σ' := by
          rw [hsigma]
          unfold lowerSigma
          split
          · exact .inl rfl
          · exact .inr rfl
        exfalso
        rcases hletter with rfl | rfl <;> exact absurd hm (by decide)
      · rw [T.mark c m hm h]
        exact List.mem_cons_self
    · exact List.mem_cons_of_mem c (ih h)

theorem exists_lowercaseFrom_append (before a b : List Char) :
    ∃ front, lowercaseFrom T before (a ++ b) = front ++ lowercaseFrom T (a.reverse ++ before) b := by
  induction a generalizing before with
  | nil => exact ⟨[], rfl⟩
  | cons c a ih =>
    obtain ⟨front, hfront⟩ := ih (c :: before)
    rw [List.cons_append, lowercaseFrom, hfront, List.reverse_cons, List.append_assoc, ← List.append_assoc _ front]
    exact ⟨_, rfl⟩

/-- Characters of ASCII that are no capital letters stay. -/
theorem lowercaseFrom_plain {a : List Char} (ha : ∀ c ∈ a, c.toNat < 128 ∧ c.toLower = c) (before b : List Char) :
    lowercaseFrom T before (a ++ b) = a ++ lowercaseFrom T (a.reverse ++ before) b := by
  induction a generalizing before with
  | nil => rfl
  | cons c a ih =>
    obtain ⟨hascii, hlower⟩ := ha c List.mem_cons_self
    have hsigma : c ≠ 'Σ' := by
      rintro rfl
      revert hascii
      decide
    rw [List.cons_append, lowercaseFrom, if_neg hsigma, T.ascii c hascii, hlower, ih fun d hd => ha d (List.mem_cons_of_mem c hd),
      List.reverse_cons, List.append_assoc]
    rfl

theorem toLower_of_isDigit {c : Char} (h : c.isDigit = true) : c.toNat < 128 ∧ c.toLower = c := by
  simp only [Char.isDigit, Bool.and_eq_true, decide_eq_true_eq, ge_iff_le, UInt32.le_iff_toNat_le] at h
  have hrange : 48 ≤ c.toNat ∧ c.toNat ≤ 57 := h
  refine ⟨by omega, ?_⟩
  unfold Char.toLower
  rw [dif_neg]
  rintro ⟨hlow, -⟩
  rw [ge_iff_le, UInt32.le_iff_toNat_le] at hlow
  have hcapital : 65 ≤ c.toNat := hlow
  omega

theorem not_mem_of_digits {d : List Char} (hd : ∀ c ∈ d, c.isDigit = true) {m : Char} (hm : m.isDigit = false) : m ∉ d := by
  intro hmem
  rw [hd m hmem] at hm
  cases hm

/-- In lower case a number in parentheses is still there, and no parenthesis opens behind it. -/
theorem exists_lowercase_number {a d b : List Char} (hd : ∀ c ∈ d, c.isDigit = true) (hb : '(' ∉ b) :
    ∃ front back, lowercase T (a ++ '(' :: (d ++ ')' :: b)) = front ++ '(' :: (d ++ ')' :: back) ∧ '(' ∉ d ++ ')' :: back := by
  obtain ⟨front, hfront⟩ := exists_lowercaseFrom_append (T := T) [] a ('(' :: (d ++ ')' :: b))
  have hplain : ∀ c ∈ '(' :: (d ++ [')']), c.toNat < 128 ∧ c.toLower = c := by
    intro c hc
    rcases List.mem_cons.mp hc with rfl | hc
    · decide
    · rcases List.mem_append.mp hc with hc | hc
      · exact toLower_of_isDigit (hd c hc)
      · rw [List.mem_singleton.mp hc]
        decide
  have hrest := lowercaseFrom_plain (T := T) hplain (a.reverse ++ []) b
  rw [List.cons_append, List.append_assoc, List.singleton_append] at hrest
  refine ⟨front, lowercaseFrom T (('(' :: (d ++ [')'])).reverse ++ (a.reverse ++ [])) b, ?_, ?_⟩
  · unfold lowercase
    rw [hfront, hrest, List.cons_append, List.append_assoc]
    rfl
  · intro hmem
    rcases List.mem_append.mp hmem with hmem | hmem
    · exact not_mem_of_digits hd (by decide) hmem
    · rcases List.mem_cons.mp hmem with hmem | hmem
      · cases hmem
      · exact hb (mem_marks_lowercase (by decide) hmem)

/-- The last number in parentheses is the same in lower case. -/
theorem lowercase_number {a a' d d' b b' : List Char} (hd : ∀ c ∈ d, c.isDigit = true) (hd' : ∀ c ∈ d', c.isDigit = true)
    (hb : '(' ∉ b) (hb' : '(' ∉ b')
    (h : lowercase T (a ++ '(' :: (d ++ ')' :: b)) = lowercase T (a' ++ '(' :: (d' ++ ')' :: b'))) : d = d' := by
  obtain ⟨front, back, heq, hback⟩ := exists_lowercase_number (T := T) (a := a) hd hb
  obtain ⟨front', back', heq', hback'⟩ := exists_lowercase_number (T := T) (a := a') hd' hb'
  have hcut : some (front, d ++ ')' :: back) = some (front', d' ++ ')' :: back') := by
    rw [← rsplitOnce_eq_some.mpr ⟨rfl, hback⟩, ← heq, h, heq']
    exact rsplitOnce_eq_some.mpr ⟨rfl, hback'⟩
  have hnumber : d ++ ')' :: back = d' ++ ')' :: back' := (Prod.mk.inj (Option.some.inj hcut)).2
  have hcut' : some (d, back) = some (d', back') := by
    rw [← splitOnce_eq_some.mpr ⟨rfl, not_mem_of_digits (m := ')') hd (by decide)⟩, hnumber]
    exact splitOnce_eq_some.mpr ⟨rfl, not_mem_of_digits (m := ')') hd' (by decide)⟩
  exact (Prod.mk.inj (Option.some.inj hcut')).1

/-- The tables for texts of ASCII. -/
def asciiCase : CaseTables where
  lower c := [c.toLower]
  cased := Char.isAlpha
  caseIgnorable c := ['\'', '.', ':', '^', '`'].contains c
  ascii _ _ := rfl
  mark := by
    intro c m hm hc
    have hlower : m = c.toLower := List.mem_singleton.mp hc
    unfold Char.toLower at hlower
    split at hlower
    · -- a capital letter becomes a letter
      rename_i hupper
      exfalso
      obtain ⟨hlow, hhigh⟩ := hupper
      rw [ge_iff_le, UInt32.le_iff_toNat_le] at hlow
      rw [UInt32.le_iff_toNat_le] at hhigh
      have hsmall : ∀ m ∈ marks, m.val.toNat ≤ 47 := by
        intro m hm
        simp only [marks, List.mem_cons, List.not_mem_nil, or_false] at hm
        rcases hm with rfl | rfl | rfl <;> decide
      have hletter : m.val.toNat = c.val.toNat + 32 := by
        rw [hlower]
        show (c.val + 32).toNat = _
        rw [UInt32.toNat_add]
        exact Nat.mod_eq_of_lt (by have h : c.val.toNat ≤ 90 := hhigh; show c.val.toNat + 32 < 4294967296; omega)
      have hmark := hsmall m hm
      have hcapital : 65 ≤ c.val.toNat := hlow
      omega
    · exact hlower.symm

end

end Weft
