import Hyperfetch.Weft.Utf8
import Mathlib.Data.List.Basic
import Mathlib.Tactic.Common
import Mathlib.Tactic.IntervalCases

/-!
# Form encoding (`application/x-www-form-urlencoded`)

A text as it stands in a query, and back. Reading never fails: what is no
percent-encoding is taken as it is, and what is no UTF-8 is replaced. What was
written is read back (`decode_byteSerialize`), what is written holds none of the
marks a query is cut at (`safe_byteSerialize`), and what is read is no longer than
what was written (`length_decode_le`).
-/

namespace Weft

namespace Percent

open Utf8

def percent : UInt8 := 0x25

def plus : UInt8 := 0x2B

def space : UInt8 := 0x20

/-- The bytes that stand for themselves: letters, digits and `*`, `-`, `.`, `_`. -/
def plain (b : UInt8) : Bool :=
  (0x30 ≤ b && b ≤ 0x39) || (0x41 ≤ b && b ≤ 0x5A) || (0x61 ≤ b && b ≤ 0x7A) ||
    b == 0x2A || b == 0x2D || b == 0x2E || b == 0x5F

def hexDigit (n : Nat) : Char := Char.ofNat (if n < 10 then 0x30 + n else 0x37 + n)

def hexValue (b : UInt8) : Option Nat :=
  if 0x30 ≤ b ∧ b ≤ 0x39 then some (b.toNat - 0x30)
  else if 0x41 ≤ b ∧ b ≤ 0x46 then some (b.toNat - 0x37)
  else if 0x61 ≤ b ∧ b ≤ 0x66 then some (b.toNat - 0x57)
  else none

def encodeByte (b : UInt8) : List Char :=
  if plain b then [Char.ofNat b.toNat]
  else if b = space then ['+']
  else ['%', hexDigit (b.toNat / 16), hexDigit (b.toNat % 16)]

def byteSerialize (bytes : List UInt8) : List Char := bytes.flatMap encodeByte

def replacePlus (bytes : List UInt8) : List UInt8 := bytes.map fun b => if b = plus then space else b

def percentDecode : List UInt8 → List UInt8
  | [] => []
  | [b] => [b]
  | [b, x] => [b, x]
  | b :: x :: y :: rest =>
    if b = percent then
      match hexValue x, hexValue y with
      | some high, some low => UInt8.ofNat (16 * high + low) :: percentDecode rest
      | _, _ => b :: percentDecode (x :: y :: rest)
    else b :: percentDecode (x :: y :: rest)

def decode (text : List Char) : List Char := lossy (percentDecode (replacePlus (encode text)))

/-! ## Reading back -/

theorem percentDecode_cons {b : UInt8} (hb : b ≠ percent) (rest : List UInt8) :
    percentDecode (b :: rest) = b :: percentDecode rest := by
  match rest with
  | [] => rfl
  | [_] => rfl
  | _ :: _ :: _ => exact if_neg hb

theorem percentDecode_percent {x y : UInt8} {high low : Nat} (hx : hexValue x = some high) (hy : hexValue y = some low)
    (rest : List UInt8) :
    percentDecode (percent :: x :: y :: rest) = UInt8.ofNat (16 * high + low) :: percentDecode rest := by
  rw [percentDecode, if_pos rfl, hx, hy]

theorem toNat_ofNat_ascii {n : Nat} (h : n < 128) : (Char.ofNat n).toNat = n := by
  have hvalid : n.isValidChar := Or.inl (by omega)
  rw [Char.ofNat, dif_pos hvalid]
  rfl

theorem encodeChar_ascii {n : Nat} (h : n < 128) : String.utf8EncodeChar (Char.ofNat n) = [UInt8.ofNat n] := by
  have hval : (Char.ofNat n).val.toNat = n := toNat_ofNat_ascii h
  unfold String.utf8EncodeChar
  rw [hval, if_pos (by omega)]

/-- A digit is an ASCII byte that stands for its value, and no `+`. -/
theorem hexDigit_byte {n : Nat} (h : n < 16) :
    ∃ b : UInt8, String.utf8EncodeChar (hexDigit n) = [b] ∧ hexValue b = some n ∧ b ≠ plus := by
  unfold hexDigit
  split
  · rename_i hten
    refine ⟨UInt8.ofNat (0x30 + n), encodeChar_ascii (by omega), ?_, ?_⟩
    · interval_cases n <;> rfl
    · interval_cases n <;> decide
  · rename_i hten
    refine ⟨UInt8.ofNat (0x37 + n), encodeChar_ascii (by omega), ?_, ?_⟩
    · interval_cases n <;> rfl
    · interval_cases n <;> decide

theorem plain_lt {b : UInt8} (h : plain b = true) : b.toNat < 128 := by
  simp only [plain, Bool.or_eq_true, Bool.and_eq_true, decide_eq_true_eq, beq_iff_eq, UInt8.le_iff_toNat_le] at h
  rcases h with (((((h | h) | h) | h) | h) | h) | h
  · exact Nat.lt_of_le_of_lt h.2 (by decide)
  · exact Nat.lt_of_le_of_lt h.2 (by decide)
  · exact Nat.lt_of_le_of_lt h.2 (by decide)
  all_goals
    subst h
    decide

/-- One encoded byte is read back, whatever follows it. -/
theorem percentDecode_encodeByte (b : UInt8) (rest : List Char) :
    percentDecode (replacePlus (encode (encodeByte b ++ rest))) = b :: percentDecode (replacePlus (encode rest)) := by
  unfold encodeByte
  split
  · rename_i hplain
    have hplus : b ≠ plus := by
      rintro rfl
      cases hplain
    have hpercent : b ≠ percent := by
      rintro rfl
      cases hplain
    show percentDecode (replacePlus (String.utf8EncodeChar (Char.ofNat b.toNat) ++ encode rest)) = _
    rw [encodeChar_ascii (plain_lt hplain), UInt8.ofNat_toNat]
    show percentDecode ((if b = plus then space else b) :: replacePlus (encode rest)) = _
    rw [if_neg hplus, percentDecode_cons hpercent]
  · split
    · rename_i hspace
      subst hspace
      show percentDecode (space :: replacePlus (encode rest)) = _
      rw [percentDecode_cons (by decide)]
    · have hlt : b.toNat < 256 := b.toNat_lt
      obtain ⟨x, hx, hhigh, hxp⟩ := hexDigit_byte (n := b.toNat / 16) (by omega)
      obtain ⟨y, hy, hlow, hyp⟩ := hexDigit_byte (n := b.toNat % 16) (by omega)
      show percentDecode (replacePlus (percent :: (String.utf8EncodeChar _ ++ (String.utf8EncodeChar _ ++ encode rest)))) = _
      rw [hx, hy]
      show percentDecode (percent :: (if x = plus then space else x) :: (if y = plus then space else y) ::
        replacePlus (encode rest)) = _
      rw [if_neg hxp, if_neg hyp, percentDecode_percent hhigh hlow, Nat.div_add_mod, UInt8.ofNat_toNat]

theorem percentDecode_byteSerialize (bytes : List UInt8) :
    percentDecode (replacePlus (encode (byteSerialize bytes))) = bytes := by
  induction bytes with
  | nil => rfl
  | cons b bytes ih =>
    show percentDecode (replacePlus (encode (encodeByte b ++ byteSerialize bytes))) = _
    rw [percentDecode_encodeByte, ih]

/-- A text written into a query is read back. -/
theorem decode_byteSerialize (text : List Char) : decode (byteSerialize (encode text)) = text := by
  have hback := lossy_encode text []
  rw [List.append_nil, lossy_nil, List.append_nil] at hback
  rw [decode, percentDecode_byteSerialize, hback]

/-! ## What is written -/

/-- The characters a text is written with. -/
def safe (c : Char) : Bool := c == '%' || c == '+' || (decide (c.toNat < 128) && plain (UInt8.ofNat c.toNat))

theorem safe_plain {b : UInt8} (h : plain b = true) : safe (Char.ofNat b.toNat) = true := by
  have hlt := plain_lt h
  have hval := toNat_ofNat_ascii hlt
  unfold safe
  rw [hval, UInt8.ofNat_toNat, h, decide_eq_true hlt, Bool.true_and, Bool.or_true]

theorem safe_hexDigit {n : Nat} (h : n < 16) : safe (hexDigit n) = true := by
  interval_cases n <;> rfl

theorem safe_encodeByte {b : UInt8} {c : Char} (hc : c ∈ encodeByte b) : safe c = true := by
  unfold encodeByte at hc
  have hlt : b.toNat < 256 := b.toNat_lt
  split at hc
  · rename_i hplain
    exact List.mem_singleton.mp hc ▸ safe_plain hplain
  · split at hc
    · exact List.mem_singleton.mp hc ▸ rfl
    · rcases List.mem_cons.mp hc with h | hc
      · exact h ▸ rfl
      · rcases List.mem_cons.mp hc with h | hc
        · exact h ▸ safe_hexDigit (by omega)
        · exact List.mem_singleton.mp hc ▸ safe_hexDigit (by omega)

theorem safe_byteSerialize {bytes : List UInt8} {c : Char} (hc : c ∈ byteSerialize bytes) : safe c = true := by
  obtain ⟨b, _, hb⟩ := List.mem_flatMap.mp hc
  exact safe_encodeByte hb

/-! ## What is read is no longer -/

theorem length_percentDecode_le (bytes : List UInt8) : (percentDecode bytes).length ≤ bytes.length := by
  induction bytes using percentDecode.induct with
  | case1 => exact Nat.le_refl _
  | case2 => exact Nat.le_refl _
  | case3 => exact Nat.le_refl _
  | case4 x y rest high low hy hx ih =>
    rw [percentDecode_percent hx hy, List.length_cons, List.length_cons, List.length_cons, List.length_cons]
    omega
  | case5 x y rest hnot ih =>
    rw [percentDecode, if_pos rfl]
    split
    · rename_i high low hx hy
      exact absurd hy (hnot high low hx)
    · exact Nat.succ_le_succ ih
  | case6 b x y rest hb ih =>
    rw [percentDecode_cons hb]
    exact Nat.succ_le_succ ih

theorem length_encode_ascii {text : List Char} (h : ∀ c ∈ text, c.toNat < 128) : (encode text).length = text.length := by
  induction text with
  | nil => rfl
  | cons c text ih =>
    have hc := encodeChar_ascii (h c List.mem_cons_self)
    rw [Char.ofNat_toNat] at hc
    rw [encode_cons, hc, List.length_append, ih fun d hd => h d (List.mem_cons_of_mem c hd), List.length_cons]
    exact Nat.add_comm _ _

/-- A text of ASCII is not longer when it is read. -/
theorem length_decode_le {text : List Char} (h : ∀ c ∈ text, c.toNat < 128) : (decode text).length ≤ text.length :=
  calc (decode text).length
      ≤ 0 + (percentDecode (replacePlus (encode text))).length := length_lossyFrom_le none _
    _ ≤ 0 + (replacePlus (encode text)).length := Nat.add_le_add_left (length_percentDecode_le _) 0
    _ = text.length := by rw [Nat.zero_add, replacePlus, List.length_map, length_encode_ascii h]

end Percent

end Weft
