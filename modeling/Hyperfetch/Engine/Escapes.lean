import Hyperfetch.Engine.Disposition
import Hyperfetch.Weft.Percent

/-!
# What `percent_decode` reads

A text whose escapes are two hexadecimal digits each is read as it was meant
(`percentDecode_of_writes`). `u8::from_str_radix` also takes a sign for the first
digit, so of any text exactly the escapes are replaced only if none of it is a `%`, a
`+` and a digit (`percentDecode_eq_iff`).
-/

namespace Hyperfetch

open Weft

/-- A way to write some bytes: each as it is or escaped, a `%` escaped. -/
inductive Writes : List UInt8 → List UInt8 → Prop
  | nil : Writes [] []
  | plain {b : UInt8} {bytes text : List UInt8} : b ≠ Percent.percent → Writes bytes text → Writes (b :: bytes) (b :: text)
  | escaped {b x y : UInt8} {bytes text : List UInt8} : Percent.hexValue x = some (b.toNat / 16) →
      Percent.hexValue y = some (b.toNat % 16) → Writes bytes text → Writes (b :: bytes) (Percent.percent :: x :: y :: text)

/-- A `%`, a `+` and a digit stand somewhere. -/
def HasSignedEscape (text : List UInt8) : Prop :=
  ∃ y, (Percent.hexValue y).isSome ∧ [Percent.percent, Percent.plus, y] <:+: text

/-! ## Digits -/

theorem hexDigitValue_eq (b : UInt8) : hexDigitValue b = Percent.hexValue b := rfl

theorem hexByte_digits {x y : UInt8} {high low : Nat} (hx : Percent.hexValue x = some high)
    (hy : Percent.hexValue y = some low) : hexByte x y = some (UInt8.ofNat (16 * high + low)) := by
  rw [← hexDigitValue_eq] at hx hy
  simp only [hexByte, hx, hy]

theorem ne_percent_of_hex {b : UInt8} (h : (Percent.hexValue b).isSome) : b ≠ Percent.percent := by
  rintro rfl
  cases h

/-- Two bytes that make one are digits, or a sign and a digit. -/
theorem hexByte_cases {x y value : UInt8} (h : hexByte x y = some value) :
    (∃ high low, Percent.hexValue x = some high ∧ Percent.hexValue y = some low) ∨
      x = Percent.plus ∧ (Percent.hexValue y).isSome := by
  unfold hexByte at h
  split at h
  · rename_i high low hx hy
    exact Or.inl ⟨high, low, hx, hy⟩
  · rename_i low hx hy
    split at h
    · rename_i hplus
      exact Or.inr ⟨hplus, by rw [← hexDigitValue_eq, hy]; rfl⟩
    · cases h
  · cases h

theorem hexByte_plus {y : UInt8} (h : (Percent.hexValue y).isSome) : ∃ value, hexByte Percent.plus y = some value := by
  obtain ⟨low, hlow⟩ := Option.isSome_iff_exists.mp h
  refine ⟨UInt8.ofNat low, ?_⟩
  rw [← hexDigitValue_eq] at hlow
  have hnone : hexDigitValue Percent.plus = none := rfl
  simp only [hexByte, hlow, hnone]
  rfl

/-! ## A text that was written -/

theorem percentDecode_plain {b : UInt8} (hb : b ≠ Percent.percent) (text : List UInt8) :
    percentDecode (b :: text) = b :: percentDecode text := by
  match text with
  | [] => rfl
  | [_] => rfl
  | _ :: _ :: _ => exact if_neg hb

theorem percentDecode_escaped {x y value : UInt8} (h : hexByte x y = some value) (text : List UInt8) :
    percentDecode (Percent.percent :: x :: y :: text) = value :: percentDecode text := by
  have hpercent : Percent.percent = 0x25 := rfl
  rw [percentDecode, if_pos hpercent, h]

theorem percentDecode_of_writes {bytes text : List UInt8} (h : Writes bytes text) : percentDecode text = bytes := by
  induction h with
  | nil => rfl
  | plain hb _ ih => rw [percentDecode_plain hb, ih]
  | escaped hx hy _ ih =>
    rw [percentDecode_escaped (hexByte_digits hx hy), ih, Nat.div_add_mod, UInt8.ofNat_toNat]

/-! ## Any text -/

theorem hasSignedEscape_cons {b : UInt8} {text : List UInt8} :
    HasSignedEscape (b :: text) ↔
      (∃ y, (Percent.hexValue y).isSome ∧ [Percent.percent, Percent.plus, y] <+: b :: text) ∨ HasSignedEscape text := by
  unfold HasSignedEscape
  simp only [List.infix_cons_iff]
  constructor
  · rintro ⟨y, hy, hpre | hin⟩
    · exact Or.inl ⟨y, hy, hpre⟩
    · exact Or.inr ⟨y, hy, hin⟩
  · rintro (⟨y, hy, hpre⟩ | ⟨y, hy, hin⟩)
    · exact ⟨y, hy, Or.inl hpre⟩
    · exact ⟨y, hy, Or.inr hin⟩

theorem hasSignedEscape_plain {b : UInt8} (hb : b ≠ Percent.percent) {text : List UInt8} :
    HasSignedEscape (b :: text) ↔ HasSignedEscape text := by
  rw [hasSignedEscape_cons]
  constructor
  · rintro (⟨y, _, hpre⟩ | hin)
    · exact absurd (List.cons_prefix_cons.mp hpre).1.symm hb
    · exact hin
  · exact Or.inr

/-- A `%` that no two digits follow is kept. -/
theorem keeps_percent {x y : UInt8} (h : ¬ ∃ high low, Percent.hexValue x = some high ∧ Percent.hexValue y = some low)
    (text : List UInt8) :
    Percent.percentDecode (Percent.percent :: x :: y :: text) = Percent.percent :: Percent.percentDecode (x :: y :: text) := by
  rw [Percent.percentDecode, if_pos rfl]
  split
  · rename_i high low hx hy
    exact absurd ⟨high, low, hx, hy⟩ h
  · rfl

theorem not_hasSignedEscape_short {text : List UInt8} (h : text.length < 3) : ¬ HasSignedEscape text := by
  rintro ⟨y, _, hin⟩
  have hle := hin.length_le
  simp only [List.length_cons, List.length_nil] at hle
  omega

/-- What is read is what the grammar reads unless there is a signed escape, and then
it is shorter. -/
theorem percentDecode_or_shorter (text : List UInt8) :
    (¬ HasSignedEscape text → percentDecode text = Percent.percentDecode text) ∧
      (percentDecode text).length ≤ (Percent.percentDecode text).length ∧
      (HasSignedEscape text → (percentDecode text).length < (Percent.percentDecode text).length) := by
  induction text using percentDecode.induct with
  | case1 => exact ⟨fun _ => rfl, Nat.le_refl _, fun h => absurd h (not_hasSignedEscape_short (by simp))⟩
  | case2 b => exact ⟨fun _ => rfl, Nat.le_refl _, fun h => absurd h (not_hasSignedEscape_short (by simp))⟩
  | case3 b x => exact ⟨fun _ => rfl, Nat.le_refl _, fun h => absurd h (not_hasSignedEscape_short (by simp))⟩
  | case4 x y rest value hvalue ih =>
    obtain ⟨heq, hle, hlt⟩ := ih
    rcases hexByte_cases hvalue with ⟨high, low, hx, hy⟩ | ⟨rfl, hy⟩
    · -- an escape: both read it, and a signed one can only come later
      have hnext : HasSignedEscape (0x25 :: x :: y :: rest) ↔ HasSignedEscape rest := by
        rw [hasSignedEscape_cons, hasSignedEscape_plain (ne_percent_of_hex (by rw [hx]; rfl)),
          hasSignedEscape_plain (ne_percent_of_hex (by rw [hy]; rfl))]
        constructor
        · rintro (⟨z, _, hpre⟩ | hin)
          · have hplus := (List.cons_prefix_cons.mp (List.cons_prefix_cons.mp hpre).2).1
            rw [← hplus] at hx
            cases hx
          · exact hin
        · exact Or.inr
      have hread : Percent.percentDecode (0x25 :: x :: y :: rest) =
          UInt8.ofNat (16 * high + low) :: Percent.percentDecode rest := Percent.percentDecode_percent hx hy rest
      have hsame : percentDecode (0x25 :: x :: y :: rest) = UInt8.ofNat (16 * high + low) :: percentDecode rest :=
        percentDecode_escaped (hexByte_digits hx hy) rest
      rw [hnext, hread, hsame]
      refine ⟨fun h => ?_, Nat.succ_le_succ hle, fun h => Nat.succ_lt_succ (hlt h)⟩
      rw [heq h]
    · -- a signed one: one byte in place of three
      have hread : Percent.percentDecode (0x25 :: Percent.plus :: y :: rest) =
          Percent.percent :: Percent.plus :: y :: Percent.percentDecode rest := by
        have hkept := @keeps_percent Percent.plus y (by rintro ⟨high, low, hplus, _⟩; cases hplus) rest
        rwa [@Percent.percentDecode_cons Percent.plus (by decide), Percent.percentDecode_cons (ne_percent_of_hex hy)] at hkept
      have hone : percentDecode (0x25 :: Percent.plus :: y :: rest) = value :: percentDecode rest :=
        percentDecode_escaped hvalue rest
      have hshorter : (value :: percentDecode rest).length <
          (Percent.percent :: Percent.plus :: y :: Percent.percentDecode rest).length := by
        simp only [List.length_cons]
        omega
      rw [hread, hone]
      refine ⟨fun h => absurd ⟨y, hy, ?_⟩ h, Nat.le_of_lt hshorter, fun _ => hshorter⟩
      exact (List.prefix_append [Percent.percent, Percent.plus, y] rest).isInfix
  | case5 x y rest hnone ih =>
    obtain ⟨heq, hle, hlt⟩ := ih
    have hkept : percentDecode (0x25 :: x :: y :: rest) = 0x25 :: percentDecode (x :: y :: rest) := by
      rw [percentDecode, if_pos rfl, hnone]
    have hread : Percent.percentDecode (0x25 :: x :: y :: rest) = 0x25 :: Percent.percentDecode (x :: y :: rest) := by
      refine keeps_percent ?_ rest
      rintro ⟨high, low, hx, hy⟩
      rw [hexByte_digits hx hy] at hnone
      cases hnone
    have hnext : HasSignedEscape (0x25 :: x :: y :: rest) ↔ HasSignedEscape (x :: y :: rest) := by
      rw [hasSignedEscape_cons]
      constructor
      · rintro (⟨z, hz, hpre⟩ | hin)
        · have hplus := List.cons_prefix_cons.mp (List.cons_prefix_cons.mp hpre).2
          have hdigit := (List.cons_prefix_cons.mp hplus.2).1
          obtain ⟨value, hvalue⟩ := hexByte_plus hz
          rw [hplus.1, hdigit, hnone] at hvalue
          cases hvalue
        · exact hin
      · exact Or.inr
    rw [hnext, hkept, hread]
    refine ⟨fun h => ?_, Nat.succ_le_succ hle, fun h => Nat.succ_lt_succ (hlt h)⟩
    rw [heq h]
  | case6 b x y rest hb ih =>
    obtain ⟨heq, hle, hlt⟩ := ih
    have hpercent : b ≠ Percent.percent := hb
    rw [percentDecode_plain hpercent, Percent.percentDecode_cons hpercent, hasSignedEscape_plain hpercent]
    refine ⟨fun h => ?_, Nat.succ_le_succ hle, fun h => Nat.succ_lt_succ (hlt h)⟩
    rw [heq h]

/-- However bytes are escaped they are read back; and of any text the escapes, and
nothing else, are replaced exactly if there is no signed one. -/
theorem percentDecode_exact_iff (text : List UInt8) :
    (∀ bytes, Writes bytes text → percentDecode text = bytes) ∧
      (percentDecode text = Percent.percentDecode text ↔ ¬ HasSignedEscape text) := by
  refine ⟨fun bytes => percentDecode_of_writes, ?_⟩
  obtain ⟨heq, _, hlt⟩ := percentDecode_or_shorter text
  constructor
  · intro h hsigned
    have hshorter := hlt hsigned
    rw [h] at hshorter
    exact Nat.lt_irrefl _ hshorter
  · exact heq

theorem percentDecode_exact_two : percentDecode [0x25, 0x32, 0x35, 0x61] = [0x25, 0x61] :=
  (percentDecode_exact_iff _).1 _ (.escaped rfl rfl (.plain (by decide) .nil))

/-- `%+f` is read as one byte, though no two digits follow its `%`. -/
theorem signed_escape_read : percentDecode (Utf8.encode "%+f".toList) = [0x0F] ∧
    Percent.percentDecode (Utf8.encode "%+f".toList) = Utf8.encode "%+f".toList := by decide +kernel

end Hyperfetch
