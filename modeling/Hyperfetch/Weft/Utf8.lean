import Mathlib.Data.List.Basic
import Mathlib.Tactic.Common

/-!
# Reading UTF-8 that may be cut

A decoder that never fails: a sequence that is not UTF-8, or is cut off,
becomes one replacement character, and what ended it is read anew. A text is
read back as it was written (`lossy_encode`), and a line feed always ends
what is before it (`lossy_lineFeed`), so the damage of a cut stays in its
line.
-/

namespace Weft

namespace Utf8

/-- A sequence on its way: its bits so far, how many bytes it still needs and
between what the next one must lie, which is never among the first bytes. -/
structure Open where
  bits : Nat
  more : Nat
  low : Nat
  high : Nat
  low_goesOn : 0x80 ≤ low
  deriving DecidableEq

abbrev State := Option Open

/-- U+FFFD. -/
def replacement : Char := Char.ofNat 0xFFFD

def lineFeed : UInt8 := 0x0A

/-- The first byte of a sequence: a character at once, or more to come. -/
def first (b : Nat) : List Char × State :=
  if b < 0x80 then ([Char.ofNat b], none)
  else if 0xC2 ≤ b ∧ b ≤ 0xDF then ([], some ⟨b - 0xC0, 1, 0x80, 0xBF, by decide⟩)
  else if b = 0xE0 then ([], some ⟨0, 2, 0xA0, 0xBF, by decide⟩)
  else if b = 0xED then ([], some ⟨0xD, 2, 0x80, 0x9F, by decide⟩)
  else if 0xE1 ≤ b ∧ b ≤ 0xEF then ([], some ⟨b - 0xE0, 2, 0x80, 0xBF, by decide⟩)
  else if b = 0xF0 then ([], some ⟨0, 3, 0x90, 0xBF, by decide⟩)
  else if b = 0xF4 then ([], some ⟨4, 3, 0x80, 0x8F, by decide⟩)
  else if 0xF1 ≤ b ∧ b ≤ 0xF3 then ([], some ⟨b - 0xF0, 3, 0x80, 0xBF, by decide⟩)
  else ([replacement], none)

/-- One byte. -/
def step : State → Nat → List Char × State
  | none, b => first b
  | some o, b =>
    if o.low ≤ b ∧ b ≤ o.high then
      if o.more ≤ 1 then ([Char.ofNat (o.bits * 64 + (b - 0x80))], none)
      else ([], some ⟨o.bits * 64 + (b - 0x80), o.more - 1, 0x80, 0xBF, by decide⟩)
    -- what cannot go on the sequence ends it and may start the next
    else (replacement :: (first b).1, (first b).2)

/-- What a sequence that never goes on becomes. -/
def close : State → List Char
  | none => []
  | some _ => [replacement]

def lossyFrom : State → List UInt8 → List Char
  | s, [] => close s
  | s, b :: rest => (step s b.toNat).1 ++ lossyFrom (step s b.toNat).2 rest

def lossy (bytes : List UInt8) : List Char := lossyFrom none bytes

def encode (text : List Char) : List UInt8 := text.flatMap String.utf8EncodeChar

@[simp] theorem lossy_nil : lossy [] = [] := rfl

@[simp] theorem encode_append (a b : List Char) : encode (a ++ b) = encode a ++ encode b :=
  List.flatMap_append

theorem encode_cons (c : Char) (text : List Char) : encode (c :: text) = String.utf8EncodeChar c ++ encode text := rfl

/-! ## Reading back a character -/

/-- The bytes of a character of each length, as numbers. -/
theorem lossyFrom_cons (s : State) (n : Nat) (hn : n < 256) (rest : List UInt8) :
    lossyFrom s (UInt8.ofNat n :: rest) = (step s n).1 ++ lossyFrom (step s n).2 rest := by
  show (step s (UInt8.ofNat n).toNat).1 ++ lossyFrom (step s (UInt8.ofNat n).toNat).2 rest = _
  rw [UInt8.toNat_ofNat_of_lt' hn]

/-- A byte that goes on a sequence. -/
theorem step_goesOn {bits more low high b : Nat} {hge : 0x80 ≤ low} (hlow : low ≤ b) (hhigh : b ≤ high)
    (hmore : 1 < more) :
    step (some ⟨bits, more, low, high, hge⟩) b =
      ([], some ⟨bits * 64 + (b - 0x80), more - 1, 0x80, 0xBF, by decide⟩) := by
  rw [step, if_pos ⟨hlow, hhigh⟩, if_neg (Nat.not_le_of_lt hmore)]

theorem step_last {bits low high b : Nat} {hge : 0x80 ≤ low} (hlow : low ≤ b) (hhigh : b ≤ high) :
    step (some ⟨bits, 1, low, high, hge⟩) b = ([Char.ofNat (bits * 64 + (b - 0x80))], none) := by
  rw [step, if_pos ⟨hlow, hhigh⟩, if_pos (Nat.le_refl 1)]

/-- The least and the greatest second byte of a character of three bytes. -/
theorem first_three {v : Nat} (hlow : 0x800 ≤ v) (hhigh : v ≤ 0xFFFF) (hvalid : v < 0xD800 ∨ 0xDFFF < v) :
    ∃ low high hge, first (v / 4096 % 16 + 0xE0) = ([], some ⟨v / 4096, 2, low, high, hge⟩) ∧
      low ≤ v / 64 % 64 + 0x80 ∧ v / 64 % 64 + 0x80 ≤ high := by
  unfold first
  rw [if_neg (by omega), if_neg (by omega)]
  by_cases he0 : v / 4096 = 0
  · refine ⟨0xA0, 0xBF, by decide, ?_, by omega, by omega⟩
    rw [if_pos (by omega), he0]
  rw [if_neg (by omega)]
  by_cases hed : v / 4096 = 13
  · refine ⟨0x80, 0x9F, by decide, ?_, by omega, by omega⟩
    rw [if_pos (by omega), hed]
  rw [if_neg (by omega), if_pos (by omega)]
  refine ⟨0x80, 0xBF, by decide, ?_, by omega, by omega⟩
  rw [show v / 4096 % 16 + 0xE0 - 0xE0 = v / 4096 by omega]

theorem first_four {v : Nat} (hlow : 0x10000 ≤ v) (hhigh : v < 0x110000) :
    ∃ low high hge, first (v / 262144 % 8 + 0xF0) = ([], some ⟨v / 262144, 3, low, high, hge⟩) ∧
      low ≤ v / 4096 % 64 + 0x80 ∧ v / 4096 % 64 + 0x80 ≤ high := by
  unfold first
  rw [if_neg (by omega), if_neg (by omega), if_neg (by omega), if_neg (by omega), if_neg (by omega)]
  by_cases hf0 : v / 262144 = 0
  · refine ⟨0x90, 0xBF, by decide, ?_, by omega, by omega⟩
    rw [if_pos (by omega), hf0]
  rw [if_neg (by omega)]
  by_cases hf4 : v / 262144 = 4
  · refine ⟨0x80, 0x8F, by decide, ?_, by omega, by omega⟩
    rw [if_pos (by omega), hf4]
  rw [if_neg (by omega), if_pos (by omega)]
  refine ⟨0x80, 0xBF, by decide, ?_, by omega, by omega⟩
  rw [show v / 262144 % 8 + 0xF0 - 0xF0 = v / 262144 by omega]

theorem lossy_encodeChar (c : Char) (rest : List UInt8) :
    lossy (String.utf8EncodeChar c ++ rest) = c :: lossy rest := by
  have hvalid : c.val.toNat < 0xD800 ∨ 0xDFFF < c.val.toNat ∧ c.val.toNat < 0x110000 := c.valid
  have hchar : Char.ofNat c.val.toNat = c := c.ofNat_toNat
  show lossyFrom none (String.utf8EncodeChar c ++ rest) = _
  unfold String.utf8EncodeChar
  generalize c.val.toNat = v at hvalid hchar ⊢
  dsimp only
  by_cases h1 : v ≤ 0x7f
  · rw [if_pos h1, List.singleton_append, lossyFrom_cons none v (by omega)]
    have hfirst : first v = ([Char.ofNat v], none) := if_pos (by omega)
    rw [step, hfirst, hchar]
    rfl
  rw [if_neg h1]
  by_cases h2 : v ≤ 0x7ff
  · rw [if_pos h2, List.cons_append, List.singleton_append, lossyFrom_cons _ _ (by omega)]
    have hfirst : first (v / 64 % 32 + 0xC0) = ([], some ⟨v / 64, 1, 0x80, 0xBF, by decide⟩) := by
      unfold first
      rw [if_neg (by omega), if_pos (by omega), show v / 64 % 32 + 0xC0 - 0xC0 = v / 64 by omega]
    rw [step, hfirst, List.nil_append, lossyFrom_cons _ _ (by omega), step_last (by omega) (by omega)]
    rw [show v / 64 * 64 + (v % 64 + 0x80 - 0x80) = v by omega, hchar]
    rfl
  rw [if_neg h2]
  by_cases h3 : v ≤ 0xffff
  · rw [if_pos h3, List.cons_append, List.cons_append, List.singleton_append, lossyFrom_cons _ _ (by omega)]
    obtain ⟨low, high, hge, hfirst, hlow, hhigh⟩ := first_three (by omega) h3 (hvalid.imp id And.left)
    rw [step, hfirst, List.nil_append, lossyFrom_cons _ _ (by omega), step_goesOn hlow hhigh (by omega),
      List.nil_append, lossyFrom_cons _ _ (by omega), step_last (by omega) (by omega)]
    rw [show (v / 4096 * 64 + (v / 64 % 64 + 0x80 - 0x80)) * 64 + (v % 64 + 0x80 - 0x80) = v by omega, hchar]
    rfl
  · rw [if_neg h3, List.cons_append, List.cons_append, List.cons_append, List.singleton_append,
      lossyFrom_cons _ _ (by omega)]
    obtain ⟨low, high, hge, hfirst, hlow, hhigh⟩ := first_four (v := v) (by omega) (by omega)
    rw [step, hfirst, List.nil_append, lossyFrom_cons _ _ (by omega), step_goesOn hlow hhigh (by omega),
      List.nil_append, lossyFrom_cons _ _ (by omega), step_goesOn (by omega) (by omega) (by omega),
      List.nil_append, lossyFrom_cons _ _ (by omega), step_last (by omega) (by omega)]
    rw [show ((v / 262144 * 64 + (v / 4096 % 64 + 0x80 - 0x80)) * 64 + (v / 64 % 64 + 0x80 - 0x80)) * 64 +
      (v % 64 + 0x80 - 0x80) = v by omega, hchar]
    rfl

/-- A text is read back, whatever follows it. -/
theorem lossy_encode (text : List Char) (rest : List UInt8) :
    lossy (encode text ++ rest) = text ++ lossy rest := by
  induction text with
  | nil => rfl
  | cons c text ih => rw [encode_cons, List.append_assoc, lossy_encodeChar, ih, List.cons_append]

/-! ## Line feeds -/

/-- A line feed ends a sequence cut off before it. -/
theorem lossyFrom_lineFeed (s : State) (a b : List UInt8) :
    lossyFrom s (a ++ lineFeed :: b) = lossyFrom s a ++ '\n' :: lossy b := by
  induction a generalizing s with
  | nil =>
    show (step s 0x0A).1 ++ lossyFrom (step s 0x0A).2 b = close s ++ '\n' :: lossyFrom none b
    cases s with
    | none => rfl
    | some o =>
      have hlow := o.low_goesOn
      rw [step, if_neg (by omega)]
      rfl
  | cons c a ih =>
    show (step s c.toNat).1 ++ lossyFrom _ (a ++ lineFeed :: b) = (step s c.toNat).1 ++ lossyFrom _ a ++ _
    rw [ih, List.append_assoc]

/-! ## How much is read -/

/-- What a sequence on its way may still become. -/
def State.owes : State → Nat
  | none => 0
  | some _ => 1

theorem length_first_le (b : Nat) : (first b).1.length + (first b).2.owes ≤ 1 := by
  unfold first
  repeat' split
  all_goals exact Nat.le_refl 1

theorem length_step_le (s : State) (b : Nat) : (step s b).1.length + (step s b).2.owes ≤ s.owes + 1 := by
  cases s with
  | none => exact Nat.le_trans (length_first_le b) (Nat.le_add_left 1 _)
  | some o =>
    have hfirst := length_first_le b
    rw [step]
    split
    · split
      · exact Nat.le_succ 1
      · exact Nat.le_succ 1
    · show (first b).1.length + 1 + (first b).2.owes ≤ 1 + 1
      omega

/-- No more characters than bytes are read. -/
theorem length_lossyFrom_le (s : State) (bytes : List UInt8) : (lossyFrom s bytes).length ≤ s.owes + bytes.length := by
  induction bytes generalizing s with
  | nil => cases s <;> exact Nat.le_refl _
  | cons b bytes ih =>
    have hstep := length_step_le s b.toNat
    have hrest := ih (step s b.toNat).2
    show ((step s b.toNat).1 ++ lossyFrom (step s b.toNat).2 bytes).length ≤ _
    rw [List.length_append, List.length_cons]
    omega

end Utf8

end Weft
