import Mathlib.Data.Nat.Digits.Lemmas
import Mathlib.Data.List.Basic

/-!
# Words in bytes

Numbers written in a fixed number of bytes, the lowest first, and read from
where they stand in some data. A `layout` writes the fields of a record one
after the other; each is read back at the widths before it (`wordAt_layout`).
-/

namespace Weft

/-- The number some bytes stand for, the lowest first. -/
def leValue (bytes : List UInt8) : Nat := Nat.ofDigits 256 (bytes.map UInt8.toNat)

/-- The number some bytes stand for, the highest first. -/
def beValue (bytes : List UInt8) : Nat := leValue bytes.reverse

/-- The lowest `width` bytes of a number, the lowest first. -/
def leBytes : Nat → Nat → List UInt8
  | 0, _ => []
  | width + 1, n => UInt8.ofNat (n % 256) :: leBytes width (n / 256)

@[simp] theorem length_leBytes (width n : Nat) : (leBytes width n).length = width := by
  induction width generalizing n with
  | zero => rfl
  | succ width ih => rw [leBytes, List.length_cons, ih]

theorem leValue_leBytes {width n : Nat} (h : n < 256 ^ width) : leValue (leBytes width n) = n := by
  induction width generalizing n with
  | zero =>
    have hn : n = 0 := by omega
    rw [hn]
    rfl
  | succ width ih =>
    have hrest : n / 256 < 256 ^ width := by
      rw [Nat.div_lt_iff_lt_mul (by decide), ← Nat.pow_succ]
      exact h
    have hlow : (UInt8.ofNat (n % 256)).toNat = n % 256 := UInt8.toNat_ofNat_of_lt' (Nat.mod_lt n (by decide))
    have hread := ih hrest
    rw [leValue] at hread ⊢
    rw [leBytes, List.map_cons, Nat.ofDigits_cons, hread, hlow]
    exact Nat.mod_add_div n 256

theorem leValue_lt (bytes : List UInt8) : leValue bytes < 256 ^ bytes.length := by
  have hlt := Nat.ofDigits_lt_base_pow_length (b := 256) (by decide) (l := bytes.map UInt8.toNat) fun d hd => by
    obtain ⟨byte, _, rfl⟩ := List.mem_map.mp hd
    exact byte.toNat_lt
  rwa [List.length_map] at hlt

/-- `data.get(first..stop)`. -/
def getSlice {α : Type*} (data : List α) (first stop : Nat) : Option (List α) :=
  if first ≤ stop ∧ stop ≤ data.length then some (data.extract first stop) else none

theorem getSlice_eq_some {α : Type*} {data part : List α} {first stop : Nat} :
    getSlice data first stop = some part ↔ first ≤ stop ∧ stop ≤ data.length ∧ part = data.extract first stop := by
  unfold getSlice
  split
  · rename_i h
    rw [Option.some_inj, eq_comm]
    exact ⟨fun hpart => ⟨h.1, h.2, hpart⟩, fun hpart => hpart.2.2⟩
  · rename_i h
    constructor
    · intro hpart
      cases hpart
    · rintro ⟨hle, hin, _⟩
      exact absurd ⟨hle, hin⟩ h

/-- The word of `width` bytes at a place, the lowest first. -/
def wordAt (width : Nat) (data : List UInt8) (pos : Nat) : Option Nat :=
  (getSlice data pos (pos + width)).map leValue

theorem wordAt_lt {width pos n : Nat} {data : List UInt8} (h : wordAt width data pos = some n) :
    n < 256 ^ width ∧ pos + width ≤ data.length := by
  obtain ⟨bytes, hbytes, rfl⟩ := Option.map_eq_some_iff.mp h
  obtain ⟨_, hin, rfl⟩ := getSlice_eq_some.mp hbytes
  refine ⟨Nat.lt_of_lt_of_eq (leValue_lt _) ?_, hin⟩
  rw [List.extract_eq_take_drop, List.length_take, List.length_drop]
  congr 1
  omega

/-! ## What stands at a place -/

section

variable {α : Type*} {data front rest : List α} {pos : Nat}

theorem drop_behind (h : data.drop pos = front ++ rest) : data.drop (pos + front.length) = rest := by
  rw [← List.drop_drop, h, List.drop_left]

theorem extract_front (h : data.drop pos = front ++ rest) : data.extract pos (pos + front.length) = front := by
  rw [List.extract_eq_take_drop, h, Nat.add_sub_cancel_left, List.take_left]

theorem length_at (h : data.drop pos = front ++ rest) (hpos : pos ≤ data.length) :
    pos + front.length ≤ data.length := by
  have hlen := congrArg List.length h
  rw [List.length_drop, List.length_append] at hlen
  omega

theorem length_extract {first stop : Nat} (hin : stop ≤ data.length) :
    (data.extract first stop).length = stop - first := by
  rw [List.extract_eq_take_drop, List.length_take, List.length_drop]
  omega

theorem drop_eq_extract_append {first stop : Nat} (h : first ≤ stop) :
    data.drop first = data.extract first stop ++ data.drop stop := by
  rw [List.extract_eq_take_drop, ← Nat.add_sub_cancel' h, ← List.drop_drop, Nat.add_sub_cancel_left, List.take_append_drop]

theorem lt_of_drop (h : data.drop pos = front ++ rest) (hne : front ≠ []) : pos < data.length := by
  have hlen := congrArg List.length h
  rw [List.length_drop, List.length_append] at hlen
  have := List.length_pos_of_ne_nil hne
  omega

theorem getSlice_at (h : data.drop pos = front ++ rest) (hpos : pos ≤ data.length) :
    getSlice data pos (pos + front.length) = some front :=
  getSlice_eq_some.mpr ⟨Nat.le_add_right _ _, length_at h hpos, (extract_front h).symm⟩

end

theorem wordAt_at {width n pos : Nat} {data rest : List UInt8} (hn : n < 256 ^ width)
    (h : data.drop pos = leBytes width n ++ rest) (hpos : pos ≤ data.length) : wordAt width data pos = some n := by
  have hget := getSlice_at h hpos
  rw [length_leBytes] at hget
  rw [wordAt, hget, Option.map_some, leValue_leBytes hn]

/-- A word within what stands at a place is one of the data. -/
theorem wordAt_front {width offset pos : Nat} {data front rest : List UInt8} (h : data.drop pos = front ++ rest)
    (hpos : pos ≤ data.length) (hin : offset + width ≤ front.length) :
    wordAt width data (pos + offset) = wordAt width front offset := by
  have hlen := length_at h hpos
  have hsame : data.extract (pos + offset) (pos + offset + width) = front.extract offset (offset + width) := by
    have hdrop : offset ≤ front.length := by omega
    rw [List.extract_eq_take_drop, List.extract_eq_take_drop, ← List.drop_drop, h, List.drop_append_of_le_length hdrop,
      Nat.add_sub_cancel_left, Nat.add_sub_cancel_left, List.take_append_of_le_length]
    rw [List.length_drop]
    omega
  rw [wordAt, wordAt, getSlice, getSlice, if_pos ⟨Nat.le_add_right _ _, by omega⟩,
    if_pos ⟨Nat.le_add_right _ _, hin⟩, hsame]

theorem wordAt_drop (width : Nat) (data : List UInt8) {front : Nat} (hfront : front ≤ data.length) (pos : Nat) :
    wordAt width (data.drop front) pos = wordAt width data (front + pos) := by
  have hsame : (data.drop front).extract pos (pos + width) = data.extract (front + pos) (front + pos + width) := by
    rw [List.extract_eq_take_drop, List.extract_eq_take_drop, List.drop_drop, Nat.add_sub_cancel_left,
      Nat.add_sub_cancel_left]
  have hin : (pos ≤ pos + width ∧ pos + width ≤ (data.drop front).length) ↔
      (front + pos ≤ front + pos + width ∧ front + pos + width ≤ data.length) := by
    rw [List.length_drop]
    omega
  rw [wordAt, wordAt, getSlice, getSlice, hsame]
  by_cases h : front + pos ≤ front + pos + width ∧ front + pos + width ≤ data.length
  · rw [if_pos h, if_pos (hin.mpr h)]
  · rw [if_neg h, if_neg fun hdrop => h (hin.mp hdrop)]

/-! ## Records -/

/-- Fields, each its width and value, one after the other. -/
def layout : List (Nat × Nat) → List UInt8
  | [] => []
  | field :: fields => leBytes field.1 field.2 ++ layout fields

/-- The bytes some fields take. -/
def widths : List (Nat × Nat) → Nat
  | [] => 0
  | field :: fields => field.1 + widths fields

@[simp] theorem length_layout (fields : List (Nat × Nat)) : (layout fields).length = widths fields := by
  induction fields with
  | nil => rfl
  | cons field fields ih => rw [layout, List.length_append, length_leBytes, ih, widths]

/-- A field is read behind the fields before it. -/
theorem wordAt_layout {fields : List (Nat × Nat)} {i width n offset pos : Nat} {data rest : List UInt8}
    (h : data.drop pos = layout fields ++ rest) (hpos : pos ≤ data.length)
    (hget : fields[i]? = some (width, n)) (hoffset : widths (fields.take i) = offset) (hn : n < 256 ^ width) :
    wordAt width data (pos + offset) = some n := by
  induction fields generalizing i offset pos with
  | nil => simp at hget
  | cons field fields ih =>
    rw [layout, List.append_assoc] at h
    cases i with
    | zero =>
      rw [List.getElem?_cons_zero, Option.some_inj] at hget
      subst hget
      subst hoffset
      exact wordAt_at hn h hpos
    | succ i =>
      have hback := drop_behind h
      have hin := length_at h hpos
      rw [length_leBytes] at hback hin
      have hread := ih hback hin hget rfl
      rw [← hoffset, List.take_succ_cons, widths, ← Nat.add_assoc]
      exact hread

end Weft
