import Mathlib.Data.List.Basic

/-!
# The fields of a text

What small parsers are made of: a text cut at the first separator or at every
one, and decimal numbers as they are written.
-/

namespace Weft

section Split

variable {α : Type*} [DecidableEq α]

/-- What stands before and after the first `sep`. -/
def splitOnce (sep : α) : List α → Option (List α × List α)
  | [] => none
  | a :: rest => if a = sep then some ([], rest) else (splitOnce sep rest).map fun p => (a :: p.1, p.2)

theorem splitOnce_eq_some {sep : α} {text front back : List α} :
    splitOnce sep text = some (front, back) ↔ text = front ++ sep :: back ∧ sep ∉ front := by
  induction text generalizing front with
  | nil => simp [splitOnce]
  | cons a rest ih =>
    unfold splitOnce
    split
    · rename_i ha
      subst ha
      constructor
      · intro h
        cases h
        simp
      · rintro ⟨heq, hnot⟩
        cases front with
        | nil =>
          cases heq
          rfl
        | cons b front =>
          cases heq
          exact absurd List.mem_cons_self hnot
    · rename_i ha
      constructor
      · intro h
        obtain ⟨⟨f, b⟩, hsplit, hp⟩ := Option.map_eq_some_iff.mp h
        cases hp
        obtain ⟨rfl, hnot⟩ := ih.mp hsplit
        exact ⟨rfl, by simp [hnot, Ne.symm ha]⟩
      · rintro ⟨heq, hnot⟩
        cases front with
        | nil =>
          cases heq
          exact absurd rfl ha
        | cons b front =>
          cases heq
          rw [ih.mpr ⟨rfl, fun hin => hnot (List.mem_cons_of_mem _ hin)⟩]
          rfl

/-- Without a separator there is nothing to cut. -/
theorem splitOnce_eq_none {sep : α} {text : List α} : splitOnce sep text = none ↔ sep ∉ text := by
  induction text with
  | nil => simp [splitOnce]
  | cons a rest ih =>
    unfold splitOnce
    split
    · rename_i ha
      simp [ha]
    · rename_i ha
      rw [Option.map_eq_none_iff, ih, List.mem_cons, not_or]
      exact ⟨fun h => ⟨Ne.symm ha, h⟩, fun h => h.2⟩

/-- What stands before and after the last `sep`. -/
def rsplitOnce (sep : α) (text : List α) : Option (List α × List α) :=
  (splitOnce sep text.reverse).map fun p => (p.2.reverse, p.1.reverse)

theorem rsplitOnce_eq_some {sep : α} {text front back : List α} :
    rsplitOnce sep text = some (front, back) ↔ text = front ++ sep :: back ∧ sep ∉ back := by
  unfold rsplitOnce
  rw [Option.map_eq_some_iff]
  constructor
  · rintro ⟨⟨b, f⟩, hcut, hp⟩
    cases hp
    obtain ⟨heq, hnot⟩ := splitOnce_eq_some.mp hcut
    refine ⟨?_, fun hin => hnot (List.mem_reverse.mp hin)⟩
    rw [← List.reverse_reverse text, heq]
    simp
  · rintro ⟨heq, hnot⟩
    refine ⟨(back.reverse, front.reverse), splitOnce_eq_some.mpr ⟨?_, fun hin => hnot (List.mem_reverse.mp hin)⟩, ?_⟩
    · rw [heq]
      simp
    · simp

theorem rsplitOnce_eq_none {sep : α} {text : List α} : rsplitOnce sep text = none ↔ sep ∉ text := by
  unfold rsplitOnce
  rw [Option.map_eq_none_iff, splitOnce_eq_none, List.mem_reverse]

/-! A text cut at every separator (`List.splitOn`), and joined again. -/

theorem mem_splitOn {sep : α} {text part : List α} (h : part ∈ text.splitOn sep) : sep ∉ part := by
  induction text generalizing part with
  | nil =>
    rw [List.splitOn_nil, List.mem_singleton] at h
    subst h
    exact List.not_mem_nil
  | cons c text ih =>
    rw [List.splitOn_cons_eq_if_modifyHead] at h
    split at h
    · rcases List.mem_cons.mp h with rfl | h
      · exact List.not_mem_nil
      · exact ih h
    · rename_i hc
      cases hcut : text.splitOn sep with
      | nil => exact absurd hcut (List.splitOn_ne_nil sep text)
      | cons head more =>
        rw [hcut, List.modifyHead_cons] at h
        rw [hcut] at ih
        rcases List.mem_cons.mp h with rfl | h
        · intro hin
          rcases List.mem_cons.mp hin with heq | hin
          · exact hc (beq_iff_eq.mpr heq.symm)
          · exact ih List.mem_cons_self hin
        · exact ih (List.mem_cons_of_mem _ h)

theorem length_splitOn_le {sep : α} {text part : List α} (h : part ∈ text.splitOn sep) : part.length ≤ text.length := by
  induction text generalizing part with
  | nil =>
    rw [List.splitOn_nil, List.mem_singleton] at h
    exact Nat.le_of_eq (congrArg List.length h)
  | cons c text ih =>
    rw [List.splitOn_cons_eq_if_modifyHead] at h
    split at h
    · rcases List.mem_cons.mp h with rfl | h
      · exact Nat.zero_le _
      · exact Nat.le_succ_of_le (ih h)
    · cases hcut : text.splitOn sep with
      | nil => exact absurd hcut (List.splitOn_ne_nil sep text)
      | cons head more =>
        rw [hcut, List.modifyHead_cons] at h
        rw [hcut] at ih
        rcases List.mem_cons.mp h with rfl | h
        · exact Nat.succ_le_succ (ih List.mem_cons_self)
        · exact Nat.le_succ_of_le (ih (List.mem_cons_of_mem _ h))

omit [DecidableEq α] in
theorem mem_intercalate {sep c : α} {parts : List (List α)} (h : c ∈ [sep].intercalate parts) :
    c = sep ∨ ∃ part ∈ parts, c ∈ part := by
  induction parts with
  | nil => exact absurd h List.not_mem_nil
  | cons part parts ih =>
    cases parts with
    | nil =>
      rw [List.intercalate_singleton] at h
      exact Or.inr ⟨part, List.mem_cons_self, h⟩
    | cons next parts =>
      rw [List.intercalate_cons_cons, List.mem_append, List.mem_append] at h
      rcases h with (h | h) | h
      · exact Or.inr ⟨part, List.mem_cons_self, h⟩
      · exact Or.inl (List.mem_singleton.mp h)
      · rcases ih h with h | ⟨found, hfound, hc⟩
        · exact Or.inl h
        · exact Or.inr ⟨found, List.mem_cons_of_mem _ hfound, hc⟩

omit [DecidableEq α] in
theorem mem_intercalate_of_mem {sep c : α} {part : List α} {parts : List (List α)} (hpart : part ∈ parts) (hc : c ∈ part) :
    c ∈ [sep].intercalate parts := by
  induction parts with
  | nil => exact absurd hpart List.not_mem_nil
  | cons head parts ih =>
    cases parts with
    | nil =>
      rw [List.intercalate_singleton]
      exact List.mem_singleton.mp hpart ▸ hc
    | cons next parts =>
      rw [List.intercalate_cons_cons, List.mem_append, List.mem_append]
      rcases List.mem_cons.mp hpart with rfl | hpart
      · exact Or.inl (Or.inl hc)
      · exact Or.inr (ih hpart)

/-- What stands in a part stands in the text. -/
theorem mem_of_mem_splitOn {sep c : α} {text part : List α} (hpart : part ∈ text.splitOn sep) (hc : c ∈ part) :
    c ∈ text := by
  have hjoined : [sep].intercalate (text.splitOn sep) = text := List.intercalate_splitOn sep
  rw [← hjoined]
  exact mem_intercalate_of_mem hpart hc

/-- Lines that all end in `sep` and hold no other are told apart. -/
theorem flatMap_ended_inj {β γ : Type*} {sep : α} {f : β → List α} {g : γ → List α} (hf : ∀ x, sep ∉ f x)
    (hg : ∀ y, sep ∉ g y) {xs : List β} {ys : List γ} :
    xs.flatMap (fun x => f x ++ [sep]) = ys.flatMap (fun y => g y ++ [sep]) ↔ xs.map f = ys.map g := by
  constructor
  · intro h
    induction xs generalizing ys with
    | nil =>
      cases ys with
      | nil => rfl
      | cons y ys => simp at h
    | cons x xs ih =>
      cases ys with
      | nil => simp at h
      | cons y ys =>
        simp only [List.flatMap_cons, List.append_assoc, List.singleton_append] at h
        have hcut := splitOnce_eq_some.mpr (⟨rfl, hf x⟩ : _ = f x ++ sep :: xs.flatMap (fun x => f x ++ [sep]) ∧ _)
        rw [h, splitOnce_eq_some.mpr ⟨rfl, hg y⟩] at hcut
        obtain ⟨hfirst, hrest⟩ := Prod.mk.inj (Option.some.inj hcut)
        rw [List.map_cons, List.map_cons, hfirst, ih hrest.symm]
  · intro h
    have hx : xs.flatMap (fun x => f x ++ [sep]) = (xs.map f).flatMap (· ++ [sep]) := by rw [List.flatMap_map]
    have hy : ys.flatMap (fun y => g y ++ [sep]) = (ys.map g).flatMap (· ++ [sep]) := by rw [List.flatMap_map]
    rw [hx, hy, h]

end Split

/-- The number some digits stand for. -/
def decimalValue (digits : List Char) : Nat := digits.foldl (fun n c => 10 * n + (c.toNat - 48)) 0

/-- `digits` is a way to write `n`, leading zeros allowed. -/
structure Decimal (digits : List Char) (n : Nat) : Prop where
  nonempty : digits ≠ []
  all : ∀ c ∈ digits, c.isDigit = true
  value : decimalValue digits = n

/-- A number of at most `top`, written in digits only. -/
def readDecimal (top : Nat) (text : List Char) : Option Nat :=
  if text.isEmpty || !text.all Char.isDigit then none
  else if decimalValue text ≤ top then some (decimalValue text)
  else none

theorem readDecimal_eq_some {top n : Nat} {text : List Char} :
    readDecimal top text = some n ↔ Decimal text n ∧ n ≤ top := by
  unfold readDecimal
  split
  · rename_i hbad
    simp only [Bool.or_eq_true, List.isEmpty_iff, Bool.not_eq_true', List.all_eq_false] at hbad
    constructor
    · intro h
      cases h
    · rintro ⟨hdec, _⟩
      rcases hbad with hnil | ⟨c, hc, hdigit⟩
      · exact absurd hnil hdec.nonempty
      · exact absurd (hdec.all c hc) hdigit
  · rename_i hgood
    simp only [Bool.or_eq_true, List.isEmpty_iff, Bool.not_eq_true', List.all_eq_false, not_or, not_exists,
      not_and, not_not] at hgood
    split
    · rename_i hle
      constructor
      · intro h
        cases h
        exact ⟨⟨hgood.1, hgood.2, rfl⟩, hle⟩
      · rintro ⟨hdec, _⟩
        rw [hdec.value]
    · rename_i hgt
      constructor
      · intro h
        cases h
      · rintro ⟨hdec, hle⟩
        exact absurd (hdec.value ▸ hle) hgt

/-- Every number is written. -/
theorem decimal_toDigits (n : Nat) : Decimal (Nat.toDigits 10 n) n where
  nonempty := Nat.toDigits_ne_nil
  all _ hc := Nat.isDigit_of_mem_toDigits (by decide) (by decide) hc
  value := by
    have hread : Nat.ofDigitChars 10 (Nat.toDigits 10 n) 0 = n := Nat.ofDigitChars_ten_toDigits
    rwa [Nat.ofDigitChars_eq_foldl] at hread

/-- A separator that is no digit stands in no number. -/
theorem Decimal.not_mem {digits : List Char} {n : Nat} (h : Decimal digits n) {sep : Char} (hsep : sep.isDigit = false) :
    sep ∉ digits := by
  intro hin
  have hdigit := h.all sep hin
  rw [hsep] at hdigit
  cases hdigit

end Weft
