import Mathlib.Tactic

/-!
# Parts laid end to end

Where the parts of a list of lists end in their concatenation, and the part that holds a
position, found by a binary search over the ends.
-/

namespace Weft

variable {α : Type*}

/-- Where each part ends when the first one begins at `start`. -/
def endsFrom : ℕ → List (List α) → List ℕ
  | _, [] => []
  | start, part :: parts => (start + part.length) :: endsFrom (start + part.length) parts

theorem length_endsFrom (start : ℕ) (parts : List (List α)) : (endsFrom start parts).length = parts.length := by
  induction parts generalizing start with
  | nil => rfl
  | cons part parts ih => simp [endsFrom, ih]

theorem endsFrom_drop (i start : ℕ) (parts : List (List α)) :
    (endsFrom start parts).drop i = endsFrom (start + (parts.take i).flatten.length) (parts.drop i) := by
  induction i generalizing start parts with
  | zero => simp
  | succ i ih =>
    cases parts with
    | nil => simp [endsFrom]
    | cons part parts =>
      simp only [endsFrom, List.drop_succ_cons, List.take_succ_cons, List.flatten_cons, List.length_append]
      rw [ih, Nat.add_assoc]

theorem endsFrom_getElem? (i start : ℕ) (parts : List (List α)) :
    (start :: endsFrom start parts)[i]? = if i ≤ parts.length then some (start + (parts.take i).flatten.length) else none := by
  induction i generalizing start parts with
  | zero => simp
  | succ i ih =>
    cases parts with
    | nil => simp [endsFrom]
    | cons part parts =>
      rw [List.getElem?_cons_succ, endsFrom, ih]
      simp [Nat.add_assoc]

theorem le_of_mem_endsFrom {start e : ℕ} {parts : List (List α)} (h : e ∈ endsFrom start parts) : start ≤ e := by
  induction parts generalizing start with
  | nil => cases h
  | cons part parts ih =>
    rcases List.mem_cons.mp h with rfl | h
    · exact Nat.le_add_right start part.length
    · exact (Nat.le_add_right start part.length).trans (ih h)

theorem endsFrom_pairwise (start : ℕ) (parts : List (List α)) : (endsFrom start parts).Pairwise (· ≤ ·) := by
  induction parts generalizing start with
  | nil => exact List.Pairwise.nil
  | cons part parts ih => exact List.pairwise_cons.mpr ⟨fun e he => le_of_mem_endsFrom he, ih _⟩

/-- A search in a sorted list that may answer with any place of what it looks for, or with the
one place where it would stand. -/
structure BinarySearch where
  search : List ℕ → ℕ → Except ℕ ℕ
  found : ∀ {xs x i}, xs.Pairwise (· ≤ ·) → search xs x = .ok i → xs[i]? = some x
  missing : ∀ {xs x i}, xs.Pairwise (· ≤ ·) → search xs x = .error i →
    i ≤ xs.length ∧ ∀ j y, xs[j]? = some y → (j < i → y < x) ∧ (i ≤ j → x < y)

namespace BinarySearch

/-- The place after what is found, or where it would stand. -/
def after (b : BinarySearch) (xs : List ℕ) (x : ℕ) : ℕ :=
  match b.search xs x with
  | .ok i => i + 1
  | .error i => i

theorem after_spec (b : BinarySearch) {xs : List ℕ} (hsorted : xs.Pairwise (· ≤ ·)) (x : ℕ) :
    b.after xs x ≤ xs.length ∧ ∀ j y, xs[j]? = some y → (j < b.after xs x → y ≤ x) ∧ (b.after xs x ≤ j → x ≤ y) := by
  unfold after
  cases hsearch : b.search xs x with
  | ok i =>
    have hi := b.found hsorted hsearch
    obtain ⟨hlt, hget⟩ := List.getElem?_eq_some_iff.mp hi
    refine ⟨hlt, ?_⟩
    intro j y hj
    obtain ⟨hjlt, hjget⟩ := List.getElem?_eq_some_iff.mp hj
    have hle := List.pairwise_iff_getElem.mp hsorted
    constructor
    · intro hji
      rcases Nat.lt_or_eq_of_le (Nat.le_of_lt_succ hji) with hji | rfl
      · rw [← hjget, ← hget]
        exact hle j i hjlt hlt hji
      · exact (hjget.symm.trans hget).le
    · intro hij
      rw [← hjget, ← hget]
      exact hle i j hlt hjlt hij
  | error i =>
    obtain ⟨hi, hall⟩ := b.missing hsorted hsearch
    exact ⟨hi, fun j y hj => ⟨fun h => ((hall j y hj).1 h).le, fun h => ((hall j y hj).2 h).le⟩⟩

/-- Looked for from the front. -/
def fromFront : BinarySearch where
  search xs x := if xs[xs.findIdx (x ≤ ·)]? = some x then .ok (xs.findIdx (x ≤ ·)) else .error (xs.findIdx (x ≤ ·))
  found := by
    intro xs x i _ h
    split at h
    · rename_i hget
      cases h
      exact hget
    · cases h
  missing := by
    intro xs x i hsorted h
    split at h
    · cases h
    · rename_i hget
      cases h
      refine ⟨List.findIdx_le_length, ?_⟩
      intro j y hj
      obtain ⟨hjlt, rfl⟩ := List.getElem?_eq_some_iff.mp hj
      constructor
      · intro hbefore
        simpa using List.not_of_lt_findIdx hbefore
      · intro hafter
        have hlt : xs.findIdx (x ≤ ·) < xs.length := hafter.trans_lt hjlt
        have hstop : x ≤ xs[xs.findIdx (x ≤ ·)] := by simpa using List.findIdx_getElem (w := hlt)
        have hne : x ≠ xs[xs.findIdx (x ≤ ·)] := by
          intro heq
          exact hget (List.getElem?_eq_some_iff.mpr ⟨hlt, heq.symm⟩)
        refine (lt_of_le_of_ne hstop hne).trans_le ?_
        rcases Nat.lt_or_eq_of_le hafter with hafter | hafter
        · exact List.pairwise_iff_getElem.mp hsorted _ j hlt hjlt hafter
        · exact (getElem_congr_idx hafter).le

/-- The part that holds the position: it begins at or before it, and does not end before it. -/
theorem after_part (b : BinarySearch) {parts : List (List α)} {x : ℕ} (hx : x < parts.flatten.length) :
    b.after (endsFrom 0 parts) x < parts.length ∧ (parts.take (b.after (endsFrom 0 parts) x)).flatten.length ≤ x ∧
      ∀ part, (parts.drop (b.after (endsFrom 0 parts) x)).head? = some part →
        x ≤ (parts.take (b.after (endsFrom 0 parts) x)).flatten.length + part.length := by
  obtain ⟨hle, hall⟩ := b.after_spec (endsFrom_pairwise 0 parts) x
  generalize b.after (endsFrom 0 parts) x = i at hle hall ⊢
  rw [length_endsFrom] at hle
  have hbegin : (parts.take i).flatten.length ≤ x := by
    cases i with
    | zero => exact Nat.zero_le x
    | succ i =>
      refine (hall i _ ?_).1 (Nat.lt_succ_self i)
      have hget := endsFrom_getElem? (i + 1) 0 parts
      rwa [List.getElem?_cons_succ, if_pos hle, Nat.zero_add] at hget
  have hlt : i < parts.length := by
    refine lt_of_le_of_ne hle ?_
    rintro rfl
    rw [List.take_length] at hbegin
    omega
  refine ⟨hlt, hbegin, ?_⟩
  intro part hpart
  rw [List.head?_drop, List.getElem?_eq_getElem hlt, Option.some.injEq] at hpart
  have hget := endsFrom_getElem? (i + 1) 0 parts
  rw [List.getElem?_cons_succ, if_pos (Nat.succ_le_of_lt hlt), Nat.zero_add] at hget
  have hend := (hall i _ hget).2 le_rfl
  rwa [← List.take_append_getElem hlt, hpart, List.flatten_append, List.flatten_singleton, List.length_append] at hend

end BinarySearch

end Weft
