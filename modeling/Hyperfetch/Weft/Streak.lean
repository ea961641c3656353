import Mathlib.Data.List.Basic

/-!
# Counting in a row

A history, newest first, some of whose events count and some of which start
the count again. `streak` is the count a program keeps; `Exceeded` says what
it is kept for: that somewhere in the history more than `limit` events counted
with none between them that starts again.
-/

namespace Weft

universe u

variable {α : Type u} (counts resets : α → Bool)

/-- How many events counted since the last that starts again. -/
def streak : List α → Nat
  | [] => 0
  | a :: older => if resets a then 0 else streak older + if counts a then 1 else 0

/-- More than `limit` events counted in a row. -/
def Exceeded (limit : Nat) (history : List α) : Prop :=
  ∃ newer row older, history = newer ++ row ++ older ∧ limit < row.countP counts ∧ ∀ a ∈ row, resets a = false

variable {counts resets}

theorem streak_reset {a : α} {older : List α} (h : resets a = true) : streak counts resets (a :: older) = 0 := by
  simp [streak, h]

theorem streak_count {a : α} {older : List α} (h : resets a = false) :
    streak counts resets (a :: older) = streak counts resets older + if counts a then 1 else 0 := by
  simp [streak, h]

/-- The streak counts any row that ends the history. -/
theorem countP_le_streak {row older : List α} (h : ∀ a ∈ row, resets a = false) :
    row.countP counts ≤ streak counts resets (row ++ older) := by
  induction row with
  | nil => exact Nat.zero_le _
  | cons a row ih =>
    have hrow := ih fun b hb => h b (List.mem_cons_of_mem _ hb)
    rw [List.cons_append, streak_count (h a List.mem_cons_self), List.countP_cons]
    exact Nat.add_le_add_right hrow _

/-- And it is the count of such a row. -/
theorem exists_row (history : List α) : ∃ row older, history = row ++ older ∧
    (∀ a ∈ row, resets a = false) ∧ row.countP counts = streak counts resets history := by
  induction history with
  | nil => exact ⟨[], [], rfl, by simp, rfl⟩
  | cons a history ih =>
    cases hreset : resets a with
    | true => exact ⟨[], a :: history, rfl, by simp, (streak_reset hreset).symm⟩
    | false =>
      obtain ⟨row, older, rfl, hrow, hcount⟩ := ih
      refine ⟨a :: row, older, rfl, ?_, ?_⟩
      · intro b hb
        rcases List.mem_cons.mp hb with rfl | hb
        · exact hreset
        · exact hrow b hb
      · rw [List.countP_cons, hcount, streak_count hreset]

theorem exceeded_of_streak {limit : Nat} {history : List α} (h : limit < streak counts resets history) :
    Exceeded counts resets limit history := by
  obtain ⟨row, older, heq, hrow, hcount⟩ := @exists_row _ counts resets history
  exact ⟨[], row, older, heq, hcount ▸ h, hrow⟩

theorem not_exceeded_nil (limit : Nat) : ¬ Exceeded counts resets limit [] := by
  rintro ⟨newer, row, older, heq, hlt, _⟩
  have hrow : row = [] := by
    rcases List.append_eq_nil_iff.mp heq.symm with ⟨h, _⟩
    exact (List.append_eq_nil_iff.mp h).2
  subst hrow
  exact absurd hlt (Nat.not_lt_zero _)

/-- One more event exceeds the limit only by the streak it makes. -/
theorem exceeded_cons {limit : Nat} {a : α} {history : List α} :
    Exceeded counts resets limit (a :: history) ↔
      Exceeded counts resets limit history ∨ limit < streak counts resets (a :: history) := by
  constructor
  · rintro ⟨newer, row, older, heq, hlt, hrow⟩
    cases newer with
    | nil =>
      right
      rw [List.nil_append] at heq
      rw [heq]
      exact Nat.lt_of_lt_of_le hlt (countP_le_streak hrow)
    | cons b newer =>
      rw [List.cons_append, List.cons_append, List.cons.injEq] at heq
      exact .inl ⟨newer, row, older, heq.2, hlt, hrow⟩
  · rintro (⟨newer, row, older, heq, hlt, hrow⟩ | hlt)
    · refine ⟨a :: newer, row, older, ?_, hlt, hrow⟩
      rw [heq]
      rfl
    · exact exceeded_of_streak hlt

end Weft
