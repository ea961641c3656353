import Mathlib.Order.Lattice
import Mathlib.Data.List.Basic

/-!
# An order cut at points

Points in order, each once (`dedupRuns` of what is sorted), and the stretches
between each and the next (`windows`). A value with a point at or before it and
a point behind it is in one stretch, and no point is within a stretch.
-/

namespace Weft

/-- Runs of equal members made one. -/
def dedupRuns {α : Type*} [DecidableEq α] : List α → List α
  | a :: b :: rest => if a = b then dedupRuns (b :: rest) else a :: dedupRuns (b :: rest)
  | all => all

/-- Each member and the one behind it. -/
def windows {α : Type*} (all : List α) : List (α × α) := all.zip all.tail

@[simp] theorem windows_cons_cons {α : Type*} (a b : α) (rest : List α) :
    windows (a :: b :: rest) = (a, b) :: windows (b :: rest) := rfl

theorem mem_dedupRuns {α : Type*} [DecidableEq α] {a : α} {all : List α} : a ∈ dedupRuns all ↔ a ∈ all := by
  fun_induction dedupRuns all with
  | case1 b rest ih =>
    rw [ih, List.mem_cons, List.mem_cons, List.mem_cons]
    tauto
  | case2 b c rest hne ih => rw [List.mem_cons, ih, ← List.mem_cons]
  | case3 all _ => exact Iff.rfl

theorem mem_of_mem_windows {α : Type*} {all : List α} {w : α × α} (h : w ∈ windows all) : w.1 ∈ all ∧ w.2 ∈ all := by
  obtain ⟨hfst, hsnd⟩ := List.of_mem_zip h
  exact ⟨hfst, List.mem_of_mem_tail hsnd⟩

variable {α : Type*} [LinearOrder α]

/-- What is sorted rises once its runs are made one. -/
theorem pairwise_dedupRuns {all : List α} (h : all.Pairwise (· ≤ ·)) : (dedupRuns all).Pairwise (· < ·) := by
  fun_induction dedupRuns all with
  | case1 b rest ih => exact ih h.of_cons
  | case2 a b rest hne ih =>
    refine List.pairwise_cons.mpr ⟨fun c hc => ?_, ih h.of_cons⟩
    have hab : a < b := lt_of_le_of_ne ((List.pairwise_cons.mp h).1 b List.mem_cons_self) hne
    rcases List.mem_cons.mp (mem_dedupRuns.mp hc) with rfl | hc
    · exact hab
    · exact lt_of_lt_of_le hab ((List.pairwise_cons.mp h.of_cons).1 c hc)
  | case3 all hshort =>
    cases all with
    | nil => exact .nil
    | cons a rest =>
      cases rest with
      | nil => exact List.pairwise_singleton _ a
      | cons b rest => exact absurd rfl (hshort a b rest)

section Rising

variable {all : List α} (h : all.Pairwise (· < ·))
include h

theorem lt_of_mem_windows {w : α × α} (hw : w ∈ windows all) : w.1 < w.2 := by
  induction all with
  | nil => cases hw
  | cons a rest ih =>
    cases rest with
    | nil => cases hw
    | cons b rest =>
      rw [windows_cons_cons, List.mem_cons] at hw
      rcases hw with rfl | hw
      · exact (List.pairwise_cons.mp h).1 b List.mem_cons_self
      · exact ih h.of_cons hw

/-- No point is within a stretch. -/
theorem le_or_le_of_mem_windows {w : α × α} (hw : w ∈ windows all) {c : α} (hc : c ∈ all) : c ≤ w.1 ∨ w.2 ≤ c := by
  induction all with
  | nil => cases hw
  | cons a rest ih =>
    cases rest with
    | nil => cases hw
    | cons b rest =>
      have hafter := (List.pairwise_cons.mp h).1
      rw [windows_cons_cons, List.mem_cons] at hw
      rcases hw with rfl | hw
      · rcases List.mem_cons.mp hc with rfl | hc
        · exact .inl (le_refl _)
        · rcases List.mem_cons.mp hc with rfl | hc
          · exact .inr (le_refl _)
          · exact .inr (le_of_lt ((List.pairwise_cons.mp h.of_cons).1 c hc))
      · rcases List.mem_cons.mp hc with rfl | hc
        · exact .inl (le_of_lt (hafter w.1 (mem_of_mem_windows hw).1))
        · exact ih h.of_cons hw hc

/-- What has a point at or before it and one behind it is in a stretch. -/
theorem exists_window {x : α} (hbefore : ∃ a ∈ all, a ≤ x) (hafter : ∃ b ∈ all, x < b) :
    ∃ w ∈ windows all, w.1 ≤ x ∧ x < w.2 := by
  induction all with
  | nil =>
    obtain ⟨a, ha, _⟩ := hbefore
    cases ha
  | cons a rest ih =>
    obtain ⟨b, hb, hxb⟩ := hafter
    obtain ⟨c, hc, hcx⟩ := hbefore
    -- the first point is at or before `x`, so one behind it is behind `x`
    have hax : a ≤ x := by
      rcases List.mem_cons.mp hc with rfl | hc
      · exact hcx
      · exact (le_of_lt ((List.pairwise_cons.mp h).1 c hc)).trans hcx
    have hb : b ∈ rest := (List.mem_cons.mp hb).resolve_left fun heq => absurd hxb (not_lt_of_ge (heq ▸ hax))
    cases rest with
    | nil => cases hb
    | cons next rest =>
      rcases lt_or_ge x next with hlt | hge
      · exact ⟨(a, next), List.mem_cons_self, hax, hlt⟩
      · obtain ⟨w, hw, hin⟩ := ih h.of_cons ⟨next, List.mem_cons_self, hge⟩ ⟨b, hb, hxb⟩
        exact ⟨w, List.mem_cons_of_mem _ hw, hin⟩

/-- Each stretch ends before the next ones begin. -/
theorem pairwise_windows : (windows all).Pairwise fun v w => v.2 ≤ w.1 := by
  induction all with
  | nil => exact .nil
  | cons a rest ih =>
    cases rest with
    | nil => exact .nil
    | cons b rest =>
      rw [windows_cons_cons]
      refine List.pairwise_cons.mpr ⟨fun w hw => ?_, ih h.of_cons⟩
      rcases List.mem_cons.mp (mem_of_mem_windows hw).1 with heq | hin
      · exact le_of_eq heq.symm
      · exact le_of_lt ((List.pairwise_cons.mp h.of_cons).1 w.1 hin)

end Rising

end Weft
