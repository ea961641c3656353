import Mathlib.Tactic

/-!
# The last of what comes in a stretch of time

`lastIn f a b` is the last `t` after `a` and up to `b` at which `f` gives something,
with what it gives. Stretches that follow one another give the last of the whole
(`lastIn_or`), and none gives what another does (`pairwise_lastIn`).
-/

namespace Weft

variable {β : Type*} {f : Nat → Option β}

def lastIn (f : Nat → Option β) (a : Nat) : Nat → Option (Nat × β)
  | 0 => none
  | b + 1 => if a ≤ b then ((f (b + 1)).map fun x => (b + 1, x)).or (lastIn f a b) else none

theorem lastIn_eq_none {a b : Nat} : lastIn f a b = none ↔ ∀ t, a < t → t ≤ b → f t = none := by
  induction b with
  | zero =>
    constructor
    · intro _ t hat htb
      omega
    · intro _
      rfl
  | succ b ih =>
    rw [lastIn]
    split
    next hab =>
      rw [Option.or_eq_none_iff, Option.map_eq_none_iff, ih]
      constructor
      · rintro ⟨hnow, hbefore⟩ t hat htb
        rcases Nat.le_succ_iff.mp htb with htb | rfl
        · exact hbefore t hat htb
        · exact hnow
      · intro h
        exact ⟨h (b + 1) (by omega) (Nat.le_refl _), fun t hat htb => h t hat (by omega)⟩
    next hab =>
      constructor
      · intro _ t hat htb
        omega
      · intro _
        rfl

theorem lastIn_eq_some {a b t : Nat} {x : β} :
    lastIn f a b = some (t, x) ↔ (a < t ∧ t ≤ b) ∧ f t = some x ∧ ∀ u, t < u → u ≤ b → f u = none := by
  induction b with
  | zero =>
    constructor
    · intro h
      cases h
    · rintro ⟨⟨hat, htb⟩, -⟩
      omega
  | succ b ih =>
    rw [lastIn]
    split
    next hab =>
      rw [Option.or_eq_some_iff, Option.map_eq_some_iff, Option.map_eq_none_iff, ih]
      constructor
      · rintro (⟨y, hy, hpair⟩ | ⟨hnow, ⟨hat, htb⟩, hx, hafter⟩)
        · obtain ⟨rfl, rfl⟩ := Prod.mk.inj hpair
          exact ⟨⟨by omega, Nat.le_refl _⟩, hy, fun u htu hub => by omega⟩
        · refine ⟨⟨hat, by omega⟩, hx, fun u htu hub => ?_⟩
          rcases Nat.le_succ_iff.mp hub with hub | rfl
          · exact hafter u htu hub
          · exact hnow
      · rintro ⟨⟨hat, htb⟩, hx, hafter⟩
        rcases Nat.le_succ_iff.mp htb with htb | rfl
        · right
          exact ⟨hafter (b + 1) (by omega) (Nat.le_refl _), ⟨hat, htb⟩, hx, fun u htu hub => hafter u htu (by omega)⟩
        · left
          exact ⟨x, hx, rfl⟩
    next hab =>
      constructor
      · intro h
        cases h
      · rintro ⟨⟨hat, htb⟩, -⟩
        omega

/-- Of two stretches the later one's last comes first. -/
theorem lastIn_or {a b c : Nat} (hab : a ≤ b) (hbc : b ≤ c) : lastIn f a c = (lastIn f b c).or (lastIn f a b) := by
  induction c with
  | zero =>
    obtain rfl := Nat.le_zero.mp hbc
    rfl
  | succ c ih =>
    rcases Nat.le_succ_iff.mp hbc with hbc | rfl
    · rw [lastIn, lastIn, if_pos hbc, if_pos (Nat.le_trans hab hbc), ih hbc, Option.or_assoc]
    · have hnone : lastIn f (c + 1) (c + 1) = none := lastIn_eq_none.mpr fun t hat htb => by omega
      rw [hnone, Option.none_or]

/-- A part of a stretch, up to its end, has the last of the whole where it has any, or
the whole has none. -/
theorem lastIn_part {a b c : Nat} (hab : a ≤ b) :
    lastIn f b c = lastIn f a c ↔ lastIn f b c ≠ none ∨ lastIn f a c = none := by
  constructor
  · intro h
    rw [h]
    exact (em _).symm
  · rintro (h | h)
    · obtain ⟨⟨t, x⟩, hlast⟩ := Option.ne_none_iff_exists'.mp h
      obtain ⟨⟨hbt, htc⟩, hx, hafter⟩ := lastIn_eq_some.mp hlast
      rw [hlast]
      exact (lastIn_eq_some.mpr ⟨⟨Nat.lt_of_le_of_lt hab hbt, htc⟩, hx, hafter⟩).symm
    · rw [h, lastIn_eq_none]
      exact fun t hbt htc => lastIn_eq_none.mp h t (Nat.lt_of_le_of_lt hab hbt) htc

/-! ## Stretches one after another -/

/-- The stretches between times that follow one another. -/
def stretches (start : Nat) : List Nat → List (Nat × Nat)
  | [] => []
  | now :: times => (start, now) :: stretches now times

theorem le_of_mem_stretches {start : Nat} {times : List Nat} (hincr : (start :: times).Pairwise (· < ·))
    {stretch : Nat × Nat} (h : stretch ∈ stretches start times) : start ≤ stretch.1 ∧ stretch.1 < stretch.2 := by
  induction times generalizing start with
  | nil => cases h
  | cons now times ih =>
    obtain ⟨hstart, hrest⟩ := List.pairwise_cons.mp hincr
    have hnow : start < now := hstart now List.mem_cons_self
    rcases List.mem_cons.mp h with rfl | h
    · exact ⟨Nat.le_refl start, hnow⟩
    · have hlater := ih hrest h
      omega

/-- What is last in one of them comes before what is last in the next. -/
theorem pairwise_lastIn {start : Nat} {times : List Nat} (hincr : (start :: times).Pairwise (· < ·)) :
    ((stretches start times).filterMap fun stretch => (lastIn f stretch.1 stretch.2).map Prod.fst).Pairwise (· < ·) := by
  induction times generalizing start with
  | nil => exact List.Pairwise.nil
  | cons now times ih =>
    have hrest : (now :: times).Pairwise (· < ·) := (List.pairwise_cons.mp hincr).2
    rw [stretches, List.filterMap_cons]
    cases hlast : lastIn f start now with
    | none => exact ih hrest
    | some last =>
      obtain ⟨t, x⟩ := last
      refine List.pairwise_cons.mpr ⟨fun u hu => ?_, ih hrest⟩
      obtain ⟨stretch, hstretch, hu⟩ := List.mem_filterMap.mp hu
      obtain ⟨⟨u', y⟩, hlater, rfl⟩ := Option.map_eq_some_iff.mp hu
      have hnow := (lastIn_eq_some.mp hlast).1
      have hthen := (lastIn_eq_some.mp hlater).1
      have hge := le_of_mem_stretches hrest hstretch
      show t < u'
      omega

end Weft
