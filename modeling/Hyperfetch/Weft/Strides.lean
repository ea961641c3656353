import Mathlib.Tactic

/-!
# Walks that stride on

A walk from 0 that `next` takes from each place to a later one. Two places it gets to
lie one stride apart at least (`Reached.apart`).
-/

namespace Weft

/-- Where the walk is after so many strides. -/
def place (next : Nat → Option Nat) : Nat → Option Nat
  | 0 => some 0
  | n + 1 => (place next n).bind next

def Reached (next : Nat → Option Nat) (a : Nat) : Prop := ∃ n, place next n = some a

variable {next : Nat → Option Nat} (hnext : ∀ {a b}, next a = some b → a < b)

theorem Reached.zero : Reached next 0 := ⟨0, rfl⟩

theorem Reached.stride {a b : Nat} (h : Reached next a) (hb : next a = some b) : Reached next b := by
  obtain ⟨n, hn⟩ := h
  exact ⟨n + 1, by rw [place, hn, Option.bind_some, hb]⟩

include hnext

theorem place_le {n m a b c : Nat} (hn : place next n = some a) (hc : next a = some c) (hnm : n < m)
    (hm : place next m = some b) : c ≤ b := by
  induction m generalizing b with
  | zero => exact absurd hnm (Nat.not_lt_zero n)
  | succ m ih =>
    obtain ⟨d, hd, hstride⟩ := Option.bind_eq_some_iff.mp hm
    rcases Nat.lt_succ_iff_lt_or_eq.mp hnm with hlt | rfl
    · exact Nat.le_trans (ih hlt hd) (Nat.le_of_lt (hnext hstride))
    · obtain rfl : a = d := Option.some.inj (hn.symm.trans hd)
      exact Nat.le_of_eq (Option.some.inj (hc.symm.trans hstride))

omit hnext in
theorem exists_stride {n m b : Nat} (hnm : n < m) (hm : place next m = some b) :
    ∃ a c, place next n = some a ∧ next a = some c := by
  induction m generalizing b with
  | zero => exact absurd hnm (Nat.not_lt_zero n)
  | succ m ih =>
    obtain ⟨d, hd, hstride⟩ := Option.bind_eq_some_iff.mp hm
    rcases Nat.lt_succ_iff_lt_or_eq.mp hnm with hlt | rfl
    · exact ih hlt hd
    · exact ⟨d, b, hd, hstride⟩

/-- A place is not before the end of the stride from another, or not behind that. -/
theorem Reached.apart {a b c : Nat} (ha : Reached next a) (hc : next a = some c) (hb : Reached next b) : b ≤ a ∨ c ≤ b := by
  obtain ⟨n, hn⟩ := ha
  obtain ⟨m, hm⟩ := hb
  rcases Nat.lt_trichotomy n m with hlt | rfl | hgt
  · exact .inr (place_le hnext hn hc hlt hm)
  · exact .inl (Nat.le_of_eq (Option.some.inj (hm.symm.trans hn)))
  · obtain ⟨b', d, hb', hd⟩ := exists_stride hgt hn
    obtain rfl : b = b' := Option.some.inj (hm.symm.trans hb')
    have hle := place_le hnext hm hd hgt hn
    exact .inl (Nat.le_of_lt (Nat.lt_of_lt_of_le (hnext hd) hle))

/-- Nothing is behind the place where the walk ends. -/
theorem Reached.le_last {a b : Nat} (hb : Reached next b) (hend : next b = none) (ha : Reached next a) : a ≤ b := by
  obtain ⟨n, hn⟩ := ha
  obtain ⟨m, hm⟩ := hb
  rcases Nat.lt_trichotomy m n with hlt | rfl | hgt
  · obtain ⟨b', c, hb', hc⟩ := exists_stride hlt hn
    obtain rfl : b = b' := Option.some.inj (hm.symm.trans hb')
    rw [hend] at hc
    cases hc
  · exact Nat.le_of_eq (Option.some.inj (hn.symm.trans hm))
  · obtain ⟨a', c, ha', hc⟩ := exists_stride hgt hm
    obtain rfl : a = a' := Option.some.inj (hn.symm.trans ha')
    exact Nat.le_trans (Nat.le_of_lt (hnext hc)) (place_le hnext hn hc hgt hm)

end Weft
