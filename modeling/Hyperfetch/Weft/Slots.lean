import Mathlib.Tactic

/-!
# Time reserved on a shared clock

Each reservation takes its size at the rate from the clock, which never stands further back
than the reservation's floor. `Slots.sum_le` bounds what is reserved between two readings
of the clock, `Reserved.debt_le` how far the clock is ahead by what is not paid for.
-/

namespace Weft

variable {K : Type*} [Field K] [LinearOrder K] [IsStrictOrderedRing K]

/-- What was reserved, and where the clock stands with it. -/
structure Slot (K : Type*) where
  floor : K
  size : K
  ready : K

/-- Slots reserved one after another, from the clock at `clock`. -/
def Reserved (rate : K) : K → List (Slot K) → Prop
  | _, [] => True
  | clock, s :: slots => 0 ≤ s.size ∧ s.ready = max clock s.floor + s.size / rate ∧ Reserved rate s.ready slots

/-- Slots that each take their size at the rate at least, from the clock at `clock`. -/
def Slots (rate : K) : K → List (Slot K) → Prop
  | _, [] => True
  | clock, s :: slots => 0 ≤ s.size ∧ clock + s.size / rate ≤ s.ready ∧ Slots rate s.ready slots

def sizes (slots : List (Slot K)) : K := (slots.map Slot.size).sum

/-- The clock after the slots. -/
def clockAfter (clock : K) (slots : List (Slot K)) : K := slots.foldl (fun _ s => s.ready) clock

/-- What of a slot lies behind the time `t`. -/
def unpaid (rate t : K) (s : Slot K) : K := max 0 (min s.size (rate * (s.ready - t)))

variable {rate : K}

theorem Reserved.slots {clock : K} {slots : List (Slot K)} (h : Reserved rate clock slots) : Slots rate clock slots := by
  induction slots generalizing clock with
  | nil => trivial
  | cons s slots ih =>
    obtain ⟨hsize, hready, hrest⟩ := h
    refine ⟨hsize, ?_, ih hrest⟩
    rw [hready]
    gcongr
    exact le_max_left clock s.floor

omit [IsStrictOrderedRing K] in
theorem unpaid_nonneg (t : K) (s : Slot K) : 0 ≤ unpaid rate t s := le_max_left _ _

theorem Slots.mono {a b : K} {slots : List (Slot K)} (h : Slots rate b slots) (hab : a ≤ b) : Slots rate a slots := by
  cases slots with
  | nil => trivial
  | cons s slots =>
    obtain ⟨hsize, hready, hrest⟩ := h
    exact ⟨hsize, (by gcongr : a + s.size / rate ≤ b + s.size / rate).trans hready, hrest⟩

section

variable (hrate : 0 < rate)

include hrate

theorem Slots.le_ready {clock : K} {s : Slot K} {slots : List (Slot K)} (h : Slots rate clock (s :: slots)) : clock ≤ s.ready := by
  obtain ⟨hsize, hready, -⟩ := h
  have htake : 0 ≤ s.size / rate := div_nonneg hsize hrate.le
  linarith

theorem Slots.ready_ge {clock : K} {slots : List (Slot K)} (h : Slots rate clock slots) : ∀ s ∈ slots, clock ≤ s.ready := by
  induction slots generalizing clock with
  | nil => exact fun s hs => absurd hs List.not_mem_nil
  | cons s slots ih =>
    have hfirst := h.le_ready hrate
    exact List.forall_mem_cons.mpr ⟨hfirst, fun r hr => hfirst.trans (ih h.2.2 r hr)⟩

/-- None is ready before one reserved before. -/
theorem Slots.pairwise {clock : K} {slots : List (Slot K)} (h : Slots rate clock slots) :
    slots.Pairwise fun a b => a.ready ≤ b.ready := by
  induction slots generalizing clock with
  | nil => exact List.Pairwise.nil
  | cons s slots ih => exact List.pairwise_cons.mpr ⟨h.2.2.ready_ge hrate, ih h.2.2⟩

theorem Slots.sublist {clock : K} {slots some : List (Slot K)} (h : Slots rate clock slots) (hsub : some.Sublist slots) :
    Slots rate clock some := by
  induction hsub generalizing clock with
  | slnil => trivial
  | cons s _ ih => exact (ih h.2.2).mono (h.le_ready hrate)
  | cons_cons s _ ih => exact ⟨h.1, h.2.1, ih h.2.2⟩

/-- What is reserved from one reading of the clock to another. -/
theorem Slots.sum_le {clock stop : K} {slots : List (Slot K)} (h : Slots rate clock slots) (hclock : clock ≤ stop)
    (hstop : ∀ s ∈ slots, s.ready ≤ stop) : sizes slots ≤ rate * (stop - clock) := by
  induction slots generalizing clock with
  | nil => exact mul_nonneg hrate.le (sub_nonneg.mpr hclock)
  | cons s slots ih =>
    obtain ⟨hready, hrest⟩ := List.forall_mem_cons.mp hstop
    have hsum := ih h.2.2 hready hrest
    have htake : s.size ≤ rate * (s.ready - clock) := by
      have hle := h.2.1
      rw [← div_le_iff₀' hrate]
      linarith
    rw [sizes, List.map_cons, List.sum_cons, ← sizes]
    calc s.size + sizes slots ≤ rate * (s.ready - clock) + rate * (stop - s.ready) := add_le_add htake hsum
      _ = rate * (stop - clock) := by ring

end

theorem Reserved.floor_le (hrate : 0 < rate) {clock : K} {slots : List (Slot K)} (h : Reserved rate clock slots) :
    ∀ s ∈ slots, s.floor ≤ s.ready := by
  induction slots generalizing clock with
  | nil => exact fun s hs => absurd hs List.not_mem_nil
  | cons s slots ih =>
    obtain ⟨hsize, hready, hrest⟩ := h
    refine List.forall_mem_cons.mpr ⟨?_, ih hrest⟩
    rw [hready]
    exact (le_max_right _ _).trans (le_add_of_nonneg_right (div_nonneg hsize hrate.le))

omit [IsStrictOrderedRing K] in
theorem Reserved.split {clock : K} {slots rest : List (Slot K)} {s : Slot K} (h : Reserved rate clock (slots ++ s :: rest)) :
    Reserved rate clock slots ∧ s.ready = max (clockAfter clock slots) s.floor + s.size / rate := by
  induction slots generalizing clock with
  | nil => exact ⟨trivial, h.2.1⟩
  | cons first slots ih =>
    obtain ⟨hsize, hready, hrest⟩ := h
    exact ⟨⟨hsize, hready, (ih hrest).1⟩, (ih hrest).2⟩

/-- The clock is ahead of `t` by no more than what is not paid for then. -/
theorem Reserved.debt_le (hrate : 0 < rate) {clock t : K} {slots : List (Slot K)} (h : Reserved rate clock slots)
    (hfloor : ∀ s ∈ slots, s.floor ≤ t) :
    clockAfter clock slots - t ≤ max 0 (clock - t) + (slots.map (unpaid rate t)).sum / rate := by
  induction slots generalizing clock with
  | nil => simp [clockAfter]
  | cons s slots ih =>
    obtain ⟨hsize, hready, hrest⟩ := h
    obtain ⟨hs, hslots⟩ := List.forall_mem_cons.mp hfloor
    have hnext := ih hrest hslots
    -- the slot ends as far behind `t` as it is not paid for, or where the clock was and its size
    have hslot : max 0 (s.ready - t) ≤ max 0 (clock - t) + unpaid rate t s / rate := by
      have hclock : 0 ≤ max 0 (clock - t) := le_max_left _ _
      refine max_le (add_nonneg hclock (div_nonneg (unpaid_nonneg t s) hrate.le)) ?_
      rcases le_total s.size (rate * (s.ready - t)) with hle | hle
      · rw [unpaid, min_eq_left hle, max_eq_right hsize, hready]
        have hstart : max clock s.floor - t ≤ max 0 (clock - t) := by
          rw [sub_le_iff_le_add]
          refine max_le ?_ (by linarith)
          linarith [le_max_right 0 (clock - t)]
        linarith
      · have hpaid : s.ready - t ≤ unpaid rate t s / rate := by
          rw [le_div_iff₀' hrate, unpaid, min_eq_right hle]
          exact le_max_right _ _
        linarith
    rw [List.map_cons, List.sum_cons, add_div]
    change clockAfter s.ready slots - t ≤ _
    linarith

end Weft
