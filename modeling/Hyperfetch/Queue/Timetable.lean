import Hyperfetch.Text
import Hyperfetch.Weft.LastIn
import Hyperfetch.Weft.Strip
import Hyperfetch.Weft.Text

/-!
# The queue's schedule (`desktop.rs`)

`schedule_due` is told the local time as a day of the week and a minute. Here time is
in minutes since the midnight a Monday began with, `clock` tells it, and `order` is what
is to happen at a minute. A check looks at the part of the time since the last one that
lies on its own day (`scheduleDue_eq`); what came on the days before is passed over.
-/

namespace Hyperfetch.Queue

open Weft

structure Schedule where
  enabled : Bool
  start : Option Text
  stop : Option Text
  /-- Monday to Sunday. -/
  days : Fin 7 → Bool

/-- The bytes of `s` are digits, so many of them. -/
def isDigits (s : Text) (least most : Nat) : Bool := least ≤ byteLen s && byteLen s ≤ most && s.all Char.isDigit

/-- `minute_of`. -/
def minuteOf (text : Text) : Option Nat :=
  match splitOnce ':' (trim text) with
  | none => none
  | some (hours, minutes) =>
    if !isDigits hours 1 2 || !isDigits minutes 2 2 then none
    else
      match readDecimal 65535 hours, readDecimal 65535 minutes with
      | some hours, some minutes => if hours < 24 ∧ minutes < 60 then some (hours * 60 + minutes) else none
      | _, _ => none

namespace Schedule

variable (s : Schedule)

def ticked (day : Nat) : Bool := s.days ⟨day % 7, Nat.mod_lt day (by decide)⟩

def startMinute : Option Nat := s.start.bind minuteOf

def stopMinute : Option Nat := s.stop.bind minuteOf

/-- `inside`. -/
def inside (now : Nat × Nat) : Bool :=
  match s.startMinute with
  | none => false
  | some start =>
    match s.stopMinute with
    | some stop =>
      if stop < start then (start ≤ now.2 && s.ticked now.1) || (now.2 < stop && s.ticked ((now.1 + 6) % 7))
      else start ≤ now.2 && now.2 < stop && s.ticked now.1
    | none => start ≤ now.2 && s.ticked now.1

/-- A time in the part of the day that `schedule_due` looks at. -/
def came (from_ : Nat) (now : Nat × Nat) (minute : Option Nat) : Option Nat :=
  minute.filter fun m => from_ ≤ m && m ≤ now.2

/-- What came from some minute of the day on. -/
def dueSince (from_ : Nat) (now : Nat × Nat) : Option Bool :=
  match (came from_ now s.startMinute).filter fun _ => s.ticked now.1, came from_ now s.stopMinute with
  | some start, some stop => some (stop < start)
  | start, stop => (start.map fun _ => true).or (stop.map fun _ => false)

/-- `schedule_due`. -/
def scheduleDue (last : Option (Nat × Nat)) (now : Nat × Nat) : Option Bool :=
  if !s.enabled then none
  else
    match last with
    | some (day, minute) => s.dueSince (if day = now.1 then minute + 1 else 0) now
    | none => if s.inside now then some true else s.dueSince now.2 now

end Schedule

/-- The minutes of a day. -/
def dayMinutes : Nat := 24 * 60

theorem dayMinutes_eq : dayMinutes = 1440 := rfl

/-- The day of the week and the minute of the day. -/
def clock (t : Nat) : Nat × Nat := (t / dayMinutes % 7, t % dayMinutes)

theorem minuteOf_lt {text : Text} {m : Nat} (h : minuteOf text = some m) : m < dayMinutes := by
  unfold minuteOf at h
  split at h
  next => cases h
  next =>
    split at h
    next => cases h
    next =>
      split at h
      next =>
        split at h
        next hrange =>
          obtain rfl := Option.some.inj h
          show _ < 24 * 60
          omega
        next => cases h
      next => cases h

namespace Schedule

variable (s : Schedule)

theorem startMinute_lt {m : Nat} (h : s.startMinute = some m) : m < dayMinutes := by
  obtain ⟨text, -, hm⟩ := Option.bind_eq_some_iff.mp h
  exact minuteOf_lt hm

theorem stopMinute_lt {m : Nat} (h : s.stopMinute = some m) : m < dayMinutes := by
  obtain ⟨text, -, hm⟩ := Option.bind_eq_some_iff.mp h
  exact minuteOf_lt hm

/-! ## What is to happen -/

/-- The order of a minute: a stop on any day, a start on a ticked one. -/
def order (t : Nat) : Option Bool :=
  if s.stopMinute = some (t % dayMinutes) then some false
  else if s.startMinute = some (t % dayMinutes) ∧ s.ticked (t / dayMinutes) = true then some true
  else none

/-- The last event after `prev` and up to `now`. -/
def lastEvent (prev now : Nat) : Option (Nat × Bool) := lastIn s.order prev now

/-- The minute before those that a check at `now` looks at, `prev` being the time of the
check before. -/
def passedOver (prev now : Nat) : Nat :=
  if prev / dayMinutes % 7 = now / dayMinutes % 7 then now / dayMinutes * dayMinutes + prev % dayMinutes
  else now / dayMinutes * dayMinutes - 1

/-- What the check at `now` looks at holds an event, or all the time since the check at
`prev` holds none. -/
def Covered (prev now : Nat) : Prop :=
  (∃ t, passedOver prev now < t ∧ t ≤ now ∧ s.order t ≠ none) ∨ ∀ t, prev < t → t ≤ now → s.order t = none

/-! ## One check -/

variable {s}

theorem came_eq_some {from_ m : Nat} {now : Nat × Nat} {minute : Option Nat} :
    came from_ now minute = some m ↔ minute = some m ∧ from_ ≤ m ∧ m ≤ now.2 := by
  rw [came, Option.filter_eq_some_iff, Bool.and_eq_true, decide_eq_true_eq, decide_eq_true_eq]

/-- A minute of the day that is looked at. -/
theorem order_of_day {day minute from_ m : Nat} (hminute : minute < dayMinutes) (hfrom : from_ ≤ m) (hm : m ≤ minute) :
    s.order (day * dayMinutes + m) =
      if came from_ (day % 7, minute) s.stopMinute = some m then some false
      else if (came from_ (day % 7, minute) s.startMinute).filter (fun _ => s.ticked (day % 7)) = some m then some true
      else none := by
  have hdiv : (day * dayMinutes + m) / dayMinutes = day := by
    rw [dayMinutes_eq] at *
    omega
  have hmod : (day * dayMinutes + m) % dayMinutes = m := by
    rw [dayMinutes_eq] at *
    omega
  have hticked : s.ticked day = s.ticked (day % 7) := by
    simp only [ticked, Nat.mod_mod]
  rw [order, hdiv, hmod, hticked]
  refine if_congr ?_ rfl (if_congr ?_ rfl rfl)
  · rw [came_eq_some]
    exact ⟨fun h => ⟨h, hfrom, hm⟩, fun h => h.1⟩
  · rw [Option.filter_eq_some_iff, came_eq_some]
    exact ⟨fun h => ⟨⟨h.1, hfrom, hm⟩, h.2⟩, fun h => ⟨h.1.1, h.2⟩⟩

theorem lastIn_of_day {day minute from_ m : Nat} {x : Bool} (hpos : 0 < day * dayMinutes + from_) (hfrom : from_ ≤ m)
    (hm : m ≤ minute) (hx : s.order (day * dayMinutes + m) = some x)
    (hafter : ∀ n, m < n → n ≤ minute → s.order (day * dayMinutes + n) = none) :
    (lastIn s.order (day * dayMinutes + from_ - 1) (day * dayMinutes + minute)).map Prod.snd = some x := by
  have hlast : lastIn s.order (day * dayMinutes + from_ - 1) (day * dayMinutes + minute) = some (day * dayMinutes + m, x) := by
    refine lastIn_eq_some.mpr ⟨⟨by omega, by omega⟩, hx, fun u hu hle => ?_⟩
    have hnone := hafter (u - day * dayMinutes) (by omega) (by omega)
    rwa [Nat.add_sub_cancel' (by omega)] at hnone
  rw [hlast]
  rfl

theorem dueSince_eq {day minute from_ : Nat} (hminute : minute < dayMinutes) (hpos : 0 < day * dayMinutes + from_) :
    s.dueSince from_ (day % 7, minute) =
      (lastIn s.order (day * dayMinutes + from_ - 1) (day * dayMinutes + minute)).map Prod.snd := by
  have hday (m : Nat) (hfrom : from_ ≤ m) (hm : m ≤ minute) := @order_of_day s day minute from_ m hminute hfrom hm
  rw [dueSince]
  cases hstart : (came from_ (day % 7, minute) s.startMinute).filter fun _ => s.ticked (day % 7) with
  | none =>
    cases hstop : came from_ (day % 7, minute) s.stopMinute with
    | none =>
      have hnone : lastIn s.order (day * dayMinutes + from_ - 1) (day * dayMinutes + minute) = none := by
        refine lastIn_eq_none.mpr fun t hat htb => ?_
        have hm := hday (t - day * dayMinutes) (by omega) (by omega)
        rwa [hstart, hstop, Nat.add_sub_cancel' (by omega)] at hm
      rw [hnone]
      rfl
    | some stop =>
      obtain ⟨-, hfrom, hle⟩ := came_eq_some.mp hstop
      refine (lastIn_of_day hpos hfrom hle ?_ fun n hn hnle => ?_).symm
      · rw [hday stop hfrom hle, hstop, if_pos rfl]
      · rw [hday n (by omega) hnle, hstart, hstop, if_neg (by simpa using Nat.ne_of_lt hn), if_neg (by simp)]
  | some start =>
    obtain ⟨-, hfrom, hle⟩ := came_eq_some.mp (Option.filter_eq_some_iff.mp hstart).1
    cases hstop : came from_ (day % 7, minute) s.stopMinute with
    | none =>
      refine (lastIn_of_day hpos hfrom hle ?_ fun n hn hnle => ?_).symm
      · rw [hday start hfrom hle, hstart, hstop, if_neg (by simp), if_pos rfl]
      · rw [hday n (by omega) hnle, hstart, hstop, if_neg (by simp), if_neg (by simpa using Nat.ne_of_lt hn)]
    | some stop =>
      obtain ⟨-, hfromStop, hleStop⟩ := came_eq_some.mp hstop
      by_cases hlater : stop < start
      · have hx : s.order (day * dayMinutes + start) = some (decide (stop < start)) := by
          rw [hday start hfrom hle, hstart, hstop, if_neg (by simpa using Nat.ne_of_lt hlater), if_pos rfl, decide_eq_true hlater]
        refine (lastIn_of_day hpos hfrom hle hx fun n hn hnle => ?_).symm
        rw [hday n (by omega) hnle, hstart, hstop, if_neg (by simp; omega), if_neg (by simp; omega)]
      · -- a stop wins over a start at the same minute
        have hx : s.order (day * dayMinutes + stop) = some (decide (stop < start)) := by
          rw [hday stop hfromStop hleStop, hstop, if_pos rfl, decide_eq_false hlater]
        refine (lastIn_of_day hpos hfromStop hleStop hx fun n hn hnle => ?_).symm
        rw [hday n (by omega) hnle, hstart, hstop, if_neg (by simp; omega), if_neg (by simp; omega)]

theorem le_passedOver {prev now : Nat} (h : prev < now) : prev ≤ passedOver prev now := by
  have hdays : prev / 1440 ≤ now / 1440 := Nat.div_le_div_right (Nat.le_of_lt h)
  unfold passedOver
  rw [dayMinutes_eq]
  split
  next => omega
  next hother =>
    have hne : prev / 1440 ≠ now / 1440 := fun heq => hother (by rw [heq])
    omega

/-- A check takes the last event of the part it looks at. -/
theorem scheduleDue_eq (henabled : s.enabled = true) {prev now : Nat} (h : prev < now) :
    s.scheduleDue (some (clock prev)) (clock now) = (lastIn s.order (passedOver prev now) now).map Prod.snd := by
  have hminute : now % dayMinutes < dayMinutes := Nat.mod_lt now (by decide)
  have hnow : now / dayMinutes * dayMinutes + now % dayMinutes = now := Nat.div_add_mod' now dayMinutes
  unfold scheduleDue passedOver clock
  rw [henabled, if_neg (by decide)]
  show s.dueSince (if prev / dayMinutes % 7 = now / dayMinutes % 7 then prev % dayMinutes + 1 else 0) _ = _
  split
  next =>
    rw [dueSince_eq hminute (by omega), hnow, ← Nat.add_assoc, Nat.add_sub_cancel]
  next hother =>
    have hpos : 0 < now / dayMinutes * dayMinutes + 0 := by
      have hdays : prev / dayMinutes ≤ now / dayMinutes := Nat.div_le_div_right (Nat.le_of_lt h)
      have hne : prev / dayMinutes ≠ now / dayMinutes := fun heq => hother (by rw [heq])
      rw [dayMinutes_eq] at *
      omega
    rw [dueSince_eq hminute hpos, hnow, Nat.add_zero]

theorem covered_iff {prev now : Nat} :
    s.Covered prev now ↔ lastIn s.order (passedOver prev now) now ≠ none ∨ s.lastEvent prev now = none := by
  rw [Covered, lastEvent, lastIn_eq_none, Ne, lastIn_eq_none]
  simp only [not_forall, exists_prop]

/-- It is the last of all where that part is enough. -/
theorem scheduleDue_iff (henabled : s.enabled = true) {prev now : Nat} (h : prev < now) :
    s.scheduleDue (some (clock prev)) (clock now) = (s.lastEvent prev now).map Prod.snd ↔ s.Covered prev now := by
  rw [scheduleDue_eq henabled h, covered_iff]
  constructor
  · intro heq
    by_cases hpart : lastIn s.order (passedOver prev now) now = none
    · rw [hpart] at heq
      exact .inr (Option.map_eq_none_iff.mp heq.symm)
    · exact .inl hpart
  · intro hcovered
    rw [(lastIn_part (le_passedOver h)).mpr hcovered]
    rfl

/-! ## Runs -/

variable (s) in
/-- What the checks at some times give, the first of them after one at `start`. -/
def checks (start : Nat) (times : List Nat) : List (Option Bool) :=
  (stretches start times).map fun stretch => s.scheduleDue (some (clock stretch.1)) (clock stretch.2)

variable (s) in
/-- The last order the queue has been given after these checks, `before` being its last
one before them. -/
def standing (before : Option Bool) (start : Nat) (times : List Nat) : Option Bool :=
  (s.checks start times).foldl (fun last due => due.or last) before

variable (s) in
/-- The checks of a run take every event: each takes the last since the one before it,
none takes one twice, and after each of them the queue's last order is that of the last
event there has been. -/
structure MissesNothing (before : Option Bool) (start : Nat) (times : List Nat) : Prop where
  each : s.checks start times = (stretches start times).map fun stretch => (s.lastEvent stretch.1 stretch.2).map Prod.snd
  once : ((stretches start times).filterMap fun stretch => (s.lastEvent stretch.1 stretch.2).map Prod.fst).Pairwise (· < ·)
  last : ∀ done later, times = done ++ later →
    s.standing before start done = ((s.lastEvent start (done.getLast?.getD start)).map Prod.snd).or before

theorem checks_iff (henabled : s.enabled = true) {start : Nat} {times : List Nat}
    (hincr : (start :: times).Pairwise (· < ·)) :
    s.checks start times = ((stretches start times).map fun stretch => (s.lastEvent stretch.1 stretch.2).map Prod.snd) ↔
      ∀ stretch ∈ stretches start times, s.Covered stretch.1 stretch.2 := by
  rw [checks, List.map_inj_left]
  refine forall₂_congr fun stretch hstretch => ?_
  exact scheduleDue_iff henabled (le_of_mem_stretches hincr hstretch).2

/-- What the last of some stretches leaves standing. -/
theorem standing_eq (henabled : s.enabled = true) {start : Nat} {times : List Nat}
    (hincr : (start :: times).Pairwise (· < ·)) (hcovered : ∀ stretch ∈ stretches start times, s.Covered stretch.1 stretch.2)
    (before : Option Bool) :
    s.standing before start times = ((s.lastEvent start (times.getLast?.getD start)).map Prod.snd).or before := by
  rw [standing, (checks_iff henabled hincr).mpr hcovered]
  clear hcovered
  induction times generalizing start before with
  | nil =>
    have hnone : s.lastEvent start start = none := lastIn_eq_none.mpr fun t hat htb => by omega
    show before = ((s.lastEvent start start).map Prod.snd).or before
    rw [hnone]
    rfl
  | cons now times ih =>
    obtain ⟨hstart, hrest⟩ := List.pairwise_cons.mp hincr
    have hnow : start ≤ now := Nat.le_of_lt (hstart now List.mem_cons_self)
    have hlast : now ≤ times.getLast?.getD now := by
      cases hgot : times.getLast? with
      | none => exact Nat.le_refl now
      | some t => exact Nat.le_of_lt ((List.pairwise_cons.mp hrest).1 t (List.mem_of_getLast? hgot))
    have hend : (now :: times).getLast?.getD start = times.getLast?.getD now := by
      rw [List.getLast?_cons, Option.getD_some]
    rw [stretches, List.map_cons, List.foldl_cons, ih hrest, hend, ← Option.or_assoc, ← Option.map_or]
    congr 2
    exact (lastIn_or hnow hlast).symm

theorem mem_stretches_append {start : Nat} {done later : List Nat} {stretch : Nat × Nat}
    (h : stretch ∈ stretches start done) : stretch ∈ stretches start (done ++ later) := by
  induction done generalizing start with
  | nil => cases h
  | cons now done ih =>
    rcases List.mem_cons.mp h with rfl | h
    · exact List.mem_cons_self
    · exact List.mem_cons_of_mem _ (ih h)

/-- A run takes every event where each of its checks looks at the last one since the
check before, if there is any. -/
theorem misses_nothing_iff (henabled : s.enabled = true) {start : Nat} {times : List Nat}
    (hincr : (start :: times).Pairwise (· < ·)) (before : Option Bool) :
    s.MissesNothing before start times ↔ ∀ stretch ∈ stretches start times, s.Covered stretch.1 stretch.2 := by
  constructor
  · intro h
    exact (checks_iff henabled hincr).mp h.each
  · intro hcovered
    refine ⟨(checks_iff henabled hincr).mpr hcovered, pairwise_lastIn hincr, ?_⟩
    rintro done later rfl
    refine standing_eq henabled (hincr.sublist ?_) (fun stretch hstretch => hcovered stretch ?_) before
    · exact List.Sublist.cons_cons start (List.sublist_append_left done later)
    · exact mem_stretches_append hstretch

/-- Monday evenings. -/
def mondays : Schedule where
  enabled := true
  start := some "22:00".toList
  stop := some "06:30".toList
  days day := day == 0

theorem misses_nothing_mondays :
    (mondays.enabled = true ∧ [1310, 1325, 1800, 1830].Pairwise (· < ·)) ∧
      mondays.MissesNothing (some false) 1310 [1325, 1800, 1830] := by
  have hincr : [1310, 1325, 1800, 1830].Pairwise (· < ·) := by decide
  refine ⟨⟨rfl, hincr⟩, (misses_nothing_iff rfl hincr (some false)).mpr fun stretch hstretch => ?_⟩
  rw [covered_iff]
  rcases List.mem_cons.mp hstretch with rfl | hstretch
  · exact .inl (by decide +kernel)
  · rcases List.mem_cons.mp hstretch with rfl | hstretch
    · right
      decide +kernel
    · obtain rfl := List.mem_singleton.mp hstretch
      exact .inl (by decide +kernel)

/-- A computer asleep over a Monday's start, until just after midnight. -/
theorem evening_missed :
    (mondays.enabled = true ∧ [1310, 1450].Pairwise (· < ·)) ∧
      mondays.scheduleDue (some (clock 1310)) (clock 1450) = none ∧
      mondays.lastEvent 1310 1450 = some (1320, true) ∧ ¬mondays.MissesNothing none 1310 [1450] := by
  have hdue : mondays.scheduleDue (some (clock 1310)) (clock 1450) = none := by decide +kernel
  have hevent : mondays.lastEvent 1310 1450 = some (1320, true) := by decide +kernel
  refine ⟨⟨rfl, by decide⟩, hdue, hevent, fun h => ?_⟩
  have heach : [mondays.scheduleDue (some (clock 1310)) (clock 1450)] = [(mondays.lastEvent 1310 1450).map Prod.snd] := h.each
  rw [hdue, hevent] at heach
  cases heach

end Schedule

end Hyperfetch.Queue
