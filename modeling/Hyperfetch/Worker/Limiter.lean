import Hyperfetch.Weft.Slots

/-!
# The bandwidth cap

worker.rs 100–131: every caller reserves the next time slot for its bytes on one clock. The
speed limit over every interval, and how long a caller waits.
-/

namespace Hyperfetch.Worker

open Weft

/-- worker.rs 103–109; times are seconds. -/
structure RateLimiter where
  bytesPerSec : ℚ
  /-- Idle credit a caller may use immediately. -/
  burst : ℚ
  nextFree : ℚ

namespace RateLimiter

def new (bytesPerSec : ℕ) (now : ℚ) : RateLimiter :=
  { bytesPerSec := max bytesPerSec 1, burst := 100 / 1000, nextFree := now }

/-- `Instant::checked_sub` on a platform whose clock begins at `origin`. -/
def checkedSub (origin now d : ℚ) : Option ℚ := if origin ≤ now - d then some (now - d) else none

def floor (origin : ℚ) (r : RateLimiter) (now : ℚ) : ℚ := (checkedSub origin now r.burst).getD now

/-- The instant the caller sleeps until, and the limiter with its slot taken. -/
def acquire (origin : ℚ) (r : RateLimiter) (now : ℚ) (bytes : ℕ) : ℚ × RateLimiter :=
  let readyAt := max r.nextFree (r.floor origin now) + bytes / r.bytesPerSec
  (readyAt, { r with nextFree := readyAt })

end RateLimiter

/-- One call of `acquire`: when it takes the lock, and for how many bytes. -/
structure Call where
  now : ℚ
  bytes : ℕ

/-- A call with the instant it sleeps until. -/
structure Grant extends Call where
  readyAt : ℚ

/-- A sleep until an instant that has passed ends at once. -/
def Grant.ends (g : Grant) : ℚ := max g.now g.readyAt

def Grant.wait (g : Grant) : ℚ := g.ends - g.now

/-- The bytes of a reservation whose time is still to come at `t`. -/
def Grant.unpaid (bytesPerSec t : ℚ) (g : Grant) : ℚ := max 0 (min (g.bytes : ℚ) (bytesPerSec * (g.readyAt - t)))

/-- The calls in the order they take the lock. -/
def acquireAll (origin : ℚ) (r : RateLimiter) : List Call → List Grant
  | [] => []
  | c :: calls =>
    { c with readyAt := (r.acquire origin c.now c.bytes).1 } :: acquireAll origin (r.acquire origin c.now c.bytes).2 calls

def bytesOf (grants : List Grant) : ℚ := (grants.map fun g => (g.bytes : ℚ)).sum

/-- The grants whose wait ends from `start` to `stop`. -/
def endingWithin (start stop : ℚ) (grants : List Grant) : List Grant :=
  grants.filter fun g => decide (start ≤ g.ends ∧ g.ends ≤ stop)

/-- Calls at nondecreasing times, none before `start`. -/
def InOrder (start : ℚ) (calls : List Call) : Prop := (start :: calls.map Call.now).Pairwise (· ≤ ·)

/-! ## The calls as reservations -/

/-- The slot a grant took. -/
def slotOf (origin : ℚ) (r : RateLimiter) (g : Grant) : Slot ℚ := ⟨r.floor origin g.now, g.bytes, g.readyAt⟩

section

variable (origin : ℚ)

theorem floor_le_now (r : RateLimiter) (hburst : 0 ≤ r.burst) (now : ℚ) : r.floor origin now ≤ now := by
  unfold RateLimiter.floor RateLimiter.checkedSub
  split
  · simpa using hburst
  · simp

theorem le_floor (r : RateLimiter) (hburst : 0 ≤ r.burst) (now : ℚ) : now - r.burst ≤ r.floor origin now := by
  unfold RateLimiter.floor RateLimiter.checkedSub
  split
  · simp
  · simpa using hburst

/-- The calls take their slots one after another. -/
theorem acquireAll_reserved (r s : RateLimiter) (hrate : s.bytesPerSec = r.bytesPerSec) (hburst : s.burst = r.burst)
    (calls : List Call) : Reserved r.bytesPerSec s.nextFree ((acquireAll origin s calls).map (slotOf origin r)) := by
  induction calls generalizing s with
  | nil => trivial
  | cons c calls ih =>
    refine ⟨Nat.cast_nonneg c.bytes, ?_, ih (s.acquire origin c.now c.bytes).2 hrate hburst⟩
    -- only the clock of the limiter ever changes
    simp only [slotOf, RateLimiter.acquire, RateLimiter.floor, hrate, hburst]

theorem acquireAll_calls (r : RateLimiter) (calls : List Call) : (acquireAll origin r calls).map Grant.toCall = calls := by
  induction calls generalizing r with
  | nil => rfl
  | cons c calls ih => simp [acquireAll, ih]

theorem sizes_slotOf (r : RateLimiter) (grants : List Grant) : sizes (grants.map (slotOf origin r)) = bytesOf grants := by
  simp [sizes, bytesOf, slotOf, Function.comp_def]

theorem readyAt_le_ends (g : Grant) : g.readyAt ≤ g.ends := le_max_right _ _

variable {origin} {r : RateLimiter} {grants : List Grant}

/-- A grant whose wait ends at `start` or later has its slot end no earlier than the credit before. -/
theorem readyAt_ge {clock start : ℚ} (hrate : 0 < r.bytesPerSec) (hburst : 0 ≤ r.burst)
    (h : Reserved r.bytesPerSec clock (grants.map (slotOf origin r))) {g : Grant} (hg : g ∈ grants) (hends : start ≤ g.ends) :
    start - r.burst ≤ g.readyAt := by
  have hfloor : r.floor origin g.now ≤ g.readyAt := h.floor_le hrate _ (List.mem_map_of_mem hg)
  have hcredit := le_floor origin r hburst g.now
  rcases le_max_iff.mp hends with hnow | hready
  · linarith
  · linarith

/-- What ends within an interval: the first of it, and what the rate allows from there on. -/
theorem bytesOf_window_le {clock start L : ℚ} (hrate : 0 < r.bytesPerSec) (hburst : 0 ≤ r.burst)
    (h : Reserved r.bytesPerSec clock (grants.map (slotOf origin r))) {first : Grant} {rest : List Grant}
    (hwindow : endingWithin start (start + L) grants = first :: rest) :
    bytesOf (first :: rest) ≤ r.bytesPerSec * (L + r.burst) + first.bytes := by
  have hsub : (first :: rest).Sublist grants := hwindow ▸ List.filter_sublist
  have hin : ∀ g ∈ first :: rest, start ≤ g.ends ∧ g.ends ≤ start + L := by
    intro g hg
    rw [← hwindow] at hg
    exact of_decide_eq_true (List.mem_filter.mp hg).2
  have hslots := h.slots.sublist hrate (hsub.map (slotOf origin r))
  have hbegin : start - r.burst ≤ first.readyAt :=
    readyAt_ge hrate hburst h (hsub.subset List.mem_cons_self) (hin first List.mem_cons_self).1
  have hend : first.readyAt ≤ start + L := (readyAt_le_ends first).trans (hin first List.mem_cons_self).2
  have hrest : bytesOf rest ≤ r.bytesPerSec * (start + L - first.readyAt) := by
    rw [← sizes_slotOf origin r]
    refine Slots.sum_le hrate hslots.2.2 hend ?_
    intro s hs
    obtain ⟨g, hg, rfl⟩ := List.mem_map.mp hs
    exact (readyAt_le_ends g).trans (hin g (List.mem_cons_of_mem _ hg)).2
  have hspan : r.bytesPerSec * (start + L - first.readyAt) ≤ r.bytesPerSec * (L + r.burst) := by
    refine mul_le_mul_of_nonneg_left ?_ hrate.le
    linarith
  rw [bytesOf, List.map_cons, List.sum_cons, ← bytesOf]
  linarith

/-- A caller waits for what is not paid for when it calls, and for its own bytes. -/
theorem wait_le {clock : ℚ} (hrate : 0 < r.bytesPerSec) (hburst : 0 ≤ r.burst) {before after : List Grant} {g : Grant}
    (h : Reserved r.bytesPerSec clock ((before ++ g :: after).map (slotOf origin r))) (hclock : clock ≤ g.now)
    (hbefore : ∀ b ∈ before, b.now ≤ g.now) :
    g.wait ≤ ((before.map (Grant.unpaid r.bytesPerSec g.now)).sum + g.bytes) / r.bytesPerSec := by
  rw [List.map_append, List.map_cons] at h
  obtain ⟨hearlier, hready⟩ := h.split
  have hdebt := hearlier.debt_le hrate (t := g.now) (by
    intro s hs
    obtain ⟨b, hb, rfl⟩ := List.mem_map.mp hs
    exact (floor_le_now origin r hburst b.now).trans (hbefore b hb))
  rw [max_eq_left (by linarith), zero_add, List.map_map] at hdebt
  change clockAfter clock (before.map (slotOf origin r)) - g.now
    ≤ (before.map (Grant.unpaid r.bytesPerSec g.now)).sum / r.bytesPerSec at hdebt
  have howed : 0 ≤ (before.map (Grant.unpaid r.bytesPerSec g.now)).sum / r.bytesPerSec := by
    refine div_nonneg (List.sum_nonneg ?_) hrate.le
    intro u hu
    obtain ⟨b, -, rfl⟩ := List.mem_map.mp hu
    exact le_max_left _ _
  have hown : 0 ≤ (g.bytes : ℚ) / r.bytesPerSec := div_nonneg (Nat.cast_nonneg _) hrate.le
  have hstart : max (clockAfter clock (before.map (slotOf origin r))) (r.floor origin g.now) - g.now
      ≤ (before.map (Grant.unpaid r.bytesPerSec g.now)).sum / r.bytesPerSec := by
    rw [sub_le_iff_le_add]
    refine max_le (by linarith) ?_
    linarith [floor_le_now origin r hburst g.now]
  change g.readyAt = _ + (g.bytes : ℚ) / r.bytesPerSec at hready
  rw [add_div, Grant.wait, Grant.ends, sub_le_iff_le_add]
  refine max_le (by linarith) ?_
  rw [hready]
  change max (clockAfter clock (before.map (slotOf origin r))) (r.floor origin g.now) + _ ≤ _
  linarith

end

theorem InOrder.grants {start : ℚ} {calls : List Call} (h : InOrder start calls) (origin : ℚ) (r : RateLimiter) :
    (start :: (acquireAll origin r calls).map fun g => g.now).Pairwise (· ≤ ·) := by
  have hnow : (acquireAll origin r calls).map (fun g => g.now) = calls.map Call.now := by
    conv_rhs => rw [← acquireAll_calls origin r calls, List.map_map]
    rfl
  rw [hnow]
  exact h

/-- A limiter made at `created`, and calls of it at nondecreasing times: over every interval the
bytes whose wait ends within it are at most what the rate gives for it and the burst, and one
call's; no call is ready before one that reserved earlier; and every wait is at most what the
unpaid bytes before it and its own take. -/
theorem speed_limit (origin created : ℚ) (bytesPerSec : ℕ) (calls : List Call) (horder : InOrder created calls) :
    (∀ start L, 0 ≤ L → ∃ one : ℕ,
        (one = 0 ∨ ∃ g ∈ endingWithin start (start + L) (acquireAll origin (.new bytesPerSec created) calls), g.bytes = one) ∧
        bytesOf (endingWithin start (start + L) (acquireAll origin (.new bytesPerSec created) calls))
          ≤ max (bytesPerSec : ℚ) 1 * (L + 1 / 10) + one) ∧
    ((acquireAll origin (.new bytesPerSec created) calls).Pairwise fun a b => a.readyAt ≤ b.readyAt ∧ a.ends ≤ b.ends) ∧
    (∀ before g after, acquireAll origin (.new bytesPerSec created) calls = before ++ g :: after →
      g.wait ≤ ((before.map (Grant.unpaid (max (bytesPerSec : ℚ) 1) g.now)).sum + g.bytes) / max (bytesPerSec : ℚ) 1) := by
  have hrate : 0 < (RateLimiter.new bytesPerSec created).bytesPerSec :=
    lt_of_lt_of_le zero_lt_one (le_max_right (bytesPerSec : ℚ) 1)
  have hburst : (0 : ℚ) ≤ (RateLimiter.new bytesPerSec created).burst := by norm_num [RateLimiter.new]
  have hreserved := acquireAll_reserved origin (.new bytesPerSec created) (.new bytesPerSec created) rfl rfl calls
  have htimes := horder.grants origin (.new bytesPerSec created)
  obtain ⟨hcreated, hnows⟩ := List.pairwise_cons.mp htimes
  refine ⟨?_, ?_, ?_⟩
  · intro start L hL
    cases hwindow : endingWithin start (start + L) (acquireAll origin (.new bytesPerSec created) calls) with
    | nil =>
      refine ⟨0, Or.inl rfl, ?_⟩
      have hgives : 0 ≤ max (bytesPerSec : ℚ) 1 * (L + 1 / 10) := mul_nonneg hrate.le (by linarith)
      simpa [bytesOf] using hgives
    | cons first rest =>
      refine ⟨first.bytes, Or.inr ⟨first, List.mem_cons_self, rfl⟩, ?_⟩
      have hle := bytesOf_window_le hrate hburst hreserved hwindow
      norm_num [RateLimiter.new] at hle ⊢
      exact hle
  · have hready := List.pairwise_map.mp (hreserved.slots.pairwise hrate)
    refine (hready.and (List.pairwise_map.mp hnows)).imp ?_
    rintro a b ⟨hab, hnow⟩
    exact ⟨hab, max_le_max hnow hab⟩
  · intro before g after hsplit
    rw [hsplit] at hreserved hcreated hnows
    rw [List.map_append, List.pairwise_append] at hnows
    refine wait_le hrate hburst hreserved (hcreated g.now (by simp)) ?_
    intro b hb
    exact hnows.2.2 b.now (List.mem_map_of_mem hb) g.now (by simp)

theorem speed_limit_two_callers :
    InOrder 0 [⟨0, 50⟩, ⟨1, 30⟩] ∧
      ((acquireAll 0 (.new 100 0) [⟨0, 50⟩, ⟨1, 30⟩]).Pairwise fun a b => a.readyAt ≤ b.readyAt ∧ a.ends ≤ b.ends) := by
  have horder : InOrder 0 [⟨0, 50⟩, ⟨1, 30⟩] := by simp [InOrder]
  exact ⟨horder, (speed_limit 0 0 100 _ horder).2.1⟩

end Hyperfetch.Worker
