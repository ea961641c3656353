import Hyperfetch.Weft.TSys
import Mathlib.Data.List.Nodup
import Mathlib.Tactic.Common

/-!
# The ramp of a download's connections (`engine.rs`)

`Ramp::next`, and the loop that starts workers as it widens. Times are
nanoseconds; `f64` is a type with the operations the code uses and no laws
(`Speeds`). A step back is the last change of the width (`Moves`), so no worker's
number is ever started twice (`settles_once`).
-/

namespace Hyperfetch

open Weft

/-- What the code does with an `f64`. -/
structure Speeds (F : Type) where
  /-- Of a count of bytes. -/
  ofNat : Nat → F
  /-- Seconds, of nanoseconds. -/
  secs : Nat → F
  div : F → F → F
  mul : F → F → F
  lt : F → F → Bool
  le : F → F → Bool
  zero : F
  three : F
  /-- `RAMP_GAIN`. -/
  rampGain : F

/-- `RAMP_STARTUPS`. -/
def rampStartups : Nat := 4

/-- `MIN_RAMP_WINDOW` and `MAX_RAMP_WINDOW`. -/
def minRampWindow : Nat := 500 * 1000000

def maxRampWindow : Nat := 5000 * 1000000

/-- How long a window is, when a new request takes `startup` to answer. -/
def rampWindow (startup : Nat) : Nat := min (max (startup * rampStartups) minRampWindow) maxRampWindow

structure Ramp (F : Type) where
  width : Nat
  max : Nat
  began : Nat × Nat
  speed : Option F
  trial : Option F
  done : Bool
  settled : Option Nat

namespace Ramp

/-- What `next` is called with. -/
structure Call where
  now : Nat
  downloaded : Nat
  left : Nat
  startup : Nat

variable {F : Type}

def new (width max now downloaded : Nat) : Ramp F where
  width := width
  max := max
  began := (now, downloaded)
  speed := none
  trial := none
  done := decide (max ≤ width)
  settled := none

/-- One connection more, if something moved and one more has the time to show
what it brings. -/
def tryOneMore (f : Speeds F) (r : Ramp F) (speed : F) (left window : Nat) : Option Nat × Ramp F :=
  if f.le speed f.zero then (none, r)
  else if decide (r.max ≤ r.width) || f.lt (f.ofNat left) (f.mul (f.mul f.three speed) (f.secs window)) then
    (none, { r with done := true, settled := if r.max ≤ r.width then some r.width else none })
  else (some (r.width + 1), { r with trial := some speed, width := r.width + 1 })

/-- The width to go on at, when it changes. -/
def next (f : Speeds F) (r : Ramp F) (c : Call) : Option Nat × Ramp F :=
  let elapsed := c.now - r.began.1
  if elapsed < rampWindow c.startup then (none, r)
  else
    let speed := f.div (f.ofNat (c.downloaded - r.began.2)) (f.secs elapsed)
    let first := r.speed.isNone
    let measured := { r with began := (c.now, c.downloaded), speed := some speed }
    if r.done || first then (none, measured)
    else
      match r.trial with
      | none => tryOneMore f measured speed c.left (rampWindow c.startup)
      | some before =>
        let r := { measured with trial := none }
        if f.lt speed before then
          (some (r.width - 1), { r with done := true, width := r.width - 1, settled := some (r.width - 1) })
        else if f.lt speed (f.mul before f.rampGain) then (none, { r with done := true, settled := some r.width })
        else tryOneMore f r speed c.left (rampWindow c.startup)

/-! ## What a call does -/

/-- What a call does to the ramp, and what it gives. -/
inductive Moves (r : Ramp F) : Option Nat × Ramp F → Prop
  | stays {r' : Ramp F} (width : r'.width = r.width) (max : r'.max = r.max) (done : r'.done = r.done)
      (settled : r'.settled = r.settled) (trial : r'.trial.isSome → r.trial.isSome) : Moves r (none, r')
  | settles {r' : Ramp F} (open_ : r.done = false) (width : r'.width = r.width) (max : r'.max = r.max)
      (done : r'.done = true) (trial : r'.trial = none) : Moves r (none, r')
  | widens {r' : Ramp F} (open_ : r.done = false) (room : r.width < r.max) (width : r'.width = r.width + 1)
      (max : r'.max = r.max) (done : r'.done = false) (settled : r'.settled = r.settled) : Moves r (some (r.width + 1), r')
  | backs {r' : Ramp F} (open_ : r.done = false) (trial : r.trial.isSome) (width : r'.width = r.width - 1)
      (max : r'.max = r.max) (done : r'.done = true) (untried : r'.trial = none)
      (settled : r'.settled = some (r.width - 1)) : Moves r (some (r.width - 1), r')

/-- One more is tried only off trial. -/
theorem moves_tryOneMore (f : Speeds F) {r m : Ramp F} (hopen : r.done = false) (hwidth : m.width = r.width)
    (hmax : m.max = r.max) (hdone : m.done = r.done) (hsettled : m.settled = r.settled) (htrial : m.trial = none)
    (speed : F) (left window : Nat) : Moves r (tryOneMore f m speed left window) := by
  unfold tryOneMore
  split
  · apply Moves.stays hwidth hmax hdone hsettled
    intro hsome
    rw [htrial] at hsome
    cases hsome
  · split
    · refine Moves.settles hopen ?_ ?_ rfl ?_
      · exact hwidth
      · exact hmax
      · exact htrial
    · rename_i hmore
      rw [Bool.or_eq_true, not_or, decide_eq_true_eq, hmax, hwidth] at hmore
      rw [hwidth]
      refine Moves.widens hopen (by omega) rfl ?_ ?_ ?_
      · exact hmax
      · exact hdone.trans hopen
      · exact hsettled

theorem moves_next (f : Speeds F) (r : Ramp F) (c : Call) : Moves r (next f r c) := by
  unfold next
  dsimp only
  split
  · exact Moves.stays rfl rfl rfl rfl id
  · split
    · exact Moves.stays rfl rfl rfl rfl id
    · rename_i hgoes
      rw [Bool.or_eq_true, not_or, Bool.not_eq_true] at hgoes
      split
      · rename_i htrial
        refine moves_tryOneMore f hgoes.1 ?_ ?_ ?_ ?_ ?_ _ _ _
        · rfl
        · rfl
        · rfl
        · rfl
        · exact htrial
      · rename_i before htrial
        split
        · refine Moves.backs hgoes.1 ?_ rfl rfl rfl rfl rfl
          rw [htrial]
          rfl
        · split
          · exact Moves.settles hgoes.1 rfl rfl rfl rfl
          · refine moves_tryOneMore f hgoes.1 ?_ ?_ ?_ ?_ ?_ _ _ _
            · rfl
            · rfl
            · rfl
            · rfl
            · rfl

/-! ## Every sequence of calls -/

/-- Ramps from `initial` connections to at most `most`. -/
def calls (f : Speeds F) (initial most : Nat) : Machine (Ramp F) Call where
  init r := ∃ now downloaded, r = new initial most now downloaded
  step r c := some (next f r c).2

/-- What the width was ever, and above where it began while one is on trial. -/
structure Within (initial most : Nat) (r : Ramp F) : Prop where
  initial_le : initial ≤ r.width
  le_max : r.width ≤ r.max
  max : r.max = most
  trial : r.trial.isSome → initial < r.width
  settled : r.settled.isSome → r.done = true
  untried : r.done = true → r.trial = none

theorem Within.moves {initial most : Nat} {r : Ramp F} (h : Within initial most r) {o : Option Nat × Ramp F}
    (hmoves : Moves r o) : Within initial most o.2 := by
  have hle := h.initial_le
  have hmost := h.le_max
  cases hmoves with
  | stays width max done settled trial =>
    constructor
    · rw [width]
      exact hle
    · rw [width, max]
      exact hmost
    · rw [max]
      exact h.max
    · intro hsome
      rw [width]
      exact h.trial (trial hsome)
    · rw [settled, done]
      exact h.settled
    · intro hdone
      rw [done] at hdone
      cases htrial : (_ : Ramp F).trial with
      | none => rfl
      | some before =>
        have hsome := trial (by rw [htrial]; rfl)
        rw [h.untried hdone] at hsome
        cases hsome
  | settles _ width max done trial =>
    constructor
    · rw [width]
      exact hle
    · rw [width, max]
      exact hmost
    · rw [max]
      exact h.max
    · intro hsome
      rw [trial] at hsome
      cases hsome
    · intro _
      exact done
    · intro _
      exact trial
  | widens _ room width max done settled =>
    constructor
    · rw [width]
      omega
    · rw [width, max]
      omega
    · rw [max]
      exact h.max
    · intro _
      rw [width]
      omega
    · intro hsome
      rw [settled] at hsome
      have hdone := h.settled hsome
      simp_all
    · intro hdone
      rw [done] at hdone
      cases hdone
  | backs _ trial width max done untried settled =>
    have hlt := h.trial trial
    constructor
    · rw [width]
      omega
    · rw [width, max]
      omega
    · rw [max]
      exact h.max
    · intro hsome
      rw [untried] at hsome
      cases hsome
    · intro _
      exact done
    · intro _
      exact untried

theorem within_new {initial most : Nat} (h : initial ≤ most) (now downloaded : Nat) :
    Within initial most (new initial most now downloaded : Ramp F) where
  initial_le := Nat.le_refl _
  le_max := h
  max := rfl
  trial hsome := by cases hsome
  settled hsome := by cases hsome
  untried _ := rfl

theorem within_reachable (f : Speeds F) {initial most : Nat} (h : initial ≤ most) {r : Ramp F}
    (hreach : (calls f initial most).toTSys.Reachable r) : Within initial most r := by
  induction hreach with
  | init hinit =>
    obtain ⟨now, downloaded, rfl⟩ := hinit
    exact within_new h now downloaded
  | step _ hstep ih =>
    obtain ⟨c, hstep⟩ := hstep
    cases hstep
    exact ih.moves (moves_next f _ c)

/-- Once done, nothing but the measurement changes. -/
theorem done_stays (f : Speeds F) {initial most : Nat} {r r' : Ramp F} (hdone : r.done = true)
    (hsteps : (calls f initial most).toTSys.Steps r r') :
    r'.done = true ∧ r'.width = r.width ∧ r'.settled = r.settled := by
  induction hsteps with
  | refl => exact ⟨hdone, rfl, rfl⟩
  | tail _ hstep ih =>
    obtain ⟨c, hstep⟩ := hstep
    cases hstep
    rename_i t _
    obtain ⟨htdone, htwidth, htsettled⟩ := ih
    have hmoves := moves_next f t c
    generalize next f t c = o at hmoves
    cases hmoves with
    | stays width _ done settled _ => exact ⟨done.trans htdone, width.trans htwidth, settled.trans htsettled⟩
    | settles open_ => exact absurd htdone (by rw [open_]; exact Bool.false_ne_true)
    | widens open_ => exact absurd htdone (by rw [open_]; exact Bool.false_ne_true)
    | backs open_ => exact absurd htdone (by rw [open_]; exact Bool.false_ne_true)

/-! ## The workers it starts -/

/-- The loop of a download that may adapt: its ramp while it has one, the width
workers stop at, the numbers of the workers started, newest first, and of those
that still run. -/
structure Download (F : Type) where
  ramp : Option (Ramp F)
  width : Nat
  started : List Nat
  running : List Nat

inductive Event
  /-- A tick of the loop. -/
  | tick (c : Call)
  /-- A worker stops. -/
  | stops (id : Nat)

/-- The numbers `was..next`, newest first. -/
def numbers (was next : Nat) : List Nat := ((List.range next).drop was).reverse

/-- Goes on at another width, if one is given: the workers between are started. -/
def goOn (d : Download F) : Option Nat → Download F
  | some width =>
    { d with width, started := numbers d.width width ++ d.started, running := numbers d.width width ++ d.running }
  | none => d

/-- A tick: what the ramp says is done, and the ramp is dropped once it is done. -/
def tick (f : Speeds F) (d : Download F) (c : Call) : Download F :=
  match d.ramp with
  | none => d
  | some r => { goOn d (next f r c).1 with ramp := if (next f r c).2.done then none else some (next f r c).2 }

/-- Downloads that begin with `initial` workers, of at most `most`. -/
def downloads (f : Speeds F) (initial most : Nat) : Machine (Download F) Event where
  init d := ∃ (adapts : Bool) (now downloaded : Nat), d =
    { ramp := (if adapts then some (new initial most now downloaded) else none).filter (!·.done)
      width := initial
      started := numbers 0 initial
      running := numbers 0 initial }
  step d
    | .tick c => some (tick f d c)
    | .stops id => some { d with running := d.running.erase id }

/-- While there is a ramp all numbers below the width were started, each once. -/
structure Numbered (d : Download F) : Prop where
  once : d.started.Nodup
  running : d.running.Sublist d.started
  ramp : ∀ r, d.ramp = some r → r.done = false ∧ r.width = d.width ∧ ∀ id ∈ d.started, id < d.width

theorem numbers_succ (width : Nat) : numbers width (width + 1) = [width] := by
  simp [numbers, List.range_succ]

theorem numbers_back (width : Nat) : numbers width (width - 1) = [] := by
  simp [numbers]

theorem numbered_tick (f : Speeds F) {d : Download F} (h : Numbered d) (c : Call) : Numbered (tick f d c) := by
  unfold tick
  split
  · exact h
  · rename_i r hramp
    obtain ⟨hopen, hwidth, hbelow⟩ := h.ramp r hramp
    have hmoves := moves_next f r c
    generalize next f r c = o at hmoves ⊢
    cases hmoves with
    | stays width _ done =>
      refine ⟨h.once, h.running, ?_⟩
      intro r'' hr''
      dsimp only at hr''
      rw [done, hopen] at hr''
      cases hr''
      exact ⟨done.trans hopen, width.trans hwidth, hbelow⟩
    | settles _ _ _ done =>
      refine ⟨h.once, h.running, ?_⟩
      intro r'' hr''
      dsimp only at hr''
      rw [done] at hr''
      cases hr''
    | widens _ _ width _ done =>
      rw [hwidth] at width
      rw [hwidth]
      unfold goOn
      dsimp only
      rw [numbers_succ]
      constructor
      · -- the number is above all started before
        apply List.nodup_cons.mpr
        refine ⟨?_, h.once⟩
        intro hmem
        exact Nat.lt_irrefl _ (hbelow d.width hmem)
      · exact h.running.cons_cons d.width
      · intro r'' hr''
        rw [done] at hr''
        cases hr''
        refine ⟨done, width, ?_⟩
        intro id hid
        rcases List.mem_cons.mp hid with rfl | hid
        · exact Nat.lt_succ_self d.width
        · exact Nat.lt_succ_of_lt (hbelow id hid)
    | backs _ _ _ _ done =>
      rw [hwidth]
      unfold goOn
      dsimp only
      rw [numbers_back]
      refine ⟨h.once, h.running, ?_⟩
      intro r'' hr''
      rw [done] at hr''
      cases hr''

theorem numbered_reachable (f : Speeds F) {initial most : Nat} {d : Download F}
    (hreach : (downloads f initial most).toTSys.Reachable d) : Numbered d := by
  induction hreach with
  | init hinit =>
    obtain ⟨adapts, now, downloaded, rfl⟩ := hinit
    refine ⟨?_, List.Sublist.refl _, ?_⟩
    · simp [numbers, List.nodup_range]
    · intro r hr
      rw [Option.filter_eq_some_iff] at hr
      obtain ⟨hsome, hopen⟩ := hr
      split at hsome
      · cases hsome
        refine ⟨by simpa using hopen, rfl, ?_⟩
        intro id hid
        simpa [numbers] using hid
      · cases hsome
  | step _ hstep ih =>
    obtain ⟨event, hstep⟩ := hstep
    cases event with
    | tick c =>
      cases hstep
      exact numbered_tick f ih c
    | stops id =>
      cases hstep
      exact ⟨ih.once, (List.erase_sublist).trans ih.running, ih.ramp⟩

/-- Whatever is measured: the width stays between where it began and the most,
changes by at most one a call, and is what a call gives when it changes; once it
went down it never changes again, and what it settled at stays. No number of a
worker is started twice. -/
theorem settles_once (f : Speeds F) {initial most : Nat} (h : initial ≤ most) :
    (∀ r, (calls f initial most).toTSys.Reachable r →
      initial ≤ r.width ∧ r.width ≤ most ∧
      (∀ c, (next f r c).1 = (if (next f r c).2.width = r.width then none else some (next f r c).2.width) ∧
        (next f r c).2.width ≤ r.width + 1 ∧ r.width ≤ (next f r c).2.width + 1 ∧
        ((next f r c).2.width < r.width →
          ∀ r', (calls f initial most).toTSys.Steps (next f r c).2 r' → r'.width = (next f r c).2.width)) ∧
      ∀ best, r.settled = some best → ∀ r', (calls f initial most).toTSys.Steps r r' →
        r'.settled = some best ∧ r'.done = true ∧ r'.width = r.width) ∧
    ∀ d, (downloads f initial most).toTSys.Reachable d → d.started.Nodup ∧ d.running.Nodup := by
  constructor
  · intro r hreach
    have hwithin := within_reachable f h hreach
    refine ⟨hwithin.initial_le, ?_, ?_, ?_⟩
    · rw [← hwithin.max]
      exact hwithin.le_max
    · intro c
      have hmoves := moves_next f r c
      generalize next f r c = o at hmoves ⊢
      have hle := hwithin.initial_le
      cases hmoves with
      | stays width =>
        rw [width, if_pos rfl]
        exact ⟨rfl, by omega, by omega, fun hlt => absurd hlt (Nat.lt_irrefl _)⟩
      | settles _ width =>
        rw [width, if_pos rfl]
        exact ⟨rfl, by omega, by omega, fun hlt => absurd hlt (Nat.lt_irrefl _)⟩
      | widens _ _ width =>
        rw [width, if_neg (by omega)]
        exact ⟨rfl, by omega, by omega, fun hlt => absurd hlt (by omega)⟩
      | backs _ trial width _ done =>
        have hlt := hwithin.trial trial
        rw [width, if_neg (by omega)]
        refine ⟨rfl, by omega, by omega, ?_⟩
        intro _ r' hsteps
        rw [← width]
        exact (done_stays f done hsteps).2.1
    · intro best hbest r' hsteps
      have hdone := hwithin.settled (by rw [hbest]; rfl)
      obtain ⟨hdone', hwidth, hsettled⟩ := done_stays f hdone hsteps
      exact ⟨hsettled.trans hbest, hdone', hwidth⟩
  · intro d hreach
    have hnumbered := numbered_reachable f hreach
    exact ⟨hnumbered.once, hnumbered.running.nodup hnumbered.once⟩

/-- Bytes per second, and times and factors in tenths. -/
def tenths : Speeds Nat where
  ofNat n := n
  secs n := n / 100000000
  div a b := a * 10 / b
  mul a b := a * b / 10
  lt a b := a < b
  le a b := a ≤ b
  zero := 0
  three := 30
  rampGain := 11

/-- Half a second each: a start, a window, and a slower one with one more. -/
def slower : List Call :=
  [⟨500000000, 1000000, 10000000000, 0⟩, ⟨1000000000, 2000000, 10000000000, 0⟩, ⟨1500000000, 2500000, 10000000000, 0⟩]

/-- The third connection is taken back, for good. -/
theorem settles_once_slower :
    ∃ r, (calls tenths 2 8).run (new 2 8 0 0) slower = some r ∧ r.width = 2 ∧ r.settled = some 2 ∧
      ∀ r', (calls tenths 2 8).toTSys.Steps r r' → r'.width = 2 := by
  obtain ⟨r, hrun, hwidth, hsettled⟩ :
      ∃ r, (calls tenths 2 8).run (new 2 8 0 0) slower = some r ∧ r.width = 2 ∧ r.settled = some 2 :=
    ⟨_, rfl, rfl, rfl⟩
  refine ⟨r, hrun, hwidth, hsettled, ?_⟩
  intro r' hsteps
  obtain ⟨hruns, _⟩ := settles_once tenths (by decide : 2 ≤ 8)
  obtain ⟨_, _, _, hstays⟩ := hruns r (Machine.reachable_run (.init ⟨0, 0, rfl⟩) hrun)
  rw [← hwidth]
  exact (hstays 2 hsettled r' hsteps).2.2

end Ramp

end Hyperfetch
