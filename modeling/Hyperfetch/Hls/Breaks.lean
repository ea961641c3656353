import Hyperfetch.Hls.Recorded

/-!
# Which breaks a live recording marks

A mark waits for the next segment taken, not for the next written: where
segments between two written ones are gone, the later is marked only if it is
announced (`Announced`). Its mark is put down before it is written. That is all
that keeps a recording from marking every break (`marks_every_break_iff`).
-/

namespace Hyperfetch.Live

open Weft

variable {F I : Type}

def Settled.Written (d : Settled F I) : Prop := ∃ head data, d.fate = .written head data

/-- `y` is the next written after `x`, the segments `between` them being gone. -/
def WrittenNext (log : List (Settled F I)) (y : Settled F I) (between : List (Settled F I)) (x : Settled F I)
    (older : List (Settled F I)) : Prop :=
  y :: (between ++ x :: older) <:+ log ∧ y.Written ∧ x.Written ∧ ∀ d ∈ between, d.fate = .gone

/-- Flagged a discontinuity, or a gap or a restart was found before it. -/
def Taken.Breaks (x : Taken F I) : Prop := x.listed.discontinuity = true ∨ x.found = true

/-- A segment is marked where it or one gone before it breaks off or there is
one gone before it, and only starts of segments are marked. -/
structure MarksEveryBreak (k : Track F I) : Prop where
  marked : ∀ y between x older, WrittenNext k.done y between x older →
    (y.taken.Breaks ∨ ∃ d ∈ between, d.taken.Breaks ∨ d.fate = .gone) →
    (fileOf (between ++ x :: older)).length ∈ k.breaks
  starts : ∀ offset ∈ k.breaks, ∃ d older, d :: older <:+ k.done ∧ d.Written ∧ offset = (fileOf older).length

/-- Where segments are gone, the next written is flagged itself, or a gap or a
restart was found before it, or before one from which on all are flagged. -/
def Announced (k : Track F I) : Prop :=
  ∀ y between x older, WrittenNext k.done y between x older → between ≠ [] →
    y.taken.Breaks ∨ owed ((between ++ x :: older).map (·.taken)) = true

/-- A write failed, of a segment that is marked and not the first. -/
def TornAtMark (k : Track F I) : Prop := ∃ x part, k.torn = some (x, part) ∧ x.marked = true ∧ 0 < k.bytes

/-! ## Where segments start -/

theorem fileOf_mono (d : Settled F I) (older : List (Settled F I)) :
    (fileOf older).length ≤ (fileOf (d :: older)).length := by
  rw [fileOf, List.length_append]
  omega

/-- A segment written has bytes. -/
theorem fileOf_grows [DecidableEq I] {d : Settled F I} {older : List (Settled F I)} (hwell : WellWritten d older)
    (hwritten : d.Written) : (fileOf older).length < (fileOf (d :: older)).length := by
  obtain ⟨head, data, hfate⟩ := hwritten
  have hdata := (hwell head data hfate).1
  have hpos := List.length_pos_iff.mpr hdata
  rw [fileOf, hfate, List.length_append, Fate.bytes, Track.joined, List.length_append]
  omega

theorem fileOf_suffix {older log : List (Settled F I)} (h : older <:+ log) :
    (fileOf older).length ≤ (fileOf log).length := by
  obtain ⟨front, rfl⟩ := h
  induction front with
  | nil => exact Nat.le_refl _
  | cons d front ih => exact ih.trans (fileOf_mono d _)

theorem mem_breaksOf {log : List (Settled F I)} {offset : Nat} :
    offset ∈ breaksOf log ↔ ∃ d older, d :: older <:+ log ∧ d.Written ∧ d.taken.marked = true ∧ 0 < offset ∧
      offset = (fileOf older).length := by
  induction log with
  | nil => simp [breaksOf]
  | cons e log ih =>
    obtain ⟨x, fate⟩ := e
    -- an entry of the longer log is the newest or one of the others
    have hsplit : (∃ d older, d :: older <:+ (⟨x, fate⟩ : Settled F I) :: log ∧ d.Written ∧ d.taken.marked = true ∧
        0 < offset ∧ offset = (fileOf older).length) ↔
        ((⟨x, fate⟩ : Settled F I).Written ∧ x.marked = true ∧ 0 < offset ∧ offset = (fileOf log).length) ∨
          offset ∈ breaksOf log := by
      rw [ih]
      constructor
      · rintro ⟨d, older, hsuffix, hd⟩
        rcases List.suffix_cons_iff.mp hsuffix with heq | hsuffix
        · cases heq
          exact Or.inl hd
        · exact Or.inr ⟨d, older, hsuffix, hd⟩
      · rintro (hd | ⟨d, older, hsuffix, hd⟩)
        · exact ⟨_, log, List.suffix_rfl, hd⟩
        · exact ⟨d, older, hsuffix.trans (List.suffix_cons _ _), hd⟩
    rw [hsplit]
    cases fate with
    | gone =>
      have hgone : ¬ (⟨x, .gone⟩ : Settled F I).Written := by
        rintro ⟨head, data, hfate⟩
        cases hfate
      simp [breaksOf, hgone]
    | written head data =>
      have hwritten : (⟨x, .written head data⟩ : Settled F I).Written := ⟨head, data, rfl⟩
      rw [breaksOf, List.mem_append, or_comm]
      simp only [hwritten, true_and, Bool.and_eq_true, decide_eq_true_eq]
      constructor
      · rintro (hmem | hmem)
        · split at hmem
          · rename_i hmarked
            rw [List.mem_singleton] at hmem
            subst hmem
            exact Or.inl ⟨hmarked.1, hmarked.2, rfl⟩
          · cases hmem
        · exact Or.inr hmem
      · rintro (⟨hmarked, hpos, rfl⟩ | hmem)
        · refine Or.inl ?_
          rw [if_pos ⟨hmarked, hpos⟩]
          exact List.mem_singleton_self _
        · exact Or.inr hmem

theorem mem_tornBreak {k : Track F I} {offset : Nat} : offset ∈ tornBreak k ↔ TornAtMark k ∧ offset = k.bytes := by
  unfold tornBreak TornAtMark
  split
  · rename_i x part htorn
    by_cases hmark : x.marked = true ∧ 0 < k.bytes
    · simp [htorn, hmark.1, hmark.2]
    · simp only [Bool.and_eq_true, decide_eq_true_eq, if_neg hmark, List.not_mem_nil, false_iff]
      rintro ⟨⟨y, part', hsome, hy⟩, _⟩
      rw [htorn] at hsome
      cases hsome
      exact hmark hy
  · rename_i hnone
    simp [hnone]

/-! ## The marks -/

section Sound

variable [DecidableEq I] {k : Track F I} {rest : List (Taken F I)} {d x y : Settled F I}
  {between older : List (Settled F I)}

/-- What was settled was taken after what is older. -/
theorem Sound.taken_suffix (h : Sound k rest) (hd : d :: older <:+ k.done) :
    d.taken :: older.map (·.taken) <:+ k.took := by
  have hdone : d.taken :: older.map (·.taken) <:+ k.done.map (·.taken) :=
    hd.map fun e : Settled F I => e.taken
  rw [h.took]
  exact (hdone.trans (List.suffix_append _ _)).trans (List.suffix_append _ _)

/-- A segment is marked at its start in the file just where it was marked when
it was taken. -/
theorem Sound.mem_breaks_iff (h : Sound k rest) (hd : d :: older <:+ k.done) (hwritten : d.Written)
    (hpos : 0 < (fileOf older).length) : (fileOf older).length ∈ k.breaks ↔ d.taken.marked = true := by
  have hgrows := fileOf_grows (h.written d older hd) hwritten
  rw [h.breaks, List.mem_append, mem_breaksOf, mem_tornBreak, h.bytes]
  constructor
  · rintro (⟨e, older', he, hewritten, hmarked, _, hsame⟩ | ⟨_, hsame⟩)
    · have hegrows := fileOf_grows (h.written e older' he) hewritten
      have heq := entry_unique fileOf_mono hd he hgrows hegrows hsame
      cases heq
      exact hmarked
    · have hle := fileOf_suffix hd
      omega
  · intro hmarked
    exact Or.inl ⟨d, older, hd, hwritten, hmarked, hpos, rfl⟩

/-- There is something before the later of two segments written. -/
theorem Sound.later_pos (h : Sound k rest) (hnext : WrittenNext k.done y between x older) :
    0 < (fileOf (between ++ x :: older)).length := by
  obtain ⟨hsuffix, _, hx, _⟩ := hnext
  have htail : x :: older <:+ between ++ x :: older := List.suffix_append _ _
  have hxs : x :: older <:+ k.done := htail.trans ((List.suffix_cons y _).trans hsuffix)
  have hgrows := fileOf_grows (h.written x older hxs) hx
  have hle := fileOf_suffix htail
  omega

theorem Sound.marked_iff (h : Sound k rest) (hnext : WrittenNext k.done y between x older) :
    (fileOf (between ++ x :: older)).length ∈ k.breaks ↔
      y.taken.Breaks ∨ owed ((between ++ x :: older).map (·.taken)) = true := by
  rw [h.mem_breaks_iff hnext.1 hnext.2.1 (h.later_pos hnext)]
  have hmarked : MarkedFor y.taken ((between ++ x :: older).map (·.taken)) :=
    h.marked _ _ (h.taken_suffix hnext.1)
  rw [hmarked, Bool.or_eq_true, Bool.or_eq_true]
  rfl

/-- A track marks every break just where those of segments that are gone are
announced and no write failed at a mark. -/
theorem Sound.marksEveryBreak_iff (h : Sound k rest) : MarksEveryBreak k ↔ Announced k ∧ ¬ TornAtMark k := by
  constructor
  · intro hmarks
    constructor
    · intro y between x older hnext hgone
      rw [← h.marked_iff hnext]
      apply hmarks.marked y between x older hnext
      obtain ⟨d, hd⟩ := List.exists_mem_of_ne_nil between hgone
      exact Or.inr ⟨d, hd, Or.inr (hnext.2.2.2 d hd)⟩
    · intro htorn
      have hmem : k.bytes ∈ k.breaks := by
        rw [h.breaks]
        exact List.mem_append_right _ (mem_tornBreak.mpr ⟨htorn, rfl⟩)
      -- all that was written starts before where the write failed
      obtain ⟨d, older, hd, hwritten, hsame⟩ := hmarks.starts _ hmem
      have hgrows := fileOf_grows (h.written d older hd) hwritten
      have hle := fileOf_suffix hd
      rw [h.bytes] at hsame
      omega
  · rintro ⟨hannounced, htorn⟩
    constructor
    · intro y between x older hnext hbreaks
      rw [h.marked_iff hnext]
      cases between with
      | nil =>
        rcases hbreaks with hbreaks | ⟨d, hd, _⟩
        · exact Or.inl hbreaks
        · cases hd
      | cons d between => exact hannounced y _ x older hnext (List.cons_ne_nil _ _)
    · intro offset hmem
      rw [h.breaks, List.mem_append] at hmem
      rcases hmem with hmem | hmem
      · obtain ⟨d, older, hd, hwritten, _, _, hoffset⟩ := mem_breaksOf.mp hmem
        exact ⟨d, older, hd, hwritten, hoffset⟩
      · exact absurd (mem_tornBreak.mp hmem).1 htorn

end Sound

/-- In every recording a track's file begins with what the log says was written,
and every break in it is marked just where those of segments that are gone are
announced and no write failed at a mark. -/
theorem marks_every_break_iff [DecidableEq I] (o : Setup F) {s : State F I}
    (h : (recordings o).toTSys.Reachable s) (t : Nat) :
    fileOf (s.tracks t).done <+: (s.tracks t).file ∧
      (MarksEveryBreak (s.tracks t) ↔ Announced (s.tracks t) ∧ ¬ TornAtMark (s.tracks t)) := by
  have hsound := (kept o h).sound t
  refine ⟨?_, hsound.marksEveryBreak_iff⟩
  rw [hsound.file]
  exact List.prefix_append _ _

/-! ## A stream of three segments -/

/-- Times in thousandths of a second. -/
def thousandths : Seconds Int where
  add a b := a + b
  sub a b := a - b
  min a b := if a ≤ b then a else b
  lt a b := a < b
  le a b := a ≤ b
  half a := a / 2
  milli := 1
  zero := 0
  negInfinity := -1000000000000000
  ofNat n := n * 1000
  clockText a := (toString a).toList
  minutesText a := (toString (a / 60000)).toList

/-- Records a stream from its oldest segment to its end. -/
def fromOldest : Setup Int where
  clock := thousandths
  files := ["live.ts".toList]
  start := .oldest
  recordSeconds := none
  maxBytes := none
  isAd _ := false

/-- Segment `n`, of a second. -/
def second (n : Nat) (flagged : Bool) : HlsSegment Int Unit × Int :=
  ({ index := n, sequence := n, url := [], durationSecs := 1000, init := none, discontinuity := flagged }, n * 1000)

/-- Of three segments, the second is gone. -/
def secondGone (segments : List (HlsSegment Int Unit × Int)) : List (State.Event Int Unit) :=
  [.listings [{ segments, ended := true }], .answer (.body [1] (.ok []) none), .answer .expired,
    .answer (.body [2] (.ok []) none)]

/-- The third segment is flagged: the recording marks it. -/
theorem marks_every_break_iff_flagged :
    ∃ s, (recordings fromOldest).run (fresh fromOldest) (secondGone [second 1 false, second 2 false, second 3 true]) =
      some s ∧ (s.tracks 0).file = [1, 2] ∧ (s.tracks 0).breaks = [1] ∧ MarksEveryBreak (s.tracks 0) := by
  obtain ⟨s, hrun, hfile, hbreaks, htorn, y, d, x, hdone, hy, hd⟩ :
      ∃ s, (recordings fromOldest).run (fresh fromOldest)
          (secondGone [second 1 false, second 2 false, second 3 true]) = some s ∧
        (s.tracks 0).file = [1, 2] ∧ (s.tracks 0).breaks = [1] ∧ (s.tracks 0).torn = none ∧
        ∃ y d x, (s.tracks 0).done = [y, d, x] ∧ y.taken.listed.discontinuity = true ∧ d.fate = .gone :=
    ⟨_, rfl, rfl, rfl, rfl, _, _, _, rfl, rfl, rfl⟩
  refine ⟨s, hrun, hfile, hbreaks, ?_⟩
  apply (marks_every_break_iff fromOldest (Machine.reachable_run (.init (Or.inl rfl)) hrun) 0).2.mpr
  constructor
  · intro y' between x' older hnext _
    obtain ⟨hsuffix, hwritten, _⟩ := hnext
    rw [hdone] at hsuffix
    rcases List.suffix_cons_iff.mp hsuffix with heq | hsuffix
    · rw [(List.cons.inj heq).1]
      exact Or.inl (Or.inl hy)
    · rcases List.suffix_cons_iff.mp hsuffix with heq | hsuffix
      · obtain ⟨head, data, hfate⟩ := hwritten
        rw [(List.cons.inj heq).1, hd] at hfate
        cases hfate
      · have hlen := hsuffix.length_le
        simp at hlen
  · rintro ⟨y', part, hsome, _⟩
    rw [htorn] at hsome
    cases hsome

/-- The second segment is flagged, and gone: the third is not marked. -/
theorem gone_unmarked :
    ∃ s : State Int Unit, (recordings fromOldest).toTSys.Reachable s ∧ (s.tracks 0).file = [1, 2] ∧ (s.tracks 0).breaks = [] ∧
      ¬ MarksEveryBreak (s.tracks 0) := by
  obtain ⟨s, hrun, hfile, hbreaks, y, d, x, hdone, hy, hd, hx⟩ :
      ∃ s, (recordings fromOldest).run (fresh fromOldest)
          (secondGone [second 1 false, second 2 true, second 3 false]) = some s ∧
        (s.tracks 0).file = [1, 2] ∧ (s.tracks 0).breaks = [] ∧
        ∃ y d x, (s.tracks 0).done = [y, d, x] ∧ y.fate = .written none [2] ∧ d.fate = .gone ∧
          x.fate = .written none [1] :=
    ⟨_, rfl, rfl, rfl, _, _, _, rfl, rfl, rfl, rfl⟩
  refine ⟨s, Machine.reachable_run (.init (Or.inl rfl)) hrun, hfile, hbreaks, ?_⟩
  intro hmarks
  have hnext : WrittenNext (s.tracks 0).done y [d] x [] := by
    refine ⟨?_, ⟨_, _, hy⟩, ⟨_, _, hx⟩, ?_⟩
    · rw [hdone]
      exact List.suffix_rfl
    · intro e he
      rw [List.mem_singleton] at he
      subst he
      exact hd
  have hmem := hmarks.marked y [d] x [] hnext (Or.inr ⟨d, List.mem_singleton_self d, Or.inr hd⟩)
  rw [hbreaks] at hmem
  cases hmem

end Hyperfetch.Live
