import Hyperfetch.Chunk.Steal
import Hyperfetch.Weft.Streak

/-!
# The retry budget (`mark_failed`)

A chunk's `retries` is meant to count its failed attempts in a row that wrote
nothing, and the download fails once that is more than `max_retries`. The
history of a run says what it should count: an attempt that ends, by failing
or by being taken over, has written some of the chunk if its offset stands
past the chunk's start.

A takeover splits off what was written but keeps `retries`, so the failures
before those bytes and after them add up; and the counter is 32 bits wide.
Otherwise the budget is exact.
-/

namespace Hyperfetch

open Weft

namespace ChunkManager

/-- What a run's history keeps. -/
inductive Mark
  /-- An attempt at the chunk ended that had written some of it. -/
  | wrote (id : Nat)
  /-- An attempt that wrote nothing failed, and counts. -/
  | failed (id : Nat)
  | aborted
  deriving DecidableEq, Repr

/-- It is a counted failure of chunk `id`. -/
def Mark.countsFor (id : Nat) : Mark → Bool
  | .failed i => i == id
  | _ => false

/-- It says that some of chunk `id` was written. -/
def Mark.writes (id : Nat) : Mark → Bool
  | .wrote i => i == id
  | _ => false

/-- The counted failures of chunk `id` since a byte of it was last written. -/
def failures (id : Nat) (log : List Mark) : Nat := streak (Mark.countsFor id) (Mark.writes id) log

/-- Some chunk failed more than `limit` counted times with no byte written
between them. -/
def TooOften (limit : Nat) (log : List Mark) : Prop :=
  ∃ id, Exceeded (Mark.countsFor id) (Mark.writes id) limit log

/-- What the end of an attempt at chunk `id` tells, unless all of it was
written. -/
def attemptMark (m : ChunkManager) (id : Nat) (counts : Bool) : Option Mark :=
  match m.chunks[id]? with
  | none => none
  | some c =>
    let offset := (m.cells.leases c.lease).currentOffset
    if c.isCompleted || decide (c.range.end_ < offset) then none
    else if c.range.start < offset then some (.wrote id)
    else if counts then some (.failed id)
    else none

/-- What an event adds to the history. -/
def Session.mark (s : Session) : Event → Option Mark
  | .markFailed chunkId _ _ counts _ _ => s.manager.attemptMark chunkId counts
  | .takePicked =>
    match s.picked with
    | some (.silent id ..) => s.manager.attemptMark id false
    | _ => none
  | .abort .. => some .aborted
  | _ => none

/-- A session and the history of its run, newest first. -/
structure Recorded where
  session : Session
  log : List Mark

/-- The operations in any order, with their history. -/
def recordedSessions (total : Nat) : Machine Recorded Event where
  init r := Session.starts total r.session ∧ r.log = []
  step r e := (r.session.step e).map fun s => ⟨s, (r.session.mark e).toList ++ r.log⟩

/-- The failures chunk `id` has standing against it. -/
def standing (m : ChunkManager) (id : Nat) : Nat := (m.chunks[id]?).elim 0 Chunk.retries

/-- A takeover finds nothing written of a chunk with failures standing, and no
counted failure is its chunk's 2³²nd in a row. -/
def Session.budgeted (s : Session) : Event → Bool
  | .takePicked =>
    match s.picked with
    | some (.silent id ..) => s.manager.attemptMark id false == none || s.manager.standing id == 0
    | _ => true
  | .markFailed chunkId _ _ counts _ _ =>
    s.manager.fatal.isSome || s.manager.attemptMark chunkId counts != some (.failed chunkId) ||
      decide (s.manager.standing chunkId + 1 < 2 ^ 32)
  | _ => true

/-- The runs all of whose events are like that. -/
def budgetedSessions (total : Nat) : Machine Recorded Event where
  init := (recordedSessions total).init
  step r e := if r.session.budgeted e then (recordedSessions total).step r e else none

/-! ## The history -/

variable {m m' : ChunkManager} {total : Nat}

@[simp] theorem failures_nil (id : Nat) : failures id [] = 0 := rfl

theorem failures_wrote (i id : Nat) (log : List Mark) :
    failures i (.wrote id :: log) = if i = id then 0 else failures i log := by
  by_cases h : i = id
  · subst h
    rw [if_pos rfl]
    exact streak_reset (by simp [Mark.writes])
  · rw [if_neg h]
    exact streak_count (by simp [Mark.writes, Ne.symm h])

theorem failures_failed (i id : Nat) (log : List Mark) :
    failures i (.failed id :: log) = failures i log + if i = id then 1 else 0 := by
  have hcount : failures i (.failed id :: log) = failures i log + if Mark.countsFor i (.failed id) then 1 else 0 :=
    streak_count rfl
  rw [hcount]
  by_cases h : i = id
  · simp [Mark.countsFor, h]
  · simp [Mark.countsFor, h, Ne.symm h]

theorem tooOften_cons {limit : Nat} {k : Mark} {log : List Mark} :
    TooOften limit (k :: log) ↔ TooOften limit log ∨ ∃ id, limit < failures id (k :: log) := by
  unfold TooOften
  simp only [exceeded_cons, exists_or]
  rfl

theorem failures_le {limit : Nat} {log : List Mark} (h : ¬ TooOften limit log) (id : Nat) :
    failures id log ≤ limit :=
  Nat.not_lt.mp fun hlt => h ⟨id, exceeded_of_streak hlt⟩

/-! ## What leaves the counts alone -/

/-- The verdict, the limit and what stands against each chunk are as before. -/
structure Quiet (m m' : ChunkManager) : Prop where
  fatal : m'.fatal = m.fatal
  maxRetries : m'.maxRetries = m.maxRetries
  standing : ∀ i, m'.standing i = m.standing i

theorem Quiet.refl (m : ChunkManager) : Quiet m m := ⟨rfl, rfl, fun _ => rfl⟩

theorem Quiet.trans {m₁ m₂ m₃ : ChunkManager} (h : Quiet m₁ m₂) (h' : Quiet m₂ m₃) : Quiet m₁ m₃ :=
  ⟨h'.fatal.trans h.fatal, h'.maxRetries.trans h.maxRetries, fun i => (h'.standing i).trans (h.standing i)⟩

theorem standing_set {id : Nat} {c c' : Chunk} (hc : m.chunks[id]? = some c)
    (hchunks : m'.chunks = m.chunks.set id c') (i : Nat) :
    m'.standing i = if i = id then c'.retries else m.standing i := by
  unfold standing
  rw [hchunks]
  by_cases hi : i = id
  · subst hi
    rw [if_pos rfl, List.getElem?_set_self (lt_length hc)]
    rfl
  · rw [if_neg hi, List.getElem?_set_ne (Ne.symm hi)]

theorem standing_of_get {id : Nat} {c : Chunk} (hc : m.chunks[id]? = some c) : m.standing id = c.retries := by
  unfold standing
  rw [hc]
  rfl

theorem Quiet.set {id : Nat} {c c' : Chunk} (hc : m.chunks[id]? = some c)
    (hchunks : m'.chunks = m.chunks.set id c') (hretries : c'.retries = c.retries)
    (hfatal : m'.fatal = m.fatal) (hmax : m'.maxRetries = m.maxRetries) : Quiet m m' := by
  refine ⟨hfatal, hmax, fun i => ?_⟩
  rw [standing_set hc hchunks]
  split
  · rename_i hi
    rw [hretries, hi, standing_of_get hc]
  · rfl

/-- A new chunk has nothing against it. -/
theorem Quiet.append {d : Chunk} (hchunks : m'.chunks = m.chunks ++ [d]) (hretries : d.retries = 0)
    (hfatal : m'.fatal = m.fatal) (hmax : m'.maxRetries = m.maxRetries) : Quiet m m' := by
  refine ⟨hfatal, hmax, fun i => ?_⟩
  unfold ChunkManager.standing
  rw [hchunks]
  rcases Nat.lt_trichotomy i m.chunks.length with hlt | heq | hgt
  · rw [List.getElem?_append_left hlt]
  · rw [heq, List.getElem?_concat_length, List.getElem?_eq_none (Nat.le_refl _)]
    exact hretries
  · rw [List.getElem?_eq_none (by simp; omega), List.getElem?_eq_none (by omega)]

theorem Quiet.assign {id : Nat} {c : Chunk} (hc : m.chunks[id]? = some c) (workerId mirrorId now : Nat) :
    Quiet m (m.assign id c workerId mirrorId now).2 :=
  .set hc rfl rfl rfl rfl

theorem Quiet.push (range : ByteRange) (status : ChunkStatus) : Quiet m (m.push range status) :=
  .append rfl rfl rfl rfl

theorem Quiet.truncate {id end_ : Nat} {c : Chunk} (hc : m.chunks[id]? = some c) : Quiet m (m.truncate id c end_) :=
  .set hc rfl rfl rfl rfl

theorem Quiet.complete {id : Nat} {c : Chunk} (hc : m.chunks[id]? = some c) : Quiet m (m.complete id c) :=
  .set hc rfl rfl rfl rfl

theorem Quiet.relet {id pos end_ : Nat} {c : Chunk} (hc : m.chunks[id]? = some c) :
    Quiet m (m.relet id c pos end_).2 :=
  .set hc rfl rfl rfl rfl

theorem Quiet.rest {id pos : Nat} {c : Chunk} (hc : m.chunks[id]? = some c) :
    Quiet m (m.rest id c pos).2 ∧ (m.rest id c pos).2.chunks[id]? = some (m.rest id c pos).1 ∧
      (m.rest id c pos).1.retries = c.retries := by
  unfold ChunkManager.rest
  split
  · have hset : Quiet m { m with chunks := m.chunks.set id { c with range := ⟨pos, c.range.end_⟩ } } :=
      .set hc rfl rfl rfl rfl
    refine ⟨hset.trans (.append rfl rfl rfl rfl), ?_, rfl⟩
    simp only [splitWritten, ChunkManager.push]
    rw [getElem?_concat_some, getElem?_set_some hc]
    exact .inl (.inl ⟨rfl, rfl⟩)
  · exact ⟨.refl m, hc, rfl⟩

theorem Quiet.getNextWork (workerId mirrorId now : Nat) : Quiet m (m.getNextWork workerId mirrorId now).2 := by
  rcases getNextWork_assigns m workerId mirrorId now with ⟨id, c, queue, fresh, hc, _, heq⟩ | ⟨fresh, heq⟩
  · rw [heq]
    exact .set hc rfl rfl rfl rfl
  · rw [heq]
    exact ⟨rfl, rfl, fun _ => rfl⟩

theorem Quiet.assignAt (workerId mirrorId start end_ now : Nat) :
    Quiet m (m.assignAt workerId mirrorId start end_ now).2 := by
  rcases assignAt_cases (m := m) workerId mirrorId start end_ now with heq | ⟨id, c, hc, _, heq | ⟨_, _, heq⟩⟩
  · rw [heq]
    exact .refl m
  · rw [heq]
    exact .assign hc workerId mirrorId now
  · rw [heq]
    exact ((Quiet.truncate hc).trans (.push _ _)).trans (.assign (truncate_push_get hc _) workerId mirrorId now)

theorem Quiet.takeOver (id thiefWorkerId thiefMirrorId now : Nat) :
    Quiet m (m.takeOver id thiefWorkerId thiefMirrorId now).2 := by
  unfold ChunkManager.takeOver
  split
  · exact .refl m
  · rename_i c hc
    have hrevoke : Quiet m { m with cells := m.cells.revoke c.lease } := ⟨rfl, rfl, fun _ => rfl⟩
    dsimp only
    split
    · exact hrevoke.trans (.complete hc)
    · obtain ⟨hrest, hget, _⟩ := @Quiet.rest { m with cells := m.cells.revoke c.lease } id
        (max ((m.cells.revoke c.lease).leases c.lease).currentOffset c.range.start) c hc
      exact ((hrevoke.trans hrest).trans (.relet hget)).trans (.assign (relet_get hget) thiefWorkerId thiefMirrorId now)

theorem Quiet.stealFrom (h : m.Aligned total) (victim thiefWorkerId thiefMirrorId : Nat) {minBytes : Nat}
    (hmin : 0 < minBytes) (share : Share) (now : Nat) :
    Quiet m (m.stealFrom victim thiefWorkerId thiefMirrorId minBytes share now).2 := by
  rcases h.steals victim thiefWorkerId thiefMirrorId hmin share now with heq | ⟨c, split, hc, _, _, _, _, heq⟩
  · rw [heq]
    exact .refl m
  · rw [heq]
    refine ((Quiet.truncate hc).trans (.push _ _)).trans (.assign ?_ thiefWorkerId thiefMirrorId now)
    exact getElem?_concat_some.mpr (.inr ⟨rfl, rfl⟩)

theorem Quiet.markCompleted (chunkId : Nat) : Quiet m (m.orSame (m.markCompleted chunkId)) := by
  rcases markCompleted_cases (m := m) chunkId with heq | ⟨c, hc, ⟨_, heq⟩ | ⟨_, heq⟩⟩
  · rw [heq]
    exact .refl m
  · rw [heq]
    exact .refl m
  · rw [heq]
    exact .complete hc

/-! ## A failure -/

/-- `retries` counts against chunk `id` now, and the verdict follows. -/
structure Counted (m m' : ChunkManager) (id retries : Nat) : Prop where
  maxRetries : m'.maxRetries = m.maxRetries
  standing : ∀ i, m'.standing i = if i = id then retries else m.standing i
  fatal : m'.fatal.isSome = (m.fatal.isSome || decide (m.maxRetries < retries))

theorem Counted.requeue {id : Nat} {c c' : Chunk} (hc : m.chunks[id]? = some c) (reason : String) :
    Counted m (m.requeue id c' reason) id c'.retries := by
  have hchunks : (m.requeue id c' reason).chunks = m.chunks.set id { c' with status := .failed reason c'.retries } := rfl
  refine ⟨rfl, fun i => standing_set hc hchunks i, ?_⟩
  show Option.isSome (if c'.retries > m.maxRetries && m.fatal.isNone then _ else m.fatal) = _
  cases m.fatal with
  | some _ => simp
  | none =>
    split
    · rename_i hover
      simp only [Option.isNone_none, Bool.and_true, decide_eq_true_eq] at hover
      simp [hover]
    · rename_i hwithin
      simp only [Option.isNone_none, Bool.and_true, decide_eq_true_eq] at hwithin
      simp [hwithin]

theorem Counted.after_quiet {m₁ m₂ m₃ : ChunkManager} {id retries : Nat} (h : Quiet m₁ m₂)
    (h' : Counted m₂ m₃ id retries) : Counted m₁ m₃ id retries := by
  refine ⟨h'.maxRetries.trans h.maxRetries, fun i => ?_, ?_⟩
  · rw [h'.standing, h.standing]
  · rw [h'.fatal, h.fatal, h.maxRetries]

/-- What a failed attempt leaves standing against its chunk. -/
def retriesAfter (madeProgress counts : Bool) (retries : Nat) : Nat :=
  if madeProgress then 0 else if counts then (retries + 1) % 2 ^ 32 else retries

/-- A failure does not lift the verdict. -/
theorem fatal_markFailed {chunkId : Nat} {reason : String} {minDelay : Nat} {counts : Bool} {now : Nat}
    {backoffDelay : Nat → Nat} (h : m.fatal.isSome = true) :
    (m.orSame (m.markFailed chunkId reason minDelay counts now backoffDelay)).fatal.isSome = true := by
  unfold ChunkManager.markFailed
  split
  · exact h
  · rename_i c hc
    split
    · exact h
    · dsimp only
      split
      · rw [(Quiet.markCompleted chunkId).fatal]
        exact h
      · obtain ⟨hrest, hget, _⟩ := @Quiet.rest m chunkId
          (min (max (m.cells.leases c.lease).currentOffset c.range.start) (saturatingAdd c.range.end_ 1)) c hc
        show (ChunkManager.requeue _ _ _ _).fatal.isSome = true
        rw [(Counted.requeue hget reason).fatal, hrest.fatal, h, Bool.true_or]

theorem retryAfter_retries (c : Chunk) (made counts : Bool) (minDelay now : Nat) (backoffDelay : Nat → Nat) :
    (c.retryAfter made counts minDelay now backoffDelay).retries = retriesAfter made counts c.retries := by
  cases made
  · cases counts
    · rfl
    · rfl
  · rfl

/-- `mark_failed` leaves the counts alone and notes nothing, or counts what the
history notes. -/
theorem Aligned.failing (h : m.Aligned total) (chunkId : Nat) (reason : String) (minDelay : Nat) (counts : Bool)
    (now : Nat) (backoffDelay : Nat → Nat) :
    let m' := m.orSame (m.markFailed chunkId reason minDelay counts now backoffDelay)
    (Quiet m m' ∧ m.attemptMark chunkId counts = none) ∨
      ∃ made, Counted m m' chunkId (retriesAfter made counts (m.standing chunkId)) ∧
        m.attemptMark chunkId counts =
          if made then some (.wrote chunkId) else if counts then some (.failed chunkId) else none := by
  intro m'
  unfold attemptMark
  cases hc : m.chunks[chunkId]? with
  | none =>
    refine .inl ⟨?_, rfl⟩
    simp only [m', ChunkManager.markFailed, hc]
    exact .refl m
  | some c =>
    have e := h.entry chunkId c hc
    have hordered := e.ordered
    have hin := e.inFile
    have hbound := h.bounded
    dsimp only
    by_cases hdone : c.isCompleted = true
    · refine .inl ⟨?_, by rw [hdone]; rfl⟩
      simp only [m', ChunkManager.markFailed, hc, hdone, if_true]
      exact .refl m
    · have hopen := not_completed_of_ne hdone
      have hsat : saturatingAdd c.range.end_ 1 = c.range.end_ + 1 :=
        Nat.min_eq_left (Nat.le_trans (Nat.succ_le_of_lt hin) hbound)
      simp only [m', ChunkManager.markFailed, hc, hopen, hsat, Bool.false_or, Bool.false_eq_true, if_false,
        decide_eq_true_eq]
      generalize hoffset : (m.cells.leases c.lease).currentOffset = offset
      by_cases hall : c.range.end_ < offset
      · -- every byte was written
        refine .inl ⟨?_, if_pos hall⟩
        rw [if_pos (by omega)]
        exact Quiet.markCompleted chunkId
      · rw [if_neg (by omega), if_neg hall]
        obtain ⟨hrest, hget, hretries⟩ := @Quiet.rest m chunkId (min (max offset c.range.start) (c.range.end_ + 1)) c hc
        have hcounted := Counted.after_quiet hrest (@Counted.requeue _ _ _ ((m.rest chunkId c
          (min (max offset c.range.start) (c.range.end_ + 1))).1.retryAfter
            (decide (min (max offset c.range.start) (c.range.end_ + 1) > c.range.start)) counts minDelay now
            backoffDelay) hget reason)
        rw [retryAfter_retries, hretries, ← standing_of_get hc] at hcounted
        refine .inr ⟨_, hcounted, ?_⟩
        have hmade : min (max offset c.range.start) (c.range.end_ + 1) > c.range.start ↔ c.range.start < offset := by
          omega
        simp only [hmade, decide_eq_true_eq]

/-! ## Exact in every run -/

/-- The verdict is what the history says; until it falls, what stands against
each chunk is its counted failures since its last byte. -/
structure Recorded.Exact (total : Nat) (r : Recorded) : Prop where
  session : r.session.Aligned total
  /-- No operation is halfway once the download has failed. -/
  idle : r.session.picked.isSome = true → r.session.manager.fatal = none
  verdict : r.session.manager.fatal.isSome = true ↔
    .aborted ∈ r.log ∨ TooOften r.session.manager.maxRetries r.log
  standing : r.session.manager.fatal = none → ∀ i, r.session.manager.standing i = failures i r.log

theorem verdict_mono {limit : Nat} {log : List Mark} (k : Option Mark) (h : .aborted ∈ log ∨ TooOften limit log) :
    .aborted ∈ k.toList ++ log ∨ TooOften limit (k.toList ++ log) := by
  cases k with
  | none => exact h
  | some k =>
    rcases h with h | h
    · exact .inl (List.mem_cons_of_mem _ h)
    · exact .inr (tooOften_cons.mpr (.inl h))

namespace Recorded.Exact

variable {r : Recorded}

/-- Nothing that leaves the counts alone changes the verdict. -/
theorem quiet (h : r.Exact total) {s : Session} (hs : s.Aligned total) (hq : Quiet r.session.manager s.manager)
    (hidle : s.picked.isSome = true → s.manager.fatal = none) : Recorded.Exact total ⟨s, r.log⟩ := by
  refine ⟨hs, hidle, ?_, fun hnone i => ?_⟩
  · show s.manager.fatal.isSome = true ↔ _
    rw [hq.fatal, hq.maxRetries]
    exact h.verdict
  · show s.manager.standing i = failures i r.log
    rw [hq.standing]
    exact h.standing (hq.fatal ▸ hnone) i

/-- Before the verdict no chunk has failed too often. -/
theorem within (h : r.Exact total) (hnone : r.session.manager.fatal = none) :
    .aborted ∉ r.log ∧ ¬ TooOften r.session.manager.maxRetries r.log := by
  have hnot : ¬ r.session.manager.fatal.isSome = true := by simp [hnone]
  rw [h.verdict, not_or] at hnot
  exact hnot

/-- A mark that leaves standing what it should, and a verdict to match. -/
theorem note (h : r.Exact total) (hnone : r.session.manager.fatal = none) {m' : ChunkManager} {k : Mark}
    (ha : m'.Aligned total) (hk : k ≠ .aborted) (hmax : m'.maxRetries = r.session.manager.maxRetries)
    (hstanding : ∀ i, m'.standing i = failures i (k :: r.log))
    (hfatal : m'.fatal.isSome = true ↔ ∃ i, m'.maxRetries < failures i (k :: r.log)) :
    Recorded.Exact total ⟨⟨m', none⟩, k :: r.log⟩ := by
  obtain ⟨haborted, hwithin⟩ := h.within hnone
  refine ⟨.idle ha, fun hsome => (by cases hsome), ?_, fun _ => hstanding⟩
  show m'.fatal.isSome = true ↔ .aborted ∈ k :: r.log ∨ TooOften m'.maxRetries (k :: r.log)
  rw [hfatal, tooOften_cons, hmax, List.mem_cons]
  constructor
  · exact fun hover => .inr (.inr hover)
  · rintro ((heq | hmem) | hover | hover)
    · exact absurd heq.symm hk
    · exact absurd hmem haborted
    · exact absurd hover hwithin
    · exact hover

/-- A failure counts as the history says, unless the counter wraps around. -/
theorem markFailed (h : r.Exact total) {chunkId : Nat} {reason : String} {minDelay : Nat} {counts : Bool} {now : Nat}
    {backoffDelay : Nat → Nat}
    (hb : r.session.budgeted (.markFailed chunkId reason minDelay counts now backoffDelay) = true) :
    Recorded.Exact total ⟨⟨r.session.manager.orSame
        (r.session.manager.markFailed chunkId reason minDelay counts now backoffDelay), none⟩,
      (r.session.manager.attemptMark chunkId counts).toList ++ r.log⟩ := by
  have ha := h.session.manager
  have halign := ha.markFailed chunkId reason minDelay counts now backoffDelay
  have hfailing := ha.failing chunkId reason minDelay counts now backoffDelay
  generalize r.session.manager.orSame
    (r.session.manager.markFailed chunkId reason minDelay counts now backoffDelay) = m' at halign hfailing ⊢
  rcases hfailing with ⟨hq, hmark⟩ | ⟨made, hcounted, hmark⟩
  · rw [hmark]
    exact h.quiet (s := ⟨m', none⟩) (.idle halign) hq (fun hsome => (by cases hsome))
  · have hfatal := hcounted.fatal
    cases hverdict : r.session.manager.fatal with
    | some _ =>
      -- the verdict has fallen and stands
      rw [hverdict, Option.isSome_some, Bool.true_or] at hfatal
      refine ⟨.idle halign, fun hsome => (by cases hsome), ?_, fun hnone => ?_⟩
      · have hlog := h.verdict.mp (by rw [hverdict]; rfl)
        exact ⟨fun _ => hcounted.maxRetries ▸ verdict_mono _ hlog, fun _ => hfatal⟩
      · rw [hnone] at hfatal
        cases hfatal
    | none =>
      obtain ⟨haborted, hwithin⟩ := h.within hverdict
      have hle := failures_le hwithin
      have hstands := h.standing hverdict
      rw [hverdict, Option.isSome_none, Bool.false_or] at hfatal
      cases made with
      | true =>
        rw [hmark]
        refine h.note hverdict halign (by simp) hcounted.maxRetries (fun i => ?_) ?_
        · rw [hcounted.standing, failures_wrote, ← hstands i]
          rfl
        · simp only [hfatal, retriesAfter, if_true, Nat.not_lt_zero, decide_false, Bool.false_eq_true, false_iff,
            not_exists, failures_wrote, hcounted.maxRetries]
          intro i
          have := hle i
          split <;> omega
      | false =>
        cases counts with
        | false =>
          simp only [Bool.false_eq_true, if_false] at hmark
          rw [hmark]
          have hnone : m'.fatal = none := by
            have hstand := hle chunkId
            rw [← hstands] at hstand
            simp only [retriesAfter, Bool.false_eq_true, if_false] at hfatal
            rw [decide_eq_false (Nat.not_lt.mpr hstand)] at hfatal
            exact Option.isNone_iff_eq_none.mp (by simpa using hfatal)
          refine h.quiet (s := ⟨m', none⟩) (.idle halign) ⟨hnone.trans hverdict.symm, hcounted.maxRetries, fun i => ?_⟩
            (fun hsome => (by cases hsome))
          rw [hcounted.standing]
          split
          · rename_i hi
            rw [hi]
            rfl
          · rfl
        | true =>
          simp only [Bool.false_eq_true, if_false, if_true] at hmark
          rw [hmark]
          -- the counter does not wrap around
          have hlt : r.session.manager.standing chunkId + 1 < 2 ^ 32 := by
            simpa [Session.budgeted, hverdict, hmark] using hb
          have hnext : retriesAfter false true (r.session.manager.standing chunkId) = failures chunkId r.log + 1 := by
            show (r.session.manager.standing chunkId + 1) % 2 ^ 32 = _
            rw [Nat.mod_eq_of_lt hlt, hstands]
          rw [hnext] at hcounted hfatal
          refine h.note hverdict halign (by simp) hcounted.maxRetries (fun i => ?_) ?_
          · rw [hcounted.standing, failures_failed, hstands]
            split
            · rename_i hi
              rw [hi]
            · rfl
          · rw [hfatal, hcounted.maxRetries, decide_eq_true_eq]
            constructor
            · intro hover
              refine ⟨chunkId, ?_⟩
              rw [failures_failed, if_pos rfl]
              exact hover
            · rintro ⟨i, hover⟩
              rw [failures_failed] at hover
              have := hle i
              split at hover
              · rename_i hi
                exact hi ▸ hover
              · omega

/-- A takeover notes what was written, and finds no failures standing then. -/
theorem takeOver (h : r.Exact total) {id thiefWorkerId thiefMirrorId now : Nat}
    (hp : r.session.picked = some (.silent id thiefWorkerId thiefMirrorId now))
    (hb : r.session.budgeted .takePicked = true) :
    Recorded.Exact total ⟨⟨(r.session.manager.takeOver id thiefWorkerId thiefMirrorId now).2, none⟩,
      (r.session.manager.attemptMark id false).toList ++ r.log⟩ := by
  have ha := h.session.manager
  have hnone := h.idle (by rw [hp]; rfl)
  have halign := ha.takeOver id thiefWorkerId thiefMirrorId now
  have hq : Quiet r.session.manager _ := Quiet.takeOver id thiefWorkerId thiefMirrorId now
  obtain ⟨haborted, hwithin⟩ := h.within hnone
  have hle := failures_le hwithin
  simp only [Session.budgeted, hp, Bool.or_eq_true, beq_iff_eq] at hb
  cases hmark : r.session.manager.attemptMark id false with
  | none => exact h.quiet (s := ⟨_, none⟩) (.idle halign) hq (fun hsome => (by cases hsome))
  | some k =>
    have hk : k = .wrote id := by
      unfold attemptMark at hmark
      split at hmark
      · cases hmark
      · dsimp only at hmark
        split at hmark
        · cases hmark
        · split at hmark
          · exact (Option.some.inj hmark).symm
          · cases hmark
    have hzero : failures id r.log = 0 := by
      rw [← h.standing hnone]
      exact hb.resolve_left (by simp [hmark])
    subst hk
    have hsame : ∀ i, failures i (.wrote id :: r.log) = failures i r.log := by
      intro i
      rw [failures_wrote]
      split
      · rename_i hi
        rw [hi, hzero]
      · rfl
    refine h.note hnone halign (by simp) hq.maxRetries (fun i => ?_) ?_
    · rw [hq.standing, hsame, h.standing hnone]
    · rw [hq.fatal, hnone, hq.maxRetries]
      simp only [Option.isSome_none, Bool.false_eq_true, false_iff, not_exists, Nat.not_lt, hsame]
      exact hle

/-- Every event that meets the condition keeps the budget exact. -/
theorem step (h : r.Exact total) {s' : Session} {e : Event} (hb : r.session.budgeted e = true)
    (hstep : r.session.step e = some s') : Recorded.Exact total ⟨s', (r.session.mark e).toList ++ r.log⟩ := by
  have ha := h.session.manager
  have hs' := h.session.step hstep
  cases e <;> simp only [Session.step] at hstep
  case getNextWork workerId mirrorId now =>
    rw [locked_some hstep]
    exact h.quiet (.idle (ha.getNextWork workerId mirrorId now)) (.getNextWork workerId mirrorId now)
      (fun hsome => (by cases hsome))
  case assignAt workerId mirrorId start end_ now =>
    rw [locked_some hstep]
    exact h.quiet (.idle (ha.assignAt workerId mirrorId start end_ now)) (.assignAt workerId mirrorId start end_ now)
      (fun hsome => (by cases hsome))
  case pickSilent thiefWorkerId thiefMirrorId minSilence now =>
    have heq := locked_some hstep
    split at heq
    · subst heq
      exact h.quiet hs' (.refl _) (fun hsome => (by cases hsome))
    · rename_i hgo
      subst heq
      exact h.quiet hs' (.refl _) (fun _ => by simpa using hgo)
  case pickVictim victim thiefWorkerId thiefMirrorId minBytes share now =>
    have heq := locked_some hstep
    split at heq
    · rename_i hgo
      subst heq
      exact h.quiet hs' (.refl _) (fun _ => Option.isNone_iff_eq_none.mp hgo.1)
    · subst heq
      exact h.quiet hs' (.refl _) (fun hsome => (by cases hsome))
  case takePicked =>
    obtain ⟨p, hp, rfl⟩ := Option.map_eq_some_iff.mp hstep
    simp only [Session.mark, hp]
    cases p with
    | silent id thiefWorkerId thiefMirrorId now => exact h.takeOver hp hb
    | victim id thiefWorkerId thiefMirrorId minBytes share now =>
      have hleast : 0 < minBytes := h.session.picked _ hp
      exact h.quiet hs' (.stealFrom ha id thiefWorkerId thiefMirrorId hleast share now)
        (fun hsome => (by cases hsome))
  case markCompleted chunkId =>
    rw [locked_some hstep]
    exact h.quiet (.idle (ha.markCompleted chunkId)) (.markCompleted chunkId) (fun hsome => (by cases hsome))
  case markFailed chunkId reason minDelay counts now backoffDelay =>
    rw [locked_some hstep]
    exact h.markFailed hb
  case abort chunkId reason =>
    have heq := locked_some hstep
    subst heq
    have hfatal : (r.session.manager.abort chunkId reason).fatal.isSome = true := by
      unfold ChunkManager.abort
      split
      · rfl
      · rename_i hsome
        exact Option.isSome_iff_ne_none.mpr (by simpa using hsome)
    refine ⟨hs', fun hsome => (by cases hsome), ?_, fun hnone => ?_⟩
    · exact ⟨fun _ => .inl List.mem_cons_self, fun _ => hfatal⟩
    · rw [hnone] at hfatal
      cases hfatal
  case store lease pos =>
    cases hstep
    exact h.quiet hs' ⟨rfl, rfl, fun _ => rfl⟩ h.idle
  case tell attempt a =>
    cases hstep
    exact h.quiet hs' ⟨rfl, rfl, fun _ => rfl⟩ h.idle

end Recorded.Exact

theorem exact_inductive (total : Nat) : (budgetedSessions total).toTSys.Inductive (Recorded.Exact total) where
  init := by
    rintro ⟨s, log⟩ ⟨⟨hsize, base, maxRetries, resumed, hvalid, rfl⟩, hlog⟩
    cases hlog
    refine ⟨.idle (aligned_start hsize hvalid base maxRetries), fun hsome => (by cases hsome), ?_, fun _ i => ?_⟩
    · constructor
      · intro hfatal
        cases hfatal
      · rintro (hmem | ⟨id, hover⟩)
        · cases hmem
        · exact absurd hover (not_exceeded_nil _)
    · show ((numbered _)[i]?).elim 0 Chunk.retries = 0
      cases hc : (numbered (resumedRanges total (max base (64 * 1024)) (mergedCompleted total resumed)))[i]? with
      | none => rfl
      | some c =>
        obtain ⟨_, _, rfl⟩ := numbered_get hc
        rfl
  step := by
    rintro r r' h ⟨e, hstep⟩
    simp only [budgetedSessions] at hstep
    split at hstep
    · rename_i hb
      obtain ⟨s', hs', rfl⟩ := Option.map_eq_some_iff.mp hstep
      exact h.step hb hs'
    · cases hstep

/-! ## Once fatal -/

/-- The download has failed, and nothing is handed out. -/
structure Session.Over (s : Session) : Prop where
  fatal : s.manager.fatal.isSome = true
  /-- No operation is halfway. -/
  idle : s.picked = none

/-- What `Over` means: every operation that hands out work hands out none. -/
def Idle (m : ChunkManager) : Prop :=
  ∀ workerId mirrorId now start end_ minSilence minBytes victim share,
    m.getNextWork workerId mirrorId now = (none, m) ∧
    m.assignAt workerId mirrorId start end_ now = (none, m) ∧
    m.takeOverSilent workerId mirrorId minSilence now = (none, m) ∧
    m.stealWork workerId mirrorId minBytes victim share now = (none, m)

theorem idle_of_fatal (h : m.fatal.isSome = true) : m.Idle := by
  intro workerId mirrorId now start end_ minSilence minBytes victim share
  refine ⟨?_, ?_, ?_, ?_⟩
  · exact if_pos h
  · exact if_pos (by rw [h]; rfl)
  · exact if_pos h
  · exact if_pos h

/-- Whatever happens next, it stays over. -/
theorem Session.Over.step {s s' : Session} {e : Event} (h : s.Over) (hstep : s.step e = some s') : s'.Over := by
  have hnot : s.manager.fatal ≠ none := Option.isSome_iff_ne_none.mp h.fatal
  have hquiet : ∀ {m' : ChunkManager}, Quiet s.manager m' → Session.Over ⟨m', none⟩ := fun hq =>
    ⟨by rw [hq.fatal]; exact h.fatal, rfl⟩
  cases e <;> simp only [Session.step] at hstep
  case getNextWork workerId mirrorId now =>
    rw [locked_some hstep]
    exact hquiet (.getNextWork workerId mirrorId now)
  case assignAt workerId mirrorId start end_ now =>
    rw [locked_some hstep]
    exact hquiet (.assignAt workerId mirrorId start end_ now)
  case pickSilent thiefWorkerId thiefMirrorId minSilence now =>
    rw [locked_some hstep, if_pos h.fatal]
    exact hquiet (.refl _)
  case pickVictim victim thiefWorkerId thiefMirrorId minBytes share now =>
    rw [locked_some hstep, if_neg (fun hgo => hnot (Option.isNone_iff_eq_none.mp hgo.1))]
    exact hquiet (.refl _)
  case takePicked =>
    rw [h.idle] at hstep
    cases hstep
  case markCompleted chunkId =>
    rw [locked_some hstep]
    exact hquiet (.markCompleted chunkId)
  case markFailed chunkId reason minDelay counts now backoffDelay =>
    rw [locked_some hstep]
    exact ⟨fatal_markFailed h.fatal, rfl⟩
  case abort chunkId reason =>
    rw [locked_some hstep]
    refine ⟨?_, rfl⟩
    unfold ChunkManager.abort
    rw [if_neg (fun hnone => hnot (Option.isNone_iff_eq_none.mp hnone))]
    exact h.fatal
  case store lease pos =>
    cases hstep
    exact ⟨h.fatal, h.idle⟩
  case tell attempt a =>
    cases hstep
    exact ⟨h.fatal, h.idle⟩

/-- Nor does anything later: it is over for good. -/
theorem over_for_good {total : Nat} {r r' : Recorded} (h : r.session.Over)
    (hsteps : (recordedSessions total).toTSys.Steps r r') : r'.session.Over := by
  induction hsteps with
  | refl => exact h
  | tail _ hstep ih =>
    obtain ⟨e, hstep⟩ := hstep
    obtain ⟨s', hs', rfl⟩ := Option.map_eq_some_iff.mp hstep
    exact ih.step hs'

/-- In every run without such a takeover or wrap around, the download has
failed exactly when it was aborted or some chunk failed too often in a row,
each chunk's retries count its failures since its last byte until then, and
once it has failed nothing is ever handed out again. -/
theorem budget_is_exact (total : Nat) : (budgetedSessions total).toTSys.Invariant fun r =>
    let m := r.session.manager
    (m.fatal.isSome = true ↔ .aborted ∈ r.log ∨ TooOften m.maxRetries r.log) ∧
    (m.fatal = none → ∀ (i : Nat) (c : Chunk), m.chunks[i]? = some c → c.retries = failures i r.log) ∧
    (m.fatal.isSome = true → ∀ r', (recordedSessions total).toTSys.Steps r r' →
      r'.session.manager.fatal.isSome = true ∧ r'.session.picked = none ∧ r'.session.manager.Idle) := by
  intro r hreach m
  have h := (exact_inductive total).invariant r hreach
  refine ⟨h.verdict, fun hnone i c hc => ?_, fun hfatal r' hsteps => ?_⟩
  · rw [← h.standing hnone i]
    exact (standing_of_get hc).symm
  · have hidle : r.session.picked = none := by
      cases hp : r.session.picked with
      | none => rfl
      | some p =>
        have hnone := h.idle (by rw [hp]; rfl)
        rw [show m.fatal = none from hnone] at hfatal
        cases hfatal
    have hover := over_for_good ⟨hfatal, hidle⟩ hsteps
    exact ⟨hover.fatal, hover.idle, idle_of_fatal hover.fatal⟩

/-- A file of four bytes, with one retry. -/
theorem starts_four_once : (recordedSessions 4).init ⟨Session.start 4 0 1 [], []⟩ :=
  ⟨⟨by decide, 0, 1, [], by simp, rfl⟩, rfl⟩

theorem start_four_once :
    Session.start 4 0 1 [] = ⟨(Session.start 4 0 8 []).manager.setMaxRetries 1, none⟩ := rfl

/-- Two failures without a byte are one too many, and all is over. -/
theorem budget_is_exact_four : ∃ r, (budgetedSessions 4).run ⟨Session.start 4 0 1 [], []⟩ [
      .getNextWork 0 0 0, .markFailed 0 "reset" 0 true 0 (fun _ => 0), .getNextWork 0 0 0,
      .markFailed 0 "reset" 0 true 0 (fun _ => 0)] = some r ∧
    TooOften 1 r.log ∧ r.session.manager.Idle := by
  have hrun : ∃ r, (budgetedSessions 4).run ⟨Session.start 4 0 1 [], []⟩ [
      .getNextWork 0 0 0, .markFailed 0 "reset" 0 true 0 (fun _ => 0), .getNextWork 0 0 0,
      .markFailed 0 "reset" 0 true 0 (fun _ => 0)] = some r ∧
      r.session.manager.fatal.isSome = true ∧ r.session.manager.maxRetries = 1 ∧ r.log = [.failed 0, .failed 0] := by
    rw [start_four_once, start_four]
    exact ⟨_, rfl, rfl, rfl, rfl⟩
  obtain ⟨r, hr, hfatal, hmax, hlog⟩ := hrun
  have hreach : (budgetedSessions 4).toTSys.Reachable r := Machine.reachable_run (.init starts_four_once) hr
  obtain ⟨hverdict, _, hover⟩ := budget_is_exact 4 r hreach
  refine ⟨r, hr, ?_, (hover hfatal r .refl).2.2⟩
  have hsaid := hverdict.mp hfatal
  rw [hmax] at hsaid
  exact hsaid.resolve_left (by simp [hlog])

/-- A failure, a byte written by an attempt that is then taken over, and another
failure: the download fails though no two failures came in a row. -/
theorem takeover_keeps_failures :
    ¬ ∀ total, (recordedSessions total).toTSys.Invariant fun r =>
      r.session.manager.fatal.isSome = true ↔ .aborted ∈ r.log ∨ TooOften r.session.manager.maxRetries r.log := by
  have hrun : ∃ r, (recordedSessions 4).run ⟨Session.start 4 0 1 [], []⟩ [
      .getNextWork 0 0 0, .markFailed 0 "reset" 0 true 0 (fun _ => 0), .getNextWork 0 0 0,
      .tell 2 ⟨some (0, 0), some 0, 1⟩, .store 0 1, .pickSilent 1 0 (fun _ => 2) 3, .takePicked,
      .markFailed 0 "reset" 0 true 4 (fun _ => 0)] = some r ∧
      r.session.manager.fatal.isSome = true ∧ r.session.manager.maxRetries = 1 ∧
      r.log = [.failed 0, .wrote 0, .failed 0] := by
    rw [start_four_once, start_four]
    exact ⟨_, rfl, rfl, rfl, rfl⟩
  obtain ⟨r, hr, hfatal, hmax, hlog⟩ := hrun
  intro hall
  have hverdict := (hall 4 r (Machine.reachable_run (.init starts_four_once) hr)).mp hfatal
  rw [hmax, hlog] at hverdict
  rcases hverdict with hmem | hover
  · simp at hmem
  · -- no chunk has more than one failure in a row anywhere in that history
    have hempty : ¬ TooOften 1 [] := fun ⟨_, h⟩ => not_exceeded_nil _ h
    rw [tooOften_cons, tooOften_cons, tooOften_cons] at hover
    rcases hover with ((hover | ⟨id, hover⟩) | ⟨id, hover⟩) | ⟨id, hover⟩
    · exact hempty hover
    all_goals
      simp only [failures_failed, failures_wrote, failures_nil] at hover
      split at hover <;> omega

end ChunkManager

end Hyperfetch
