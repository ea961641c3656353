import Hyperfetch.Chunk.Runs
import Hyperfetch.Worker.Attempt
import Hyperfetch.Worker.Handover

/-!
# A download's workers and their manager

The whole download: the manager with whoever holds its lock, the bytes
written so far, and each worker's attempt. Any worker may take the next step;
what an attempt does between two shared accesses is one step. A write that
fails counts for nothing, and a worker may stop for good at any point, its
chunk left assigned.

`Sound` is the invariant: the books balance, custody holds, and each attempt
knows what its stage says.
-/

namespace Hyperfetch

open Weft ChunkManager

/-- A worker's attempt: the chunk as it was handed over, and where it is. -/
structure Job where
  chunk : Chunk
  stage : Stage

structure Download where
  session : Session
  written : Nat → Bool
  workers : Nat → Option Job

/-- What `record_failure` makes of a failure, by what it knows of the mirror. -/
inductive Verdict
  | abort (message : String)
  | retry (delay : Nat) (counts : Bool)

/-- `record_failure`, as far as the chunks go. -/
def recordFailure (m : ChunkManager) (chunkId : Nat) (kind : FailureKind) (error : String)
    (verdict : Verdict) (now : Nat) (backoffDelay : Nat → Nat) : ChunkManager :=
  match kind, verdict with
  | .fatal, _ => m.abort chunkId error
  | _, .abort message => m.abort chunkId message
  | _, .retry delay counts =>
    match m.markFailed chunkId error delay counts now backoffDelay with
    | .ok m => m
    | .error e => m.abort chunkId e.message

/-- `settle`, as far as the chunks go. A chunk another worker took over is no
longer this worker's to complete or retry. -/
def settle (m : ChunkManager) (chunk : Chunk) (outcome : Outcome) (error : String) (verdict : Verdict)
    (now : Nat) (backoffDelay : Nat → Nat) : ChunkManager :=
  let revoked := (m.cells.leases chunk.lease).revoked
  match outcome with
  | .ok =>
    if revoked then m
    else
      match m.markCompleted chunk.id with
      | .ok m => m
      | .error e => m.abort chunk.id e.message
  | .err kind =>
    if !revoked then recordFailure m chunk.id kind error verdict now backoffDelay
    else if kind = .fatal then m.abort chunk.id error
    else m

namespace Download

inductive Event
  | getNextWork (worker mirrorId now : Nat)
  /-- `assign_at` for the probe's answer, which the worker goes on with. -/
  | assignAt (worker mirrorId start end_ now : Nat)
  | pickSilent (worker mirrorId : Nat) (minSilence : Nat → Nat) (now : Nat)
  | pickVictim (victim worker mirrorId minBytes : Nat) (share : Share) (now : Nat)
  | takePicked
  | work (worker : Nat) (choice : Choice)
  /-- The batch went to disk. -/
  | write (worker : Nat)
  /-- The offset of a written batch is stored. -/
  | store (worker : Nat)
  | tell (worker : Nat) (a : Attempt)
  | settle (worker : Nat) (error : String) (verdict : Verdict) (now : Nat) (backoffDelay : Nat → Nat)
  /-- The worker stops without settling: cancelled, or lost. -/
  | quit (worker : Nat)

/-- The worker whose attempt an event is a step of. -/
def Event.attempt : Event → Option Nat
  | .work worker _ | .write worker | .store worker | .tell worker _ | .settle worker .. | .quit worker =>
    some worker
  | _ => none

abbrev manager (s : Download) : ChunkManager := s.session.manager

/-- The lease worker's copy of its chunk names. -/
def lease (s : Download) (chunk : Chunk) : Lease := s.manager.cells.leases chunk.lease

def become (s : Download) (worker : Nat) (job : Option Job) : Nat → Option Job :=
  Function.update s.workers worker job

/-- An idle worker gets what an operation handed out. -/
def handed (s : Download) (worker : Nat) (stage : Stage) (r : Option Chunk × ChunkManager) : Download :=
  { s with
    session := ⟨r.2, none⟩
    workers := match r.1 with
      | some chunk => s.become worker (some ⟨chunk, stage⟩)
      | none => s.workers }

/-- An idle worker takes the manager's lock for an operation. -/
def asks (s : Download) (worker : Nat) (next : Option Download) : Option Download :=
  if (s.workers worker).isNone ∧ s.session.picked.isNone then next else none

def step (s : Download) : Event → Option Download
  | .getNextWork worker mirrorId now =>
    s.asks worker (s.handed worker .handed (s.manager.getNextWork worker mirrorId now))
  | .assignAt worker mirrorId start end_ now =>
    s.asks worker (s.handed worker .seeded (s.manager.assignAt worker mirrorId start end_ now))
  | .pickSilent worker mirrorId minSilence now =>
    s.asks worker ((s.session.step (.pickSilent worker mirrorId minSilence now)).map ({ s with session := · }))
  | .pickVictim victim worker mirrorId minBytes share now =>
    s.asks worker ((s.session.step (.pickVictim victim worker mirrorId minBytes share now)).map
      ({ s with session := · }))
  | .takePicked => s.session.picked.map fun
    | .silent id worker mirrorId now =>
      s.handed worker .handed (s.manager.takeOver id worker mirrorId now)
    | .victim id worker mirrorId minBytes share now =>
      s.handed worker .handed (Prod.map (Option.map Prod.snd) (fun m => m)
        (s.manager.stealFrom id worker mirrorId minBytes share now))
  | .work worker choice => (s.workers worker).bind fun job =>
    (job.stage.step (s.lease job.chunk) choice).map fun stage =>
      { s with workers := s.become worker (some { job with stage }) }
  | .write worker =>
    match s.workers worker with
    | some ⟨chunk, .writing batch purpose⟩ =>
      some { s with
        written := fun b => s.written b || (decide (batch.pos ≤ b) && decide (b < batch.end_))
        workers := s.become worker (some ⟨chunk, .storing batch purpose⟩) }
    | _ => none
  | .store worker =>
    match s.workers worker with
    | some ⟨chunk, .storing batch purpose⟩ =>
      some { s with
        session.manager.cells := s.manager.cells.store chunk.lease batch.end_
        workers := s.become worker (some ⟨chunk, .afterStore batch purpose⟩) }
    | _ => none
  | .tell worker a => (s.workers worker).map fun job =>
    { s with session.manager.cells := s.manager.cells.tell job.chunk.attempt a }
  | .settle worker error verdict now backoffDelay =>
    match s.session.picked, s.workers worker with
    | none, some ⟨chunk, .settling outcome⟩ =>
      some { s with
        session := ⟨Hyperfetch.settle s.manager chunk outcome error verdict now backoffDelay, none⟩
        workers := s.become worker none }
    | _, _ => none
  | .quit worker => (s.workers worker).map fun _ => { s with workers := s.become worker none }

/-- The manager of a file of `total` bytes starts on its own, over resumed
ranges that are written. -/
def starts (total : Nat) (s : Download) : Prop :=
  total ≤ u64Max ∧ (∃ baseChunkSize maxRetries resumed, (∀ r ∈ resumed, ByteRange.Valid r) ∧
    s.session = .start total baseChunkSize maxRetries resumed ∧
    ∀ b, Covered resumed b → s.written b = true) ∧ ∀ w, s.workers w = none

end Download

def downloads (total : Nat) : Machine Download Download.Event where
  init := Download.starts total
  step := Download.step

/-! ## Settling keeps the books and custody -/

theorem settled_recordFailure {m : ChunkManager} {total w : Nat} {written : Nat → Bool}
    {held : Nat → Option Chunk} {k : Chunk} (h : Custody m written held) (hbooks : m.Books total)
    (hk : held w = some k) (hforce : (m.cells.leases k.lease).revoked = false) (kind : FailureKind)
    (error : String) (verdict : Verdict) (now : Nat) (backoffDelay : Nat → Nat) :
    Settled m total written held w (recordFailure m k.id kind error verdict now backoffDelay) := by
  have hsame : Settled m total written held w m := .same h hbooks
  cases verdict with
  | abort message => cases kind <;> exact hsame.abort _ _
  | retry delay counts =>
    obtain ⟨m', hm', hsettled⟩ := Settled.markFailed h hbooks hk hforce error delay counts now backoffDelay
    cases kind <;> simp only [recordFailure, hm'] <;> first | exact hsettled | exact hsame.abort _ _

theorem settled_settle {m : ChunkManager} {total w : Nat} {written : Nat → Bool}
    {held : Nat → Option Chunk} {k : Chunk} {outcome : Outcome} (h : Custody m written held)
    (hbooks : m.Books total) (hk : held w = some k)
    (hknows : (Stage.settling outcome).Knows (m.cells.leases k.lease) written)
    (error : String) (verdict : Verdict) (now : Nat) (backoffDelay : Nat → Nat) :
    Settled m total written held w (settle m k outcome error verdict now backoffDelay) := by
  have hsame : Settled m total written held w m := .same h hbooks
  cases outcome with
  | ok =>
    simp only [settle]
    split
    · exact hsame
    · rename_i hrev
      obtain ⟨m', hm', hsettled⟩ := Settled.markCompleted h hbooks hk (Bool.eq_false_iff.mpr hrev) hknows
      rw [hm']
      exact hsettled
  | err kind =>
    simp only [settle]
    split
    · rename_i hrev
      exact settled_recordFailure h hbooks hk (by simpa using hrev) kind error verdict now backoffDelay
    · split
      · exact hsame.abort _ _
      · exact hsame

namespace Download

/-! ## The invariant -/

/-- The chunk copies the workers hold. -/
def holders (workers : Nat → Option Job) (w : Nat) : Option Chunk := (workers w).map Job.chunk

structure Sound (total : Nat) (s : Download) : Prop where
  session : s.session.Sound total
  custody : Custody s.manager s.written (holders s.workers)
  knows : ∀ w job, s.workers w = some job → job.stage.Knows (s.lease job.chunk) s.written

theorem holders_become (s : Download) (w : Nat) (job : Option Job) :
    holders (s.become w job) = Function.update (holders s.workers) w (job.map Job.chunk) := by
  funext v
  simp only [holders, become, Function.update_apply]
  split <;> rfl

/-- A new stage of the same attempt changes no holder. -/
theorem holders_stage {s : Download} {w : Nat} {job : Job} (hjob : s.workers w = some job) (stage : Stage) :
    holders (s.become w (some ⟨job.chunk, stage⟩)) = holders s.workers := by
  rw [holders_become, Function.update_eq_self_iff]
  simp [holders, hjob]

/-- What attempts know survives any operation of the manager. -/
theorem Sound.knows_grows {total : Nat} {s : Download} (h : s.Sound total) {m' : ChunkManager}
    (hgrows : s.manager.Grows m') {w : Nat} {job : Job} (hjob : s.workers w = some job) :
    job.stage.Knows (m'.cells.leases job.chunk.lease) s.written :=
  have hlt := h.custody.allocated w job.chunk (by simp [holders, hjob])
  (h.knows w job hjob).mono (hgrows.offset _ hlt) (hgrows.end_ _ hlt) fun _ hb => hb

/-- An operation that serves a worker keeps the invariant. -/
theorem Sound.handed {total : Nat} {s : Download} (h : s.Sound total) {w : Nat} {stage : Stage}
    {r : Option Chunk × ChunkManager} (hbooks : r.2.Books total)
    (hserves : Serves s.manager s.written (holders s.workers) w r)
    (hstage : ∀ lease written, stage.Knows lease written) : (s.handed w stage r).Sound total := by
  obtain ⟨handed, m'⟩ := r
  cases handed with
  | none => exact ⟨.idle hbooks, hserves.custody, fun v job hjob => h.knows_grows hserves.grows hjob⟩
  | some chunk =>
    refine ⟨.idle hbooks, ?_, ?_⟩
    · have hcustody := hserves.custody
      simp only [Download.handed, holders_become]
      exact hcustody
    · intro v job hjob
      simp only [Download.handed, become, Function.update_apply] at hjob
      split at hjob
      · cases hjob
        exact hstage _ _
      · exact h.knows_grows hserves.grows hjob

theorem asks_some {s s' : Download} {w : Nat} {next : Option Download} (h : s.asks w next = some s') :
    next = some s' := by
  unfold asks at h
  split at h
  · exact h
  · cases h

/-- A first look keeps the manager as it is. -/
theorem pick_manager {s s' : Session} {e : ChunkManager.Event} (hstep : s.step e = some s')
    (he : (∃ w mirrorId minSilence now, e = .pickSilent w mirrorId minSilence now) ∨
      ∃ v w mirrorId minBytes share now, e = .pickVictim v w mirrorId minBytes share now) :
    s'.manager = s.manager := by
  rcases he with ⟨w, mirrorId, minSilence, now, rfl⟩ | ⟨v, w, mirrorId, minBytes, share, now, rfl⟩ <;>
    simp only [Session.step] at hstep <;> rw [locked_some hstep] <;> split <;> rfl

theorem Sound.picked {total : Nat} {s : Download} {session : Session} {e : ChunkManager.Event}
    (h : s.Sound total) (hstep : s.session.step e = some session)
    (he : (∃ w mirrorId minSilence now, e = .pickSilent w mirrorId minSilence now) ∨
      ∃ v w mirrorId minBytes share now, e = .pickVictim v w mirrorId minBytes share now) :
    Sound total { s with session } := by
  have horderly : s.session.orderly e = true := by
    rcases he with ⟨_, _, _, _, rfl⟩ | ⟨_, _, _, _, _, _, rfl⟩ <;> rfl
  have hmanager := pick_manager hstep he
  refine ⟨h.session.step horderly hstep, ?_, ?_⟩
  · show Custody session.manager _ _
    rw [hmanager]
    exact h.custody
  · intro w job hjob
    show job.stage.Knows (session.manager.cells.leases _) _
    rw [hmanager]
    exact h.knows w job hjob

theorem store_lease (cells : Cells) (lease pos a : Nat) :
    (cells.store lease pos).leases a =
      if a = lease then { cells.leases lease with currentOffset := pos } else cells.leases a := by
  simp only [Cells.store, Function.update_apply]

/-- Recording a batch that is on disk keeps the invariant. -/
theorem Sound.store {total : Nat} {s : Download} (h : s.Sound total) {w : Nat} {chunk : Chunk}
    {batch : Batch} {purpose : Purpose} (hjob : s.workers w = some ⟨chunk, .storing batch purpose⟩) :
    Sound total { s with
      session.manager.cells := s.manager.cells.store chunk.lease batch.end_
      workers := s.become w (some ⟨chunk, .afterStore batch purpose⟩) } := by
  obtain ⟨hpos, hdisk⟩ := h.knows w _ hjob
  have hholders : holders (s.become w (some ⟨chunk, .afterStore batch purpose⟩)) = holders s.workers :=
    holders_stage hjob _
  have hheld : holders s.workers w = some chunk := by simp [holders, hjob]
  have hrevoked : ∀ a, ((s.manager.cells.store chunk.lease batch.end_).leases a).revoked =
      (s.manager.cells.leases a).revoked := by
    intro a
    rw [store_lease]
    split
    · rename_i heq; rw [heq]
    · rfl
  refine ⟨⟨h.session.books.withCells (fun _ _ => store_endOffset _ _ _ _) le_rfl, h.session.picked⟩, ?_, ?_⟩
  · rw [hholders]
    refine ⟨h.custody.done, fun i c hc hopen x h1 h2 => ?_, fun i c hc hopen => ?_, h.custody.allocated,
      fun v k hk hforce => ?_, h.custody.apart⟩
    · have hbefore := h.custody.written i c hc hopen
      simp only [store_lease] at h2
      split at h2
      · rename_i heq
        rcases Nat.lt_or_ge x batch.pos with hx | hx
        · exact hbefore x h1 (by rw [heq]; exact hpos ▸ hx)
        · exact hdisk x hx h2
      · exact hbefore x h1 h2
    · exact (hrevoked _).trans (h.custody.inForce i c hc hopen)
    · rw [hrevoked] at hforce
      exact h.custody.owns v k hk hforce
  · intro v job hv
    simp only [become, Function.update_apply] at hv
    split at hv
    · cases hv
      refine Stage.knows_afterFlush purpose ?_
      simp [lease, store_lease]
    · rename_i hne
      -- no other worker has this lease
      have hother : job.chunk.lease ≠ chunk.lease := fun heq =>
        hne (h.custody.apart v w job.chunk chunk (by simp [holders, hv]) hheld heq)
      show job.stage.Knows ((s.manager.cells.store chunk.lease batch.end_).leases job.chunk.lease) s.written
      rw [store_lease, if_neg hother]
      exact h.knows v job hv

theorem Sound.settle {total : Nat} {s : Download} (h : s.Sound total) {w : Nat} {chunk : Chunk}
    {outcome : Outcome} (hjob : s.workers w = some ⟨chunk, .settling outcome⟩) (error : String)
    (verdict : Verdict) (now : Nat) (backoffDelay : Nat → Nat) :
    Sound total { s with
      session := ⟨Hyperfetch.settle s.manager chunk outcome error verdict now backoffDelay, none⟩
      workers := s.become w none } := by
  have hheld : holders s.workers w = some chunk := by simp [holders, hjob]
  have hsettled := settled_settle h.custody h.session.books hheld (h.knows w _ hjob) error verdict now backoffDelay
  refine ⟨.idle hsettled.books, ?_, ?_⟩
  · rw [holders_become]
    exact hsettled.custody
  · intro v job hv
    simp only [become, Function.update_apply] at hv
    split at hv
    · cases hv
    · exact h.knows_grows hsettled.grows hv

/-- Every event keeps the invariant. -/
theorem Sound.step {total : Nat} {s s' : Download} {e : Event} (h : s.Sound total)
    (hstep : s.step e = some s') : s'.Sound total := by
  have hbooks := h.session.books
  cases e <;> simp only [Download.step] at hstep
  case getNextWork w mirrorId now =>
    cases asks_some hstep
    exact h.handed (hbooks.getNextWork w mirrorId now) (serves_getNextWork h.custody hbooks w mirrorId now)
      fun _ _ => trivial
  case assignAt w mirrorId start end_ now =>
    cases asks_some hstep
    exact h.handed (hbooks.assignAt w mirrorId start end_ now)
      (serves_assignAt h.custody hbooks w mirrorId start end_ now) fun _ _ => trivial
  case pickSilent w mirrorId minSilence now =>
    obtain ⟨session, hsession, rfl⟩ := Option.map_eq_some_iff.mp (asks_some hstep)
    exact h.picked hsession (.inl ⟨_, _, _, _, rfl⟩)
  case pickVictim v w mirrorId minBytes share now =>
    obtain ⟨session, hsession, rfl⟩ := Option.map_eq_some_iff.mp (asks_some hstep)
    exact h.picked hsession (.inr ⟨_, _, _, _, _, _, rfl⟩)
  case takePicked =>
    obtain ⟨p, hp, rfl⟩ := Option.map_eq_some_iff.mp hstep
    have hfly := h.session.picked p hp
    cases p with
    | silent id w mirrorId now =>
      obtain ⟨c, hc, hin⟩ := hfly
      exact h.handed (hbooks.takeOver hc hin w mirrorId now)
        (serves_takeOver h.custody hbooks hc hin w mirrorId now) fun _ _ => trivial
    | victim id w mirrorId minBytes share now =>
      obtain ⟨hmin, c, hc, hin⟩ := hfly
      exact h.handed (hbooks.stealFrom hc (inFlight_open hin).1 hmin w mirrorId share now)
        (serves_stealFrom h.custody hbooks hc (inFlight_open hin).1 hmin w mirrorId share now)
        fun _ _ => trivial
  case work w choice =>
    obtain ⟨job, hjob, hmap⟩ := Option.bind_eq_some_iff.mp hstep
    obtain ⟨stage, hstage, rfl⟩ := Option.map_eq_some_iff.mp hmap
    refine ⟨h.session, ?_, ?_⟩
    · rw [holders_stage hjob]
      exact h.custody
    · intro v job' hv
      simp only [become, Function.update_apply] at hv
      split at hv
      · cases hv
        exact (h.knows w job hjob).step hstage
      · exact h.knows v job' hv
  case write w =>
    split at hstep
    · rename_i chunk batch purpose hjob
      cases hstep
      have hgrow : ∀ b, s.written b = true →
          (s.written b || (decide (batch.pos ≤ b) && decide (b < batch.end_))) = true := by
        intro b hb
        simp [hb]
      refine ⟨h.session, ?_, ?_⟩
      · rw [holders_stage hjob]
        exact ⟨fun i c hc hd x h1 h2 => hgrow x (h.custody.done i c hc hd x h1 h2),
          fun i c hc hd x h1 h2 => hgrow x (h.custody.written i c hc hd x h1 h2),
          h.custody.inForce, h.custody.allocated, h.custody.owns, h.custody.apart⟩
      · intro v job hv
        simp only [become, Function.update_apply] at hv
        split at hv
        · cases hv
          exact ⟨h.knows w _ hjob, fun b h1 h2 => by simp [h1, h2]⟩
        · exact (h.knows v job hv).mono rfl le_rfl hgrow
    · cases hstep
  case store w =>
    split at hstep
    · rename_i chunk batch purpose hjob
      cases hstep
      exact h.store hjob
    · cases hstep
  case tell w a =>
    obtain ⟨job, hjob, rfl⟩ := Option.map_eq_some_iff.mp hstep
    exact ⟨⟨hbooks.withCells (fun _ _ => rfl) le_rfl, h.session.picked⟩,
      ⟨h.custody.done, h.custody.written, h.custody.inForce, h.custody.allocated, h.custody.owns,
        h.custody.apart⟩, h.knows⟩
  case settle w error verdict now backoffDelay =>
    split at hstep
    · rename_i chunk outcome hpicked hjob
      cases hstep
      exact h.settle hjob error verdict now backoffDelay
    · cases hstep
  case quit w =>
    obtain ⟨job, hjob, rfl⟩ := Option.map_eq_some_iff.mp hstep
    refine ⟨h.session, ?_, ?_⟩
    · rw [holders_become]
      exact h.custody.release w
    · intro v job' hv
      simp only [become, Function.update_apply] at hv
      split at hv
      · cases hv
      · exact h.knows v job' hv

theorem sound_start {total : Nat} {s : Download} (h : starts total s) : s.Sound total := by
  obtain ⟨hsize, ⟨base, maxRetries, resumed, hvalid, hsession, hwritten⟩, hidle⟩ := h
  have hbooks := books_withResumedRanges base hsize hvalid
  have hnone : holders s.workers = fun _ => none := by
    funext w
    simp [holders, hidle w]
  refine ⟨?_, ?_, fun w job hjob => by simp [hidle w] at hjob⟩
  · rw [hsession]
    exact Session.sound_start hsize hvalid base maxRetries
  · rw [hnone]
    have hmanager : s.manager = (withResumedRanges total base resumed).setMaxRetries maxRetries := by
      rw [manager, hsession]; rfl
    rw [hmanager]
    refine ⟨fun i c hc hd b h1 h2 => ?_, fun i c hc hopen b h1 h2 => ?_, fun i c hc hopen => ?_,
      by simp, by simp, by simp⟩
    · exact hwritten b ((resumed_chunk hvalid hc).2 hd b h1 (Nat.lt_succ_iff.mp h2))
    · change b < ((withResumedRanges total base resumed).cells.leases c.lease).currentOffset at h2
      rw [(resumed_chunk hvalid hc).1] at h2
      exact absurd h1 (Nat.not_le.mpr h2)
    · show ((withResumedRanges total base resumed).cells.leases c.lease).revoked = false
      rw [(resumed_chunk hvalid hc).1]
      rfl

theorem sound_invariant (total : Nat) : (downloads total).toTSys.Invariant (Sound total) :=
  TSys.Inductive.invariant
    { init := fun _ h => sound_start h
      step := fun _ _ h ⟨_, hstep⟩ => h.step hstep }

end Download

end Hyperfetch
