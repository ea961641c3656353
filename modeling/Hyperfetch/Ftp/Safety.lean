import Hyperfetch.Ftp.Download

/-!
# An FTP worker is as safe as an HTTP one

The invariant of an FTP download: the books balance, custody holds, each
attempt knows what its stage says, and what is in the file is in its place.
`as_safe` is what comes of it, with what the mirrors can rely on.
-/

namespace Hyperfetch

open Weft ChunkManager

namespace Ftp

namespace Download

/-- The chunk copies the workers hold. -/
def holders (workers : Nat → Option Job) (w : Nat) : Option Chunk := (workers w).map Job.chunk

structure Sound (total : Nat) (file : Nat → UInt8) (s : Download) : Prop where
  session : s.session.Sound total
  custody : Custody s.manager s.written (holders s.workers)
  knows : ∀ w job, s.workers w = some job → job.stage.Knows file (s.lease job.chunk) s.written
  /-- Each byte is where it belongs. -/
  placed : ∀ b v, s.disk b = some v → v = file b

variable {total : Nat} {file : Nat → UInt8} {s : Download}

theorem holders_become (s : Download) (w : Nat) (job : Option Job) :
    holders (s.become w job) = Function.update (holders s.workers) w (job.map Job.chunk) := by
  funext v
  simp only [holders, become, Function.update_apply]
  split <;> rfl

/-- A new stage of the same attempt changes no holder. -/
theorem holders_stage {w : Nat} {job : Job} (hjob : s.workers w = some job) (mirrorId : Nat) (stage : Stage) :
    holders (s.become w (some ⟨job.chunk, mirrorId, stage⟩)) = holders s.workers := by
  rw [holders_become, Function.update_eq_self_iff]
  simp [holders, hjob]

theorem falls_of_grows {m m' : ChunkManager} (hgrows : m.Grows m') {lease : Nat} (hlt : lease < m.cells.next) :
    Falls (m.cells.leases lease) (m'.cells.leases lease) :=
  ⟨hgrows.offset _ hlt, hgrows.end_ _ hlt, hgrows.revoked _ hlt⟩

/-- What attempts know survives any operation of the manager. -/
theorem Sound.knows_grows (h : s.Sound total file) {m' : ChunkManager} (hgrows : s.manager.Grows m') {w : Nat}
    {job : Job} (hjob : s.workers w = some job) :
    job.stage.Knows file (m'.cells.leases job.chunk.lease) s.written :=
  have hlt := h.custody.allocated w job.chunk (by simp [holders, hjob])
  (h.knows w job hjob).falls (falls_of_grows hgrows hlt) fun _ hb => hb

/-- An operation that serves a worker keeps the invariant. -/
theorem Sound.handed (h : s.Sound total file) {w : Nat} (mirrorId : Nat) {r : Option Chunk × ChunkManager}
    (hbooks : r.2.Books total) (hserves : Serves s.manager s.written (holders s.workers) w r) :
    (s.handed w mirrorId r).Sound total file := by
  obtain ⟨given, m'⟩ := r
  cases given with
  | none => exact ⟨.idle hbooks, hserves.custody, fun v job hjob => h.knows_grows hserves.grows hjob, h.placed⟩
  | some chunk =>
    refine ⟨.idle hbooks, ?_, fun v job hjob => ?_, h.placed⟩
    · have hcustody := hserves.custody
      simp only [Download.handed, holders_become]
      exact hcustody
    · simp only [Download.handed, become, Function.update_apply] at hjob
      split at hjob
      · cases hjob
        trivial
      · exact h.knows_grows hserves.grows hjob

theorem Sound.picks (h : s.Sound total file) {session : Session} {e : ChunkManager.Event}
    (hstep : s.session.step e = some session)
    (he : (∃ w mirrorId minSilence now, e = .pickSilent w mirrorId minSilence now) ∨
      ∃ v w mirrorId minBytes share now, e = .pickVictim v w mirrorId minBytes share now) :
    Sound total file { s with session } := by
  have horderly : s.session.orderly e = true := by
    rcases he with ⟨_, _, _, _, rfl⟩ | ⟨_, _, _, _, _, _, rfl⟩ <;> rfl
  have hmanager := Hyperfetch.Download.pick_manager hstep he
  refine ⟨h.session.step horderly hstep, ?_, fun w job hjob => ?_, h.placed⟩
  · show Custody session.manager s.written _
    rw [hmanager]
    exact h.custody
  · show job.stage.Knows file (session.manager.cells.leases _) s.written
    rw [hmanager]
    exact h.knows w job hjob

/-! ## Writing -/

/-- What is written of a batch is the file's bytes. -/
theorem placed_put {disk : Nat → Option UInt8} (h : ∀ b v, disk b = some v → v = file b) {pos : Nat}
    {data : List UInt8} (hdata : data = slice file pos data.length) :
    ∀ b v, put disk pos data b = some v → v = file b := by
  intro b v hv
  unfold put at hv
  split at hv
  · rename_i hpos
    by_cases hin : b - pos < data.length
    · rw [hdata, getElem?_slice file hin, Option.some_or, Nat.add_sub_cancel' hpos] at hv
      exact (Option.some.inj hv).symm
    · rw [List.getElem?_eq_none (Nat.le_of_not_lt hin), Option.none_or] at hv
      exact h b v hv
  · exact h b v hv

theorem isSome_put {disk : Nat → Option UInt8} {pos b : Nat} {data : List UInt8} (h : (disk b).isSome = true) :
    (put disk pos data b).isSome = true := by
  unfold put
  split
  · rw [Option.isSome_or, h, Bool.or_true]
  · exact h

theorem put_covers (disk : Nat → Option UInt8) {pos b : Nat} {data : List UInt8} (hpos : pos ≤ b)
    (hend : b < pos + data.length) : (put disk pos data b).isSome = true := by
  unfold put
  rw [if_pos hpos, Option.isSome_or, List.getElem?_eq_getElem (by omega)]
  rfl

/-- More of the file is written, and one attempt goes on with that. -/
theorem Sound.writes (h : s.Sound total file) {w : Nat} {job : Job} (hjob : s.workers w = some job) {pos : Nat}
    {data : List UInt8} (hdata : data = slice file pos data.length) {stage : Stage}
    (hstage : ∀ written, (∀ b, s.written b = true → written b = true) →
      (∀ b, pos ≤ b → b < pos + data.length → written b = true) →
      stage.Knows file (s.lease job.chunk) written) :
    Sound total file { s with
      disk := put s.disk pos data
      workers := s.become w (some ⟨job.chunk, job.mirrorId, stage⟩) } := by
  have hgrow : ∀ b, s.written b = true → (s.before b || (put s.disk pos data b).isSome) = true := by
    intro b hb
    rcases Bool.or_eq_true_iff.mp hb with hbefore | hdisk
    · rw [hbefore, Bool.true_or]
    · rw [isSome_put hdisk, Bool.or_true]
  refine ⟨h.session, ?_, fun v job' hv => ?_, placed_put h.placed hdata⟩
  · show Custody s.manager _ (holders (s.become w _))
    rw [holders_stage hjob]
    exact ⟨fun i c hc hd x h1 h2 => hgrow x (h.custody.done i c hc hd x h1 h2),
      fun i c hc hd x h1 h2 => hgrow x (h.custody.written i c hc hd x h1 h2),
      h.custody.inForce, h.custody.allocated, h.custody.owns, h.custody.apart⟩
  · simp only [become, Function.update_apply] at hv
    split at hv
    · cases hv
      refine hstage _ hgrow fun b h1 h2 => ?_
      show (s.before b || _) = true
      rw [put_covers s.disk h1 h2, Bool.or_true]
    · exact (h.knows v job' hv).falls ⟨rfl, le_rfl, fun hr => hr⟩ hgrow

/-- Recording a batch that is on disk keeps the invariant. -/
theorem Sound.stores (h : s.Sound total file) {w mirrorId : Nat} {chunk : Chunk} {t : Transfer} {purpose : Purpose}
    (hjob : s.workers w = some ⟨chunk, mirrorId, .storing t purpose⟩) :
    Sound total file { s with
      session.manager.cells := s.manager.cells.store chunk.lease t.end_
      workers := s.become w (some ⟨chunk, mirrorId, .afterStore t purpose⟩) } := by
  obtain ⟨hright, hinstep, hdisk⟩ := h.knows w _ hjob
  have hpos : t.pos = (s.manager.cells.leases chunk.lease).currentOffset := hright.pos
  have hholders : holders (s.become w (some ⟨chunk, mirrorId, .afterStore t purpose⟩)) = holders s.workers :=
    holders_stage hjob _ _
  have hheld : holders s.workers w = some chunk := by simp [holders, hjob]
  have hstored : ∀ a, (s.manager.cells.store chunk.lease t.end_).leases a =
      if a = chunk.lease then { s.manager.cells.leases chunk.lease with currentOffset := t.end_ }
      else s.manager.cells.leases a := Hyperfetch.Download.store_lease _ _ _
  have hrevoked : ∀ a, ((s.manager.cells.store chunk.lease t.end_).leases a).revoked =
      (s.manager.cells.leases a).revoked := by
    intro a
    rw [hstored]
    split
    · rename_i heq
      rw [heq]
    · rfl
  refine ⟨⟨h.session.books.withCells (fun _ _ => store_endOffset _ _ _ _) le_rfl, h.session.picked⟩, ?_, ?_, h.placed⟩
  · rw [hholders]
    refine ⟨h.custody.done, fun i c hc hopen x h1 h2 => ?_, fun i c hc hopen => ?_, h.custody.allocated,
      fun v k hk hforce => ?_, h.custody.apart⟩
    · have hbefore := h.custody.written i c hc hopen
      rw [hstored] at h2
      split at h2
      · rename_i heq
        rcases Nat.lt_or_ge x t.pos with hx | hx
        · exact hbefore x h1 (by rw [heq]; exact hpos ▸ hx)
        · exact hdisk x hx h2
      · exact hbefore x h1 h2
    · exact (hrevoked _).trans (h.custody.inForce i c hc hopen)
    · rw [hrevoked] at hforce
      exact h.custody.owns v k hk hforce
  · intro v job hv
    simp only [become, Function.update_apply] at hv
    show job.stage.Knows file ((s.manager.cells.store chunk.lease t.end_).leases job.chunk.lease) s.written
    split at hv
    · cases hv
      rw [hstored, if_pos rfl]
      exact Stage.knows_afterFlush ⟨rfl, rfl⟩ fun hreturns => .inl (hinstep hreturns)
    · rename_i hne
      -- no other worker has this lease
      have hother : job.chunk.lease ≠ chunk.lease := fun heq =>
        hne (h.custody.apart v w job.chunk chunk (by simp [holders, hv]) hheld heq)
      rw [hstored, if_neg hother]
      exact h.knows v job hv

/-! ## Every event -/

theorem Sound.settles (h : s.Sound total file) (hcounted : s.Counted) {w mirrorId : Nat} {chunk : Chunk}
    {outcome : Outcome} (hjob : s.workers w = some ⟨chunk, mirrorId, .settling outcome⟩) (error : String) (now : Nat)
    (backoffDelay : Nat → Nat) :
    Sound total file { s with
      session := ⟨(Ftp.settle s.racer s.manager chunk mirrorId outcome error now backoffDelay).2, none⟩
      racer := (Ftp.settle s.racer s.manager chunk mirrorId outcome error now backoffDelay).1
      workers := s.become w none } := by
  have hheld : holders s.workers w = some chunk := by simp [holders, hjob]
  have hmirror : (s.racer[mirrorId]?).isSome = true := by
    have hopen := hcounted.known w _ hjob
    rwa [MirrorRacer.openTo, Option.isSome_map] at hopen
  obtain ⟨verdict, hsame⟩ := settle_eq s.manager chunk hmirror outcome error now backoffDelay
  have hpast : (Hyperfetch.Stage.settling outcome).Knows (s.manager.cells.leases chunk.lease) s.written := by
    have hknows := h.knows w _ hjob
    cases outcome with
    | ok => exact hknows
    | err kind => trivial
  have hsettled := settled_settle h.custody h.session.books hheld hpast error verdict now backoffDelay
  rw [← hsame] at hsettled
  refine ⟨.idle hsettled.books, ?_, fun v job hv => ?_, h.placed⟩
  · show Custody _ s.written (holders (s.become w none))
    rw [holders_become]
    exact hsettled.custody
  · simp only [become, Function.update_apply] at hv
    split at hv
    · cases hv
    · exact h.knows_grows hsettled.grows hv

theorem Sound.quits (h : s.Sound total file) (w : Nat) (racer : MirrorRacer) :
    Sound total file { s with racer, workers := s.become w none } := by
  refine ⟨h.session, ?_, fun v job hv => ?_, h.placed⟩
  · show Custody s.manager s.written (holders (s.become w none))
    rw [holders_become]
    exact h.custody.release w
  · simp only [become, Function.update_apply] at hv
    split at hv
    · cases hv
    · exact h.knows v job hv

/-- Every event keeps the invariant. -/
theorem Sound.step {s' : Download} {e : Event} (h : s.Sound total file) (hcounted : s.Counted)
    (hstep : s.step file e = some s') : s'.Sound total file := by
  have hbooks := h.session.books
  cases e <;> simp only [Download.step] at hstep
  case getNextWork w mirrorId now =>
    obtain ⟨_, _, hnext⟩ := asks_some hstep
    cases hnext
    exact h.handed mirrorId (hbooks.getNextWork w mirrorId now) (serves_getNextWork h.custody hbooks w mirrorId now)
  case pickSilent w mirrorId minSilence now =>
    obtain ⟨_, _, hnext⟩ := asks_some hstep
    obtain ⟨session, hsession, rfl⟩ := Option.map_eq_some_iff.mp hnext
    exact h.picks hsession (.inl ⟨_, _, _, _, rfl⟩)
  case pickVictim v w mirrorId minBytes share now =>
    obtain ⟨_, _, hnext⟩ := asks_some hstep
    obtain ⟨session, hsession, rfl⟩ := Option.map_eq_some_iff.mp hnext
    exact h.picks hsession (.inr ⟨_, _, _, _, _, _, rfl⟩)
  case takePicked =>
    obtain ⟨p, hp, rfl⟩ := Option.map_eq_some_iff.mp hstep
    have hfly := h.session.picked p hp
    cases p with
    | silent id w mirrorId now =>
      obtain ⟨c, hc, hin⟩ := hfly
      exact h.handed mirrorId (hbooks.takeOver hc hin w mirrorId now)
        (serves_takeOver h.custody hbooks hc hin w mirrorId now)
    | victim id w mirrorId minBytes share now =>
      obtain ⟨hmin, c, hc, hin⟩ := hfly
      exact h.handed mirrorId (hbooks.stealFrom hc (inFlight_open hin).1 hmin w mirrorId share now)
        (serves_stealFrom h.custody hbooks hc (inFlight_open hin).1 hmin w mirrorId share now)
  case work w choice =>
    obtain ⟨job, hjob, hmap⟩ := Option.bind_eq_some_iff.mp hstep
    obtain ⟨stage, hstage, rfl⟩ := Option.map_eq_some_iff.mp hmap
    refine ⟨h.session, ?_, fun v job' hv => ?_, h.placed⟩
    · show Custody s.manager s.written (holders (s.become w _))
      rw [holders_stage hjob]
      exact h.custody
    · simp only [become, Function.update_apply] at hv
      split at hv
      · cases hv
        exact (h.knows w job hjob).step hstage
      · exact h.knows v job' hv
  case write w =>
    split at hstep <;> cases hstep
    rename_i chunk mirrorId t purpose hjob
    obtain ⟨hright, hinstep⟩ := h.knows w _ hjob
    exact h.writes hjob hright.batch fun written _ hcovers => ⟨hright, hinstep, hcovers⟩
  case writeFails w n =>
    split at hstep <;> cases hstep
    rename_i chunk mirrorId t purpose hjob
    obtain ⟨hright, _⟩ := h.knows w _ hjob
    have hpiece : t.batch.take n = slice file t.pos (t.batch.take n).length := by
      rw [List.length_take, ← take_slice, ← hright.batch]
    exact h.writes hjob hpiece fun written _ _ => Stage.knows_afterDiskError hright purpose
  case store w =>
    split at hstep <;> cases hstep
    rename_i hjob
    exact h.stores hjob
  case tell w a =>
    obtain ⟨job, hjob, rfl⟩ := Option.map_eq_some_iff.mp hstep
    exact ⟨⟨hbooks.withCells (fun _ _ => rfl) le_rfl, h.session.picked⟩,
      ⟨h.custody.done, h.custody.written, h.custody.inForce, h.custody.allocated, h.custody.owns,
        h.custody.apart⟩, h.knows, h.placed⟩
  case settle w error now backoffDelay =>
    split at hstep <;> cases hstep
    rename_i hjob
    exact h.settles hcounted hjob error now backoffDelay
  case quit w =>
    split at hstep <;> cases hstep
    exact h.quits w _
  case addMirror =>
    split at hstep <;> cases hstep
    exact ⟨h.session, h.custody, h.knows, h.placed⟩
  case recordSuccess id =>
    split at hstep <;> cases hstep
    exact ⟨h.session, h.custody, h.knows, h.placed⟩

theorem sound_start (h : starts total s) : s.Sound total file := by
  obtain ⟨hsize, ⟨base, maxRetries, resumed, hvalid, hsession, hbefore⟩, hdisk, _, hidle⟩ := h
  have hnone : holders s.workers = fun _ => none := by
    funext w
    simp [holders, hidle w]
  have hmanager : s.manager = (withResumedRanges total base resumed).setMaxRetries maxRetries := by
    rw [manager, hsession]
    rfl
  refine ⟨?_, ?_, fun w job hjob => ?_, fun b v hv => ?_⟩
  · rw [hsession]
    exact Session.sound_start hsize hvalid base maxRetries
  · rw [hnone, hmanager]
    refine ⟨fun i c hc hd b h1 h2 => ?_, fun i c hc hopen b h1 h2 => ?_, fun i c hc hopen => ?_,
      by simp, by simp, by simp⟩
    · have hresumed := hbefore b ((resumed_chunk hvalid hc).2 hd b h1 (Nat.lt_succ_iff.mp h2))
      rw [written, hresumed, Bool.true_or]
    · change b < ((withResumedRanges total base resumed).cells.leases c.lease).currentOffset at h2
      rw [(resumed_chunk hvalid hc).1] at h2
      exact absurd h1 (Nat.not_le.mpr h2)
    · show ((withResumedRanges total base resumed).cells.leases c.lease).revoked = false
      rw [(resumed_chunk hvalid hc).1]
      rfl
  · rw [hidle w] at hjob
    cases hjob
  · rw [hdisk b] at hv
    cases hv

theorem sound_invariant (total : Nat) (file : Nat → UInt8) :
    (downloads total file).toTSys.Invariant (Sound total file) :=
  TSys.Inductive.relative (counted_invariant total file) (fun _ h => sound_start h)
    fun _ _ hcounted _ h ⟨_, hstep⟩ => h.step hcounted hstep

/-! ## A worker that lost its chunk -/

/-- Whatever became of it, an attempt whose chunk was taken over settles no
chunk; at most it ends the download. -/
theorem settle_revoked (racer : MirrorRacer) {m : ChunkManager} {chunk : Chunk} (mirrorId : Nat) (outcome : Outcome)
    (error : String) (now : Nat) (backoffDelay : Nat → Nat)
    (hrevoked : (m.cells.leases chunk.lease).revoked = true) :
    (Ftp.settle racer m chunk mirrorId outcome error now backoffDelay).2 = m ∨
      (Ftp.settle racer m chunk mirrorId outcome error now backoffDelay).2 = m.abort chunk.id error := by
  unfold Ftp.settle
  cases outcome with
  | ok =>
    dsimp only
    rw [if_pos hrevoked]
    exact .inl rfl
  | err kind =>
    dsimp only
    split
    · exact .inr rfl
    · split
      · exact .inr rfl
      · exact .inl rfl

/-- The chunks with their states, those to be retried, and how many are
completed. -/
def books (s : Download) : List Chunk × List Nat × Nat :=
  (s.manager.chunks, s.manager.retryQueue, s.manager.completed)

theorem books_abort (m : ChunkManager) (chunkId : Nat) (reason : String) :
    (m.abort chunkId reason).chunks = m.chunks ∧ (m.abort chunkId reason).retryQueue = m.retryQueue ∧
      (m.abort chunkId reason).completed = m.completed := by
  unfold ChunkManager.abort
  split <;> exact ⟨rfl, rfl, rfl⟩

theorem revoked_step {s' : Download} {e : Event} {w : Nat} {job : Job} (hjob : s.workers w = some job)
    (hrevoked : (s.lease job.chunk).revoked = true) (he : e.attempt = some w) (hstep : s.step file e = some s') :
    s'.books = s.books := by
  cases e <;> simp only [Event.attempt, reduceCtorEq, Option.some.injEq] at he <;> subst he <;>
    simp only [Download.step, hjob] at hstep
  case work choice =>
    simp only [Option.bind_some] at hstep
    obtain ⟨stage, _, rfl⟩ := Option.map_eq_some_iff.mp hstep
    rfl
  case write | writeFails | store | quit =>
    split at hstep <;> cases hstep
    rfl
  case tell a =>
    cases hstep
    rfl
  case settle error now backoffDelay =>
    split at hstep
    · rename_i chunk mirrorId outcome _ heq
      cases hstep
      cases heq
      show (_, _, _) = (_, _, _)
      rcases settle_revoked s.racer mirrorId outcome error now backoffDelay hrevoked with hsame | hsame
      · simp only [manager, hsame]
      · obtain ⟨hchunks, hqueue, hcompleted⟩ := books_abort s.manager chunk.id error
        simp only [manager, hsame, hchunks, hqueue, hcompleted]
    · cases hstep

end Download

/-! ## What can be relied on -/

/-- In every state of every download: a byte in the file is the one that
belongs there; what a chunk's offset passed is written, and all of a completed
chunk; an attempt that ended well has its chunk written to the end, unless it
lost it; an attempt that lost its chunk changes no chunk's state any more; and
each mirror has as many connections as attempts, one at least for each. -/
theorem as_safe (total : Nat) (file : Nat → UInt8) :
    (downloads total file).toTSys.Invariant fun s =>
      (∀ b v, s.disk b = some v → v = file b) ∧
      (∀ (i : Nat) (c : Chunk), s.manager.chunks[i]? = some c → ∀ b, c.range.start ≤ b →
        (c.isCompleted = true ∧ b ≤ c.range.end_ ∨ c.isCompleted = false ∧ b < (s.lease c).currentOffset) →
        s.written b = true) ∧
      (∀ w job, s.workers w = some job → job.stage = .settling .ok → (s.lease job.chunk).revoked = false →
        ∃ c, s.manager.chunks[job.chunk.id]? = some c ∧ c.range.end_ = (s.lease job.chunk).endOffset ∧
          ∀ b, c.range.start ≤ b → b ≤ c.range.end_ → s.written b = true) ∧
      (∀ (w : Nat) (job : Job) (e : Download.Event) (s' : Download), s.workers w = some job →
        (s.lease job.chunk).revoked = true → e.attempt = some w → s.step file e = some s' → s'.books = s.books) ∧
      (∀ id n, s.racer.openTo id = some n → (n : ℕ∞) = (s.attemptsAt id).encard) ∧
      ∀ w job, s.workers w = some job → ∃ n, s.racer.openTo job.mirrorId = some (n + 1) := by
  intro s hreach
  have hsound := Download.sound_invariant total file s hreach
  have hcounted := Download.counted_invariant total file s hreach
  refine ⟨hsound.placed, fun i c hc b h1 h2 => ?_, fun w job hjob hstage hforce => ?_,
    fun w job e s' hjob hrevoked he hstep => Download.revoked_step hjob hrevoked he hstep,
    hcounted.counts, fun w job hjob => ?_⟩
  · rcases h2 with ⟨hdone, h2⟩ | ⟨hopen, h2⟩
    · exact hsound.custody.done i c hc hdone b h1 (Nat.lt_succ_of_le h2)
    · exact hsound.custody.written i c hc hopen b h1 h2
  · have hpast := hsound.knows w job hjob
    rw [hstage] at hpast
    have hpast : (s.lease job.chunk).endOffset < (s.lease job.chunk).currentOffset := hpast
    have hheld : Download.holders s.workers w = some job.chunk := by simp [Download.holders, hjob]
    obtain ⟨c, hc, hopen, _, hlease⟩ := hsound.custody.own hheld hforce
    have hend : (s.manager.cells.leases c.lease).endOffset = c.range.end_ :=
      (hsound.session.books.entry job.chunk.id c hc).end_ hopen
    have hsame : s.manager.cells.leases c.lease = s.lease job.chunk := by rw [hlease]; rfl
    rw [hsame] at hend
    refine ⟨c, hc, hend.symm, fun b h1 h2 => hsound.custody.written _ c hc hopen b h1 ?_⟩
    rw [hsame]
    omega
  · obtain ⟨n, hn⟩ := Option.isSome_iff_exists.mp (hcounted.known w job hjob)
    have hcount := hcounted.counts _ n hn
    cases n with
    | zero =>
      rw [Nat.cast_zero, eq_comm, Set.encard_eq_zero] at hcount
      have hmem : w ∈ s.attemptsAt job.mirrorId := ⟨job, hjob, rfl⟩
      rw [hcount] at hmem
      cases hmem
    | succ n => exact ⟨n, hn⟩

/-- A download of a file of four bytes from one mirror, nothing on disk. -/
def Download.four : Download :=
  ⟨.start 4 0 8 [], fun _ => false, fun _ => none, [.new], fun _ => none⟩

theorem Download.starts_four : Download.four.starts 4 := by
  refine ⟨by simp [u64Max], ⟨0, 8, [], by simp, rfl, by simp⟩, fun _ => rfl, fun m hm => ?_, fun _ => rfl⟩
  rw [show m = .new from List.mem_singleton.mp hm]
  rfl

/-- All four bytes came over one connection, and are yet to be settled. -/
theorem as_safe_four : ∃ s, (downloads 4 UInt8.ofNat).run .four [
      .getNextWork 0 0 0, .work 0 .go, .work 0 .go, .work 0 .go, .work 0 .go, .work 0 (.bytes 4), .work 0 .go,
      .work 0 .go, .work 0 .go, .work 0 .bodyEnded, .work 0 .go, .work 0 .go, .write 0, .store 0,
      .work 0 .go] = some s ∧
    s.disk 3 = some (UInt8.ofNat 3) ∧ (1 : ℕ∞) = (s.attemptsAt 0).encard ∧ ∀ b < 4, s.written b = true := by
  have hrun : ∃ s job, (downloads 4 UInt8.ofNat).run .four [
      .getNextWork 0 0 0, .work 0 .go, .work 0 .go, .work 0 .go, .work 0 .go, .work 0 (.bytes 4), .work 0 .go,
      .work 0 .go, .work 0 .go, .work 0 .bodyEnded, .work 0 .go, .work 0 .go, .write 0, .store 0,
      .work 0 .go] = some s ∧ s.racer.openTo 0 = some 1 ∧ s.workers 0 = some job ∧ job.stage = .settling .ok ∧
      (s.lease job.chunk).revoked = false ∧ job.chunk.id = 0 ∧ (s.manager.chunks[0]?).map Chunk.range = some ⟨0, 3⟩ ∧
      (s.disk 3).isSome = true := by
    rw [Download.four, start_four]
    exact ⟨_, _, rfl, rfl, rfl, rfl, rfl, rfl, rfl, rfl⟩
  obtain ⟨s, job, hs, hopen, hjob, hstage, hforce, hid, hrange, hdisk⟩ := hrun
  obtain ⟨hplaced, _, hwhole, _, hcounts, _⟩ :=
    as_safe 4 UInt8.ofNat s (Machine.reachable_run (.init Download.starts_four) hs)
  obtain ⟨v, hv⟩ := Option.isSome_iff_exists.mp hdisk
  obtain ⟨c, hc, _, hwritten⟩ := hwhole 0 job hjob hstage hforce
  rw [hid] at hc
  rw [hc] at hrange
  have hrange : c.range = ⟨0, 3⟩ := Option.some.inj hrange
  rw [hrange] at hwritten
  refine ⟨s, hs, ?_, hcounts 0 1 hopen, fun b hb => hwritten b (Nat.zero_le b) (Nat.le_of_lt_succ hb)⟩
  rw [hv, hplaced 3 v hv]

end Ftp

end Hyperfetch
