import Hyperfetch.Ftp.Attempt

/-!
# An FTP download's workers, their manager and their mirrors

The whole download, as that of HTTP workers, with the bytes each batch put in
the file and the connections each mirror has open. A worker that takes a chunk
takes a connection to its mirror with it (`take`), under the locks of both; it
gives the connection back when it settles, or when it stops (`work`).

`Counted` is what the mirrors can rely on, `Sound` what the chunks and the
file can.
-/

namespace Hyperfetch

open Weft ChunkManager

namespace ChunkManager

/-- The worker that asked. -/
def Picked.worker : Picked → Nat
  | .silent _ worker .. => worker
  | .victim _ worker .. => worker

/-- The mirror it asked for. -/
def Picked.mirrorId : Picked → Nat
  | .silent _ _ mirrorId _ => mirrorId
  | .victim _ _ mirrorId .. => mirrorId

end ChunkManager

namespace Ftp

/-- A worker's attempt: the chunk as it was handed over, its mirror, and where
it is. -/
structure Job where
  chunk : Chunk
  mirrorId : Nat
  stage : Stage

structure Download where
  session : Session
  /-- What an earlier run wrote. -/
  before : Nat → Bool
  /-- What this one wrote, and where. -/
  disk : Nat → Option UInt8
  racer : MirrorRacer
  workers : Nat → Option Job

/-- The file once `data` is written at `pos`. -/
def put (disk : Nat → Option UInt8) (pos : Nat) (data : List UInt8) (b : Nat) : Option UInt8 :=
  if pos ≤ b then (data[b - pos]?).or (disk b) else disk b

namespace Download

inductive Event
  | getNextWork (worker mirrorId now : Nat)
  | pickSilent (worker mirrorId : Nat) (minSilence : Nat → Nat) (now : Nat)
  | pickVictim (victim worker mirrorId minBytes : Nat) (share : Share) (now : Nat)
  | takePicked
  | work (worker : Nat) (choice : Choice)
  /-- The batch went to disk. -/
  | write (worker : Nat)
  /-- Only the first `n` bytes of the batch did. -/
  | writeFails (worker n : Nat)
  /-- The offset of a written batch is stored. -/
  | store (worker : Nat)
  | tell (worker : Nat) (a : Hyperfetch.Attempt)
  | settle (worker : Nat) (error : String) (now : Nat) (backoffDelay : Nat → Nat)
  /-- The download is cancelled: the worker stops without settling. -/
  | quit (worker : Nat)
  /-- A mirror that answered late joins. -/
  | addMirror
  | recordSuccess (mirrorId : Nat)

/-- The worker whose attempt an event is a step of. -/
def Event.attempt : Event → Option Nat
  | .work worker _ | .write worker | .writeFails worker _ | .store worker | .tell worker _ | .settle worker ..
  | .quit worker => some worker
  | _ => none

abbrev manager (s : Download) : ChunkManager := s.session.manager

def lease (s : Download) (chunk : Chunk) : Lease := s.manager.cells.leases chunk.lease

def written (s : Download) (b : Nat) : Bool := s.before b || (s.disk b).isSome

def become (s : Download) (worker : Nat) (job : Option Job) : Nat → Option Job :=
  Function.update s.workers worker job

/-- An idle worker gets what an operation handed out, and a connection. -/
def handed (s : Download) (worker mirrorId : Nat) (r : Option Chunk × ChunkManager) : Download :=
  match r.1 with
  | some chunk =>
    { s with
      session := ⟨r.2, none⟩
      racer := s.racer.acquireMirror mirrorId
      workers := s.become worker (some ⟨chunk, mirrorId, .handed⟩) }
  | none => { s with session := ⟨r.2, none⟩ }

/-- An idle worker takes the locks for a mirror that takes a connection. -/
def asks (s : Download) (worker mirrorId now : Nat) (next : Option Download) : Option Download :=
  if (s.workers worker).isNone ∧ s.session.picked.isNone ∧ (s.racer[mirrorId]?).any (·.usable now) then next
  else none

def step (file : Nat → UInt8) (s : Download) : Event → Option Download
  | .getNextWork worker mirrorId now =>
    s.asks worker mirrorId now (some (s.handed worker mirrorId (s.manager.getNextWork worker mirrorId now)))
  | .pickSilent worker mirrorId minSilence now =>
    s.asks worker mirrorId now
      ((s.session.step (.pickSilent worker mirrorId minSilence now)).map ({ s with session := · }))
  | .pickVictim victim worker mirrorId minBytes share now =>
    s.asks worker mirrorId now
      ((s.session.step (.pickVictim victim worker mirrorId minBytes share now)).map ({ s with session := · }))
  | .takePicked => s.session.picked.map fun
    | .silent id worker mirrorId now =>
      s.handed worker mirrorId (s.manager.takeOver id worker mirrorId now)
    | .victim id worker mirrorId minBytes share now =>
      s.handed worker mirrorId (Prod.map (Option.map Prod.snd) (fun m => m)
        (s.manager.stealFrom id worker mirrorId minBytes share now))
  | .work worker choice => (s.workers worker).bind fun job =>
    (job.stage.step file (s.lease job.chunk) choice).map fun stage =>
      { s with workers := s.become worker (some { job with stage }) }
  | .write worker =>
    match s.workers worker with
    | some ⟨chunk, mirrorId, .writing t purpose⟩ =>
      some { s with
        disk := put s.disk t.pos t.batch
        workers := s.become worker (some ⟨chunk, mirrorId, .storing t purpose⟩) }
    | _ => none
  | .writeFails worker n =>
    match s.workers worker with
    | some ⟨chunk, mirrorId, .writing t purpose⟩ =>
      some { s with
        disk := put s.disk t.pos (t.batch.take n)
        workers := s.become worker (some ⟨chunk, mirrorId, .afterDiskError t purpose⟩) }
    | _ => none
  | .store worker =>
    match s.workers worker with
    | some ⟨chunk, mirrorId, .storing t purpose⟩ =>
      some { s with
        session.manager.cells := s.manager.cells.store chunk.lease t.end_
        workers := s.become worker (some ⟨chunk, mirrorId, .afterStore t purpose⟩) }
    | _ => none
  | .tell worker a => (s.workers worker).map fun job =>
    { s with session.manager.cells := s.manager.cells.tell job.chunk.attempt a }
  | .settle worker error now backoffDelay =>
    match s.session.picked, s.workers worker with
    | none, some ⟨chunk, mirrorId, .settling outcome⟩ =>
      let (racer, manager) := Ftp.settle s.racer s.manager chunk mirrorId outcome error now backoffDelay
      some { s with session := ⟨manager, none⟩, racer, workers := s.become worker none }
    | _, _ => none
  | .quit worker =>
    match s.session.picked, s.workers worker with
    | none, some ⟨_, mirrorId, .settling _⟩ =>
      some { s with racer := s.racer.releaseMirror mirrorId, workers := s.become worker none }
    | _, _ => none
  | .addMirror => if s.session.picked.isNone then some { s with racer := s.racer ++ [.new] } else none
  | .recordSuccess mirrorId =>
    if s.session.picked.isNone then some { s with racer := s.racer.modify mirrorId Mirror.recordSuccess } else none

/-- The manager of a file of `total` bytes starts on its own, over resumed
ranges that are written; no mirror has a connection open. -/
def starts (total : Nat) (s : Download) : Prop :=
  total ≤ u64Max ∧ (∃ baseChunkSize maxRetries resumed, (∀ r ∈ resumed, ByteRange.Valid r) ∧
    s.session = .start total baseChunkSize maxRetries resumed ∧
    ∀ b, Covered resumed b → s.before b = true) ∧
  (∀ b, s.disk b = none) ∧ (∀ m ∈ s.racer, m.inFlight = 0) ∧ ∀ w, s.workers w = none

end Download

def downloads (total : Nat) (file : Nat → UInt8) : Machine Download Download.Event where
  init := Download.starts total
  step := Download.step file

namespace Download

/-! ## The mirrors' connections -/

/-- The workers with an attempt at mirror `id`. -/
def attemptsAt (s : Download) (id : Nat) : Set Nat := {w | ∃ job, s.workers w = some job ∧ job.mirrorId = id}

/-- Each mirror has a connection for each attempt at it, and each attempt has
its mirror. -/
structure Counted (s : Download) : Prop where
  counts : ∀ id n, s.racer.openTo id = some n → (n : ℕ∞) = (s.attemptsAt id).encard
  known : ∀ w job, s.workers w = some job → (s.racer.openTo job.mirrorId).isSome = true
  /-- A worker in the middle of `take` has none, and a mirror to take one at. -/
  picked : ∀ p ∈ s.session.picked, s.workers p.worker = none ∧ (s.racer.openTo p.mirrorId).isSome = true

theorem attemptsAt_take {s : Download} {w : Nat} (hidle : s.workers w = none) (job : Job) (racer : MirrorRacer)
    (session : Session) (id : Nat) :
    attemptsAt { s with session, racer, workers := s.become w (some job) } id =
      if job.mirrorId = id then insert w (s.attemptsAt id) else s.attemptsAt id := by
  ext v
  have hbecome : v ∈ attemptsAt { s with session, racer, workers := s.become w (some job) } id ↔
      ∃ j, Function.update s.workers w (some job) v = some j ∧ j.mirrorId = id := Iff.rfl
  rw [hbecome, Function.update_apply]
  by_cases hv : v = w
  · subst hv
    rw [if_pos rfl]
    by_cases hid : job.mirrorId = id
    · rw [if_pos hid]
      exact ⟨fun _ => Set.mem_insert _ _, fun _ => ⟨job, rfl, hid⟩⟩
    · rw [if_neg hid]
      refine ⟨fun ⟨j, hj, heq⟩ => ?_, fun ⟨j, hj, _⟩ => ?_⟩
      · cases hj
        exact absurd heq hid
      · rw [hidle] at hj
        cases hj
  · rw [if_neg hv]
    split
    · exact ⟨fun h => Set.mem_insert_of_mem _ h, fun h => h.resolve_left hv⟩
    · exact Iff.rfl

theorem attemptsAt_leave {s : Download} (w : Nat) (racer : MirrorRacer) (session : Session) (id : Nat) :
    attemptsAt { s with session, racer, workers := s.become w none } id = s.attemptsAt id \ {w} := by
  ext v
  have hbecome : v ∈ attemptsAt { s with session, racer, workers := s.become w none } id ↔
      ∃ j, Function.update s.workers w none v = some j ∧ j.mirrorId = id := Iff.rfl
  rw [hbecome, Function.update_apply]
  by_cases hv : v = w
  · subst hv
    rw [if_pos rfl]
    exact ⟨fun ⟨_, hj, _⟩ => (by cases hj), fun h => absurd rfl h.2⟩
  · rw [if_neg hv]
    exact ⟨fun h => ⟨h, hv⟩, fun h => h.1⟩

/-- A new stage of the same attempt is at the same mirror. -/
theorem Counted.stage {s s' : Download} (h : s.Counted) {w : Nat} {job : Job} (hjob : s.workers w = some job)
    (hstage : ∃ chunk stage, s'.workers = s.become w (some ⟨chunk, job.mirrorId, stage⟩))
    (hracer : s'.racer = s.racer) (hpicked : s'.session.picked = s.session.picked) : s'.Counted := by
  obtain ⟨chunk, stage, hworkers⟩ := hstage
  have hget : ∀ v j, s'.workers v = some j → ∃ j', s.workers v = some j' ∧ j'.mirrorId = j.mirrorId := by
    intro v j hj
    rw [hworkers, become, Function.update_apply] at hj
    split at hj
    · rename_i hv
      cases hj
      exact ⟨job, hv ▸ hjob, rfl⟩
    · exact ⟨j, hj, rfl⟩
  have hback : ∀ v j, s.workers v = some j → ∃ j', s'.workers v = some j' ∧ j'.mirrorId = j.mirrorId := by
    intro v j hj
    rw [hworkers, become, Function.update_apply]
    split
    · rename_i hv
      rw [hv, hjob] at hj
      cases hj
      exact ⟨_, rfl, rfl⟩
    · exact ⟨j, hj, rfl⟩
  have hsame : ∀ id, s'.attemptsAt id = s.attemptsAt id := by
    intro id
    ext v
    refine ⟨fun ⟨j, hj, hid⟩ => ?_, fun ⟨j, hj, hid⟩ => ?_⟩
    · obtain ⟨j', hj', heq⟩ := hget v j hj
      exact ⟨j', hj', heq.trans hid⟩
    · obtain ⟨j', hj', heq⟩ := hback v j hj
      exact ⟨j', hj', heq.trans hid⟩
  refine ⟨fun id n hn => ?_, fun v j hj => ?_, fun p hp => ?_⟩
  · rw [hsame]
    exact h.counts id n (hracer ▸ hn)
  · obtain ⟨j', hj', heq⟩ := hget v j hj
    rw [hracer, ← heq]
    exact h.known v j' hj'
  · obtain ⟨hidle, hknown⟩ := h.picked p (hpicked ▸ hp)
    refine ⟨?_, hracer ▸ hknown⟩
    cases hbusy : s'.workers p.worker with
    | none => rfl
    | some j =>
      obtain ⟨j', hj', _⟩ := hget _ j hbusy
      rw [hidle] at hj'
      cases hj'

/-- An idle worker takes a chunk, and a connection with it. -/
theorem Counted.handed {s : Download} (h : s.Counted) {w mirrorId : Nat} (hidle : s.workers w = none)
    (hknown : (s.racer.openTo mirrorId).isSome = true) (r : Option Chunk × ChunkManager) :
    (s.handed w mirrorId r).Counted := by
  obtain ⟨given, m⟩ := r
  cases given with
  | none => exact ⟨h.counts, h.known, fun p hp => by cases hp⟩
  | some chunk =>
    refine ⟨fun id n hn => ?_, fun v j hj => ?_, fun p hp => by cases hp⟩
    · have hset := attemptsAt_take hidle ⟨chunk, mirrorId, .handed⟩ (s.racer.acquireMirror mirrorId) ⟨m, none⟩ id
      show (n : ℕ∞) = (attemptsAt { s with
        session := ⟨m, none⟩, racer := s.racer.acquireMirror mirrorId
        workers := s.become w (some ⟨chunk, mirrorId, .handed⟩) } id).encard
      have hopen : (s.racer.acquireMirror mirrorId).openTo id = some n := hn
      rw [MirrorRacer.openTo_acquire] at hopen
      rw [hset]
      dsimp only
      split at hopen
      · rename_i hid
        rw [if_pos hid]
        obtain ⟨n', hn', rfl⟩ := Option.map_eq_some_iff.mp hopen
        have hnot : w ∉ s.attemptsAt id := by
          rintro ⟨job, hjob, _⟩
          rw [hidle] at hjob
          cases hjob
        rw [Set.encard_insert_of_notMem hnot, ← h.counts id n' hn', Nat.cast_add, Nat.cast_one]
      · rename_i hid
        rw [if_neg hid]
        exact h.counts id n hopen
    · have hj' : Function.update s.workers w (some ⟨chunk, mirrorId, .handed⟩) v = some j := hj
      show ((s.racer.acquireMirror mirrorId).openTo j.mirrorId).isSome = true
      have hsome : (s.racer.openTo j.mirrorId).isSome = true := by
        rw [Function.update_apply] at hj'
        split at hj'
        · cases hj'
          exact hknown
        · exact h.known v j hj'
      rw [MirrorRacer.openTo_acquire]
      split
      · rw [Option.isSome_map]
        exact hsome
      · exact hsome

/-- A worker leaves its mirror: it had a connection to give back. -/
theorem Counted.leaves {s : Download} (h : s.Counted) {w : Nat} {job : Job} (hjob : s.workers w = some job)
    {racer : MirrorRacer} (hopen : ∀ i, racer.openTo i = (s.racer.releaseMirror job.mirrorId).openTo i)
    (m : ChunkManager) :
    Counted { s with session := ⟨m, none⟩, racer, workers := s.become w none } := by
  refine ⟨fun id n hn => ?_, fun v j hj => ?_, fun p hp => by cases hp⟩
  · rw [attemptsAt_leave]
    have hleft : racer.openTo id = some n := hn
    rw [hopen, MirrorRacer.openTo_release] at hleft
    split at hleft
    · rename_i hid
      obtain ⟨n', hn', rfl⟩ := Option.map_eq_some_iff.mp hleft
      have hmem : w ∈ s.attemptsAt id := ⟨job, hjob, hid⟩
      have hcount := Set.encard_sdiff_singleton_add_one hmem
      rw [← h.counts id n' hn'] at hcount
      -- with one attempt at least, taking one off does not stop at zero
      cases n' with
      | zero =>
        rw [Nat.cast_zero] at hcount
        exact absurd hcount (by simp)
      | succ k =>
        rw [Nat.cast_add, Nat.cast_one] at hcount
        have hinj := (ENat.addLECancellable_of_ne_top ENat.one_ne_top).inj_left.mp hcount
        rw [hinj, Nat.add_sub_cancel]
    · rename_i hid
      have hnot : w ∉ s.attemptsAt id := by
        rintro ⟨job', hjob', hid'⟩
        rw [hjob] at hjob'
        cases hjob'
        exact hid hid'
      rw [Set.sdiff_singleton_eq_self hnot]
      exact h.counts id n hleft
  · have hj' : Function.update s.workers w none v = some j := hj
    show (racer.openTo j.mirrorId).isSome = true
    have hsome : (s.racer.openTo j.mirrorId).isSome = true := by
      rw [Function.update_apply] at hj'
      split at hj'
      · cases hj'
      · exact h.known v j hj'
    rw [hopen, MirrorRacer.openTo_release]
    split
    · rw [Option.isSome_map]
      exact hsome
    · exact hsome

theorem asks_some {s s' : Download} {w mirrorId now : Nat} {next : Option Download}
    (h : s.asks w mirrorId now next = some s') :
    s.workers w = none ∧ (s.racer.openTo mirrorId).isSome = true ∧ next = some s' := by
  unfold asks at h
  split at h
  · rename_i hasks
    refine ⟨Option.isNone_iff_eq_none.mp hasks.1, ?_, h⟩
    have husable := hasks.2.2
    rw [MirrorRacer.openTo, Option.isSome_map]
    cases hm : s.racer[mirrorId]? with
    | none =>
      rw [hm] at husable
      cases husable
    | some m => rfl
  · cases h

/-- What is picked is picked for the worker that asked. -/
theorem picked_step {s s' : Session} {w mirrorId : Nat} {e : ChunkManager.Event} (hstep : s.step e = some s')
    (he : (∃ minSilence now, e = .pickSilent w mirrorId minSilence now) ∨
      ∃ v minBytes share now, e = .pickVictim v w mirrorId minBytes share now) :
    ∀ p ∈ s'.picked, p.worker = w ∧ p.mirrorId = mirrorId := by
  rcases he with ⟨minSilence, now, rfl⟩ | ⟨v, minBytes, share, now, rfl⟩ <;>
    simp only [Session.step] at hstep <;> rw [locked_some hstep] <;> split <;> intro p hp
  · cases hp
  · obtain ⟨id, _, rfl⟩ := Option.map_eq_some_iff.mp hp
    exact ⟨rfl, rfl⟩
  · cases hp
    exact ⟨rfl, rfl⟩
  · cases hp

theorem Counted.picks {s : Download} (h : s.Counted) {w mirrorId : Nat} {session : Session}
    (hidle : s.workers w = none) (hknown : (s.racer.openTo mirrorId).isSome = true)
    (hpicked : ∀ p ∈ session.picked, p.worker = w ∧ p.mirrorId = mirrorId) : Counted { s with session } := by
  refine ⟨h.counts, h.known, fun p hp => ?_⟩
  obtain ⟨hw, hmirror⟩ := hpicked p hp
  rw [hw, hmirror]
  exact ⟨hidle, hknown⟩

/-- Mirrors that keep their connections, and perhaps one more with none. -/
theorem Counted.mirrors {s : Download} (h : s.Counted) {racer : MirrorRacer}
    (hopen : ∀ i, racer.openTo i = s.racer.openTo i ∨ (racer.openTo i = some 0 ∧ s.racer.openTo i = none)) :
    Counted { s with racer } := by
  have hsome : ∀ i, (s.racer.openTo i).isSome = true → (racer.openTo i).isSome = true := by
    intro i hi
    rcases hopen i with heq | ⟨heq, _⟩ <;> rw [heq]
    · exact hi
    · rfl
  refine ⟨fun id n hn => ?_, fun w job hjob => hsome _ (h.known w job hjob), fun p hp => ?_⟩
  · show (n : ℕ∞) = (s.attemptsAt id).encard
    have hn' : racer.openTo id = some n := hn
    rcases hopen id with heq | ⟨heq, hnone⟩
    · exact h.counts id n (heq ▸ hn')
    · -- nobody can be at a mirror that was not there
      rw [heq] at hn'
      cases hn'
      have hempty : s.attemptsAt id = ∅ := by
        refine Set.eq_empty_iff_forall_notMem.mpr fun w hw => ?_
        obtain ⟨job, hjob, hid⟩ := hw
        have hthere := h.known w job hjob
        rw [hid, hnone] at hthere
        cases hthere
      rw [hempty, Set.encard_empty, Nat.cast_zero]
  · exact ⟨(h.picked p hp).1, hsome _ (h.picked p hp).2⟩

theorem Counted.step {file : Nat → UInt8} {s s' : Download} {e : Event} (h : s.Counted)
    (hstep : s.step file e = some s') : s'.Counted := by
  cases e <;> simp only [Download.step] at hstep
  case getNextWork w mirrorId now =>
    obtain ⟨hidle, hknown, hnext⟩ := asks_some hstep
    cases hnext
    exact h.handed hidle hknown _
  case pickSilent w mirrorId minSilence now =>
    obtain ⟨hidle, hknown, hnext⟩ := asks_some hstep
    obtain ⟨session, hsession, rfl⟩ := Option.map_eq_some_iff.mp hnext
    exact h.picks hidle hknown (picked_step hsession (.inl ⟨_, _, rfl⟩))
  case pickVictim v w mirrorId minBytes share now =>
    obtain ⟨hidle, hknown, hnext⟩ := asks_some hstep
    obtain ⟨session, hsession, rfl⟩ := Option.map_eq_some_iff.mp hnext
    exact h.picks hidle hknown (picked_step hsession (.inr ⟨_, _, _, _, rfl⟩))
  case takePicked =>
    obtain ⟨p, hp, rfl⟩ := Option.map_eq_some_iff.mp hstep
    obtain ⟨hidle, hknown⟩ := h.picked p hp
    cases p with
    | silent id w mirrorId now => exact h.handed hidle hknown _
    | victim id w mirrorId minBytes share now => exact h.handed hidle hknown _
  case work w choice =>
    obtain ⟨job, hjob, hmap⟩ := Option.bind_eq_some_iff.mp hstep
    obtain ⟨stage, _, rfl⟩ := Option.map_eq_some_iff.mp hmap
    exact h.stage hjob ⟨_, _, rfl⟩ rfl rfl
  case write w =>
    split at hstep <;> cases hstep
    rename_i hjob
    exact h.stage hjob ⟨_, _, rfl⟩ rfl rfl
  case writeFails w n =>
    split at hstep <;> cases hstep
    rename_i hjob
    exact h.stage hjob ⟨_, _, rfl⟩ rfl rfl
  case store w =>
    split at hstep <;> cases hstep
    rename_i hjob
    exact h.stage hjob ⟨_, _, rfl⟩ rfl rfl
  case tell w a =>
    obtain ⟨job, _, rfl⟩ := Option.map_eq_some_iff.mp hstep
    exact ⟨h.counts, h.known, h.picked⟩
  case settle w error now backoffDelay =>
    split at hstep <;> cases hstep
    rename_i chunk mirrorId outcome _ hjob
    exact h.leaves hjob (openTo_settle s.racer s.manager chunk mirrorId outcome error now backoffDelay) _
  case quit w =>
    split at hstep <;> cases hstep
    rename_i mirrorId _ hnone hjob
    have hopen : ∀ i, (s.racer.releaseMirror mirrorId).openTo i = (s.racer.releaseMirror mirrorId).openTo i :=
      fun _ => rfl
    have hleaves := h.leaves hjob hopen s.manager
    refine ⟨hleaves.counts, hleaves.known, fun p hp => ?_⟩
    rw [show s.session.picked = none from hnone] at hp
    cases hp
  case addMirror =>
    split at hstep <;> cases hstep
    refine h.mirrors fun i => ?_
    rw [MirrorRacer.openTo_concat]
    split
    · rename_i hi
      exact .inr ⟨rfl, by rw [MirrorRacer.openTo, List.getElem?_eq_none (Nat.le_of_eq hi.symm)]; rfl⟩
    · exact .inl rfl
  case recordSuccess id =>
    split at hstep <;> cases hstep
    refine h.mirrors fun i => .inl ?_
    unfold MirrorRacer.openTo
    rw [List.getElem?_modify]
    split
    · cases s.racer[i]? <;> rfl
    · cases s.racer[i]? <;> rfl

theorem counted_start {total : Nat} {s : Download} (h : starts total s) : s.Counted := by
  obtain ⟨_, ⟨_, _, _, _, hsession, _⟩, _, hidleMirrors, hidle⟩ := h
  refine ⟨fun id n hn => ?_, fun w job hjob => ?_, fun p hp => ?_⟩
  on_goal 2 =>
    rw [hidle w] at hjob
    cases hjob
  on_goal 2 =>
    rw [hsession] at hp
    cases hp
  obtain ⟨m, hm, rfl⟩ := Option.map_eq_some_iff.mp hn
  have hempty : s.attemptsAt id = ∅ := by
    refine Set.eq_empty_iff_forall_notMem.mpr fun w hw => ?_
    obtain ⟨job, hjob, _⟩ := hw
    rw [hidle w] at hjob
    cases hjob
  rw [hidleMirrors m (List.mem_of_getElem? hm), hempty, Set.encard_empty, Nat.cast_zero]

theorem counted_invariant (total : Nat) (file : Nat → UInt8) : (downloads total file).toTSys.Invariant Counted :=
  TSys.Inductive.invariant
    { init := fun _ h => counted_start h
      step := fun _ _ h ⟨_, hstep⟩ => h.step hstep }

end Download

end Ftp

end Hyperfetch
