import Hyperfetch.Weft.Durable
import Hyperfetch.Weft.Pieces
import Hyperfetch.Worker.Safety

/-!
# The state a ranged download saves (`engine.rs`)

`fetch_ranges` and `RangeJob::persist` over a file whose writes are durable
only once it is synced. A run opens the `.part` and the saved state, writes
the probe's bytes where the state lacks them, and then its workers take their
steps while the engine, now and then, takes a snapshot of the completed
ranges, syncs the file and saves the state. A run may end, or the machine
crash, between any two of these; the next run goes on from what is there.

A batch holds the file's bytes at its place. Left out: the fields of the state
that name the file, the mirrors, and how far the connections' number ramps up.
-/

namespace Hyperfetch

open Weft ChunkManager

/-- Where a `persist` is. -/
inductive Saving
  | idle
  /-- `completed_ranges` goes through the chunks, the lock held. -/
  | reading (left : List Chunk) (found : List ByteRange)
  /-- The snapshot is taken. -/
  | taken (ranges : List ByteRange)
  /-- The file was synced since. -/
  | synced (ranges : List ByteRange)

/-- The events of the workers that take the chunks' lock. -/
def Download.Event.takesLock : Download.Event → Bool
  | .work .. | .write _ | .store _ | .tell .. | .quit _ => false
  | _ => true

/-- A snapshot keeps the lock to itself. -/
def Saving.excludes (e : Download.Event) : Saving → Bool
  | .reading .. => e.takesLock
  | _ => false

inductive RunPhase
  | closed
  /-- The probe's first `prefetch` bytes go where the state lacks them. -/
  | opening (baseChunkSize maxRetries prefetch : Nat) (unwritten : List ByteRange)
  | running (download : Download) (saving : Saving)

/-- The disk (the `.part`, and the ranges in the state file) and the run. -/
structure RangeJob where
  part : DiskFile UInt8
  saved : List ByteRange
  phase : RunPhase

namespace RangeJob

inductive Event
  /-- A run starts, over what the last one left. -/
  | open_ (baseChunkSize maxRetries prefetch : Nat)
  | prefill
  | work (e : Download.Event)
  /-- Of the write under way only `n` bytes came to disk: it failed, or a crash
  is to come. -/
  | torn (worker n : Nat)
  | snapshot
  /-- The snapshot looks at the next chunk, whose worker may be storing. -/
  | look
  | sync
  | save
  /-- The sync or the save failed, or the task. -/
  | persistFails
  /-- The run ends, however it does. -/
  | close
  /-- The machine goes down, and `content` is what is left of the part. -/
  | crash (content : List UInt8)

/-- What a run counts as there when it opens: the state's ranges, and the
probe's bytes. -/
def haveRanges (saved : List ByteRange) (prefetch : Nat) : List ByteRange :=
  saved ++ (ByteRange.fromLen 0 prefetch).toOption.toList

/-- The run's manager and its workers, before any of them started. -/
def opened (total baseChunkSize maxRetries : Nat) (resumed : List ByteRange) : Download where
  session := .start total baseChunkSize maxRetries resumed
  written b := resumed.any fun r => decide (r.start ≤ b) && decide (b ≤ r.end_)
  workers _ := none

/-- Puts the file's bytes from `pos` up to `end_` where they belong. -/
def place (source : List UInt8) (pos end_ : Nat) (part : DiskFile UInt8) : DiskFile UInt8 :=
  part.change fun xs => splice xs pos (slice source ⟨pos, end_ - pos⟩)

/-- The batch a worker is writing. -/
def batchOf (download : Download) (worker : Nat) : Option Batch :=
  match download.workers worker with
  | some ⟨_, .writing batch _⟩ => some batch
  | _ => none

/-- The write that is under way, of a worker once they run. -/
def underWay (worker : Nat) : RunPhase → Option (Nat × Nat)
  | .opening _ _ _ (gap :: _) => some (gap.start, gap.end_ + 1)
  | .running download _ => (batchOf download worker).map fun batch => (batch.pos, batch.end_)
  | _ => none

/-- What an event of the workers puts on disk. -/
def placing (source : List UInt8) (download : Download) : Download.Event → DiskFile UInt8 → DiskFile UInt8
  | .write worker => match batchOf download worker with
    | some batch => place source batch.pos batch.end_
    | none => id
  | _ => id

/-- A run that resumes wants the part whole in length, or the download starts
over. -/
def resumable (source : List UInt8) (s : RangeJob) : Bool :=
  s.saved.isEmpty || s.part.now.length == source.length

def step (source : List UInt8) (s : RangeJob) : Event → Option RangeJob
  | .open_ baseChunkSize maxRetries prefetch =>
    match s.phase with
    | .closed =>
      if s.resumable source ∧ prefetch ≤ source.length then
        some { s with
          part := s.part.change (setLen 0 source.length)
          phase := .opening baseChunkSize maxRetries prefetch (computeGaps prefetch s.saved) }
      else none
    | _ => none
  | .prefill =>
    match s.phase with
    | .opening baseChunkSize maxRetries prefetch (gap :: rest) =>
      some { s with
        part := place source gap.start (gap.end_ + 1) s.part
        phase := .opening baseChunkSize maxRetries prefetch rest }
    | .opening baseChunkSize maxRetries prefetch [] =>
      some { s with
        phase := .running (opened source.length baseChunkSize maxRetries (haveRanges s.saved prefetch)) .idle }
    | _ => none
  | .work e =>
    match s.phase with
    | .running download saving =>
      if saving.excludes e then none
      else (download.step e).map fun next =>
        { s with
          part := placing source download e s.part
          phase := .running next saving }
    | _ => none
  | .torn worker n =>
    (underWay worker s.phase).map fun (pos, end_) =>
      { s with part := place source pos (min (pos + n) end_) s.part }
  | .snapshot =>
    match s.phase with
    | .running download .idle =>
      if download.session.picked.isNone then
        some { s with phase := .running download (.reading download.manager.chunks []) }
      else none
    | _ => none
  | .look =>
    match s.phase with
    | .running download (.reading (chunk :: left) found) =>
      some { s with
        phase := .running download (.reading left (found ++ (chunk.writtenPrefix download.manager.cells).toList)) }
    | .running download (.reading [] found) =>
      some { s with phase := .running download (.taken (mergeRanges found)) }
    | _ => none
  | .sync =>
    match s.phase with
    | .running download (.taken ranges) =>
      some { s with
        part := s.part.sync
        phase := .running download (.synced ranges) }
    | _ => none
  | .save =>
    match s.phase with
    | .running download (.synced ranges) =>
      some { s with
        saved := ranges
        phase := .running download .idle }
    | _ => none
  | .persistFails =>
    match s.phase with
    | .running download _ => some { s with phase := .running download .idle }
    | _ => none
  | .close => some { s with phase := .closed }
  | .crash content =>
    if s.part.Survives content then some { s with part := DiskFile.crashed content, phase := .closed } else none

/-- A download starts without a state, over whatever is under its name. -/
def starts (source : List UInt8) (s : RangeJob) : Prop :=
  source.length ≤ u64Max ∧ s.saved = [] ∧ s.phase = .closed

end RangeJob

/-- A download of `source`, run as often as it takes. -/
def rangeJobs (source : List UInt8) : Machine RangeJob RangeJob.Event where
  init := RangeJob.starts source
  step := RangeJob.step source

namespace RangeJob

/-! ## What a disk holds of the file -/

/-- `content` is as long as the file, and has its bytes in `ranges`. -/
structure Has (source : List UInt8) (ranges : List ByteRange) (content : List UInt8) : Prop where
  length : content.length = source.length
  bytes : ∀ b, Covered ranges b → content[b]? = source[b]?

/-- Ranges of the file, their ends in order. -/
def InFile (source : List UInt8) (ranges : List ByteRange) : Prop :=
  ∀ r ∈ ranges, r.start ≤ r.end_ ∧ r.end_ < source.length

theorem InFile.valid {source : List UInt8} {ranges : List ByteRange} (h : InFile source ranges)
    (hsize : source.length ≤ u64Max) : ∀ r ∈ ranges, r.Valid := fun r hr =>
  have hin := h r hr
  ⟨hin.1, by omega⟩

theorem InFile.lt {source : List UInt8} {ranges : List ByteRange} (h : InFile source ranges) {b : Nat}
    (hb : Covered ranges b) : b < source.length := by
  obtain ⟨r, hr, _, hle⟩ := hb
  have hin := h r hr
  omega

/-- Right bytes on top of any others leave the right ones right. -/
theorem getElem?_placed {source content : List UInt8} (hlen : content.length = source.length)
    (pos end_ b : Nat) :
    (splice content pos (slice source ⟨pos, end_ - pos⟩))[b]? =
      if pos ≤ b ∧ b < end_ then source[b]? else content[b]? := by
  rw [getElem?_splice_slice hlen ⟨pos, end_ - pos⟩]
  have hiff : (Piece.mk pos (end_ - pos)).Holds b ↔ pos ≤ b ∧ b < end_ := by
    unfold Piece.Holds
    dsimp only
    omega
  simp only [hiff]

theorem Has.placed {source content : List UInt8} {ranges : List ByteRange} (h : Has source ranges content)
    (pos end_ : Nat) : Has source ranges (splice content pos (slice source ⟨pos, end_ - pos⟩)) := by
  refine ⟨length_splice_slice h.length ⟨pos, end_ - pos⟩, fun b hb => ?_⟩
  rw [getElem?_placed h.length]
  split
  · rfl
  · exact h.bytes b hb

/-- What the workers count as written is there. -/
def Written (source : List UInt8) (written : Nat → Bool) (content : List UInt8) : Prop :=
  content.length = source.length ∧ ∀ b, written b = true → content[b]? = source[b]?

theorem Written.placed {source content : List UInt8} {written : Nat → Bool}
    (h : Written source written content) (pos end_ : Nat) :
    Written source (fun b => written b || (decide (pos ≤ b) && decide (b < end_)))
      (splice content pos (slice source ⟨pos, end_ - pos⟩)) := by
  refine ⟨length_splice_slice h.1 ⟨pos, end_ - pos⟩, fun b hb => ?_⟩
  rw [getElem?_placed h.1]
  split
  · rfl
  · rename_i hout
    simp only [Bool.or_eq_true, Bool.and_eq_true, decide_eq_true_eq] at hb
    exact h.2 b (hb.resolve_right hout)

theorem Written.mono {source content : List UInt8} {written written' : Nat → Bool}
    (h : Written source written content) (hle : ∀ b, written' b = true → written b = true) :
    Written source written' content :=
  ⟨h.1, fun b hb => h.2 b (hle b hb)⟩

/-- What a `persist` under way relies on. -/
def Saving.Sound (source : List UInt8) (chunks : List Chunk) (part : DiskFile UInt8) : Saving → Prop
  | .idle => True
  | .reading left found => left ⊆ chunks ∧ InFile source found ∧ Has source found part.now
  | .taken ranges => InFile source ranges ∧ Has source ranges part.now
  | .synced ranges => InFile source ranges ∧ ∀ c ∈ part.versions, Has source ranges c

def PhaseSound (source : List UInt8) (part : DiskFile UInt8) : RunPhase → Prop
  | .closed => True
  | .opening _ _ prefetch unwritten =>
    prefetch ≤ source.length ∧ part.now.length = source.length ∧
      ∀ b < prefetch, part.now[b]? = source[b]? ∨ Covered unwritten b
  | .running download saving =>
    download.Sound source.length ∧ Written source download.written part.now ∧
      Saving.Sound source download.manager.chunks part saving

/-- Every content the disk may come back with has the saved ranges' bytes. -/
structure Safe (source : List UInt8) (s : RangeJob) : Prop where
  size : source.length ≤ u64Max
  inFile : InFile source s.saved
  durable : s.saved = [] ∨ ∀ c ∈ s.part.versions, Has source s.saved c
  phase : PhaseSound source s.part s.phase

theorem Saving.Sound.placed {source : List UInt8} {chunks : List Chunk} {part : DiskFile UInt8}
    {saving : Saving} (h : Saving.Sound source chunks part saving) (pos end_ : Nat) :
    Saving.Sound source chunks (place source pos end_ part) saving := by
  cases saving with
  | idle => trivial
  | reading left found => exact ⟨h.1, h.2.1, h.2.2.placed pos end_⟩
  | taken ranges => exact ⟨h.1, h.2.placed pos end_⟩
  | synced ranges =>
    exact ⟨h.1, DiskFile.forall_change h.2 ((h.2 _ part.now_mem_versions).placed pos end_)⟩

/-- Right bytes keep what is durable. -/
theorem durable_placed {source : List UInt8} {saved : List ByteRange} {part : DiskFile UInt8}
    (h : saved = [] ∨ ∀ c ∈ part.versions, Has source saved c) (pos end_ : Nat) :
    saved = [] ∨ ∀ c ∈ (place source pos end_ part).versions, Has source saved c :=
  h.imp_right fun hall => DiskFile.forall_change hall ((hall _ part.now_mem_versions).placed pos end_)

/-! ## What a snapshot says -/

/-- What a chunk counts as on disk is in the file, and on disk. -/
theorem writtenPrefix_sound {source : List UInt8} {download : Download}
    (h : download.Sound source.length) {content : List UInt8}
    (hwritten : Written source download.written content) {chunk : Chunk}
    (hchunk : chunk ∈ download.manager.chunks) :
    InFile source (chunk.writtenPrefix download.manager.cells).toList ∧
      Has source (chunk.writtenPrefix download.manager.cells).toList content := by
  have hbooks := h.session.books
  obtain ⟨i, hi⟩ := List.mem_iff_getElem?.mp hchunk
  have hin := hbooks.inFile hi
  cases hcounts : chunk.writtenPrefix download.manager.cells with
  | none => exact ⟨by simp [InFile], hwritten.1, by simp [Covered]⟩
  | some r =>
    obtain ⟨hvalid, hdisk⟩ := writtenPrefix_written hbooks h.custody
      (List.mem_filterMap.mpr ⟨chunk, hchunk, hcounts⟩)
    have hend : r.end_ ≤ chunk.range.end_ := by
      unfold Chunk.writtenPrefix at hcounts
      split at hcounts
      · cases hcounts
        rfl
      · dsimp only at hcounts
        split at hcounts
        · cases hcounts
          unfold saturatingAdd
          dsimp only
          omega
        · cases hcounts
    refine ⟨fun q hq => ?_, hwritten.1, fun b hb => ?_⟩
    · cases List.mem_singleton.mp hq
      exact ⟨hvalid.ordered, by omega⟩
    · obtain ⟨q, hq, h1, h2⟩ := hb
      cases List.mem_singleton.mp hq
      exact hwritten.2 b (hdisk b h1 h2)

theorem covered_append {rs qs : List ByteRange} {b : Nat} :
    Covered (rs ++ qs) b ↔ Covered rs b ∨ Covered qs b := by
  simp only [Covered, List.mem_append, or_and_right, exists_or]

theorem InFile.append {source : List UInt8} {rs qs : List ByteRange} (hr : InFile source rs)
    (hq : InFile source qs) : InFile source (rs ++ qs) := fun r hmem =>
  (List.mem_append.mp hmem).elim (hr r) (hq r)

theorem Has.append {source content : List UInt8} {rs qs : List ByteRange} (hr : Has source rs content)
    (hq : Has source qs content) : Has source (rs ++ qs) content :=
  ⟨hr.length, fun b hb => (covered_append.mp hb).elim (hr.bytes b) (hq.bytes b)⟩

/-- Merging a snapshot changes nothing about it. -/
theorem InFile.merged {source : List UInt8} (hsize : source.length ≤ u64Max) {found : List ByteRange}
    (h : InFile source found) : InFile source (mergeRanges found) := by
  obtain ⟨hseparated, hcovered⟩ := mergeRanges_spec (h.valid hsize)
  intro r hr
  have hordered := (hseparated.valid r hr).ordered
  -- a merged range ends where one of the found does
  exact ⟨hordered, h.lt ((hcovered r.end_).mp ⟨r, hr, hordered, le_rfl⟩)⟩

theorem Has.merged {source content : List UInt8} (hsize : source.length ≤ u64Max) {found : List ByteRange}
    (hin : InFile source found) (h : Has source found content) : Has source (mergeRanges found) content :=
  ⟨h.length, fun b hb => h.bytes b (((mergeRanges_spec (hin.valid hsize)).2 b).mp hb)⟩

/-! ## The workers' steps -/

/-- Without the lock no step changes the chunks. -/
theorem chunks_of_unlocked {download next : Download} {e : Download.Event} (he : e.takesLock = false)
    (hstep : download.step e = some next) : next.manager.chunks = download.manager.chunks := by
  cases e <;> simp only [Download.Event.takesLock, Bool.true_eq_false] at he <;> simp only [Download.step] at hstep
  case work worker choice =>
    obtain ⟨job, _, hmap⟩ := Option.bind_eq_some_iff.mp hstep
    obtain ⟨stage, _, rfl⟩ := Option.map_eq_some_iff.mp hmap
    rfl
  case write worker =>
    split at hstep <;> cases hstep
    rfl
  case store worker =>
    split at hstep <;> cases hstep
    rfl
  case tell worker a =>
    obtain ⟨job, _, rfl⟩ := Option.map_eq_some_iff.mp hstep
    rfl
  case quit worker =>
    obtain ⟨job, _, rfl⟩ := Option.map_eq_some_iff.mp hstep
    rfl

/-- Only a write counts as written, and what it puts on disk. -/
theorem written_step {download next : Download} {e : Download.Event} (hstep : download.step e = some next) :
    (∃ worker batch, e = .write worker ∧ batchOf download worker = some batch ∧
        next.written = fun b => download.written b || (decide (batch.pos ≤ b) && decide (b < batch.end_))) ∨
      next.written = download.written ∧ ∀ source part, placing source download e part = part := by
  cases e <;> simp only [Download.step] at hstep
  case write worker =>
    split at hstep
    · rename_i chunk batch purpose hjob
      cases hstep
      exact .inl ⟨worker, batch, rfl, by simp only [batchOf, hjob], rfl⟩
    · cases hstep
  case getNextWork worker mirrorId now =>
    cases Download.asks_some hstep
    exact .inr ⟨rfl, fun _ _ => rfl⟩
  case assignAt worker mirrorId start end_ now =>
    cases Download.asks_some hstep
    exact .inr ⟨rfl, fun _ _ => rfl⟩
  case pickSilent worker mirrorId minSilence now =>
    obtain ⟨session, _, rfl⟩ := Option.map_eq_some_iff.mp (Download.asks_some hstep)
    exact .inr ⟨rfl, fun _ _ => rfl⟩
  case pickVictim victim worker mirrorId minBytes share now =>
    obtain ⟨session, _, rfl⟩ := Option.map_eq_some_iff.mp (Download.asks_some hstep)
    exact .inr ⟨rfl, fun _ _ => rfl⟩
  case takePicked =>
    obtain ⟨picked, _, rfl⟩ := Option.map_eq_some_iff.mp hstep
    cases picked <;> exact .inr ⟨rfl, fun _ _ => rfl⟩
  case work worker choice =>
    obtain ⟨job, _, hmap⟩ := Option.bind_eq_some_iff.mp hstep
    obtain ⟨stage, _, rfl⟩ := Option.map_eq_some_iff.mp hmap
    exact .inr ⟨rfl, fun _ _ => rfl⟩
  case store worker =>
    split at hstep <;> cases hstep
    exact .inr ⟨rfl, fun _ _ => rfl⟩
  case tell worker a =>
    obtain ⟨job, _, rfl⟩ := Option.map_eq_some_iff.mp hstep
    exact .inr ⟨rfl, fun _ _ => rfl⟩
  case settle worker error verdict now backoffDelay =>
    split at hstep <;> cases hstep
    exact .inr ⟨rfl, fun _ _ => rfl⟩
  case quit worker =>
    obtain ⟨job, _, rfl⟩ := Option.map_eq_some_iff.mp hstep
    exact .inr ⟨rfl, fun _ _ => rfl⟩

/-- A step of the workers keeps what the saved state and the run rely on. -/
theorem Safe.work {source : List UInt8} {s : RangeJob} (h : s.Safe source) {download next : Download}
    {saving : Saving} (hphase : s.phase = .running download saving) {e : Download.Event}
    (hfree : saving.excludes e = false) (hstep : download.step e = some next) :
    Safe source { s with
      part := placing source download e s.part
      phase := .running next saving } := by
  obtain ⟨hsound, hwritten, hsaving⟩ : PhaseSound source s.part (.running download saving) := hphase ▸ h.phase
  have hnext := hsound.step hstep
  have hchunks : ∀ left found, saving = .reading left found →
      next.manager.chunks = download.manager.chunks := by
    intro left found heq
    subst heq
    exact chunks_of_unlocked hfree hstep
  -- what the snapshot goes through stays what it was
  have hkeep : ∀ part, Saving.Sound source download.manager.chunks part saving →
      Saving.Sound source next.manager.chunks part saving := by
    intro part hpart
    cases saving with
    | idle => trivial
    | reading left found => exact ⟨(hchunks left found rfl).symm ▸ hpart.1, hpart.2⟩
    | taken ranges => exact hpart
    | synced ranges => exact hpart
  rcases written_step hstep with ⟨worker, batch, rfl, hbatch, hcounts⟩ | ⟨hcounts, hplacing⟩
  · have hplaced : placing source download (.write worker) s.part = place source batch.pos batch.end_ s.part := by
      simp only [placing, hbatch]
    rw [hplaced]
    refine ⟨h.size, h.inFile, durable_placed h.durable _ _, hnext, ?_, hkeep _ (hsaving.placed _ _)⟩
    rw [hcounts]
    exact hwritten.placed batch.pos batch.end_
  · rw [hplacing]
    exact ⟨h.size, h.inFile, h.durable, hnext, hcounts ▸ hwritten, hkeep _ hsaving⟩

/-! ## A run opens -/

theorem mem_haveRanges {saved : List ByteRange} {prefetch : Nat} {r : ByteRange}
    (hr : r ∈ haveRanges saved prefetch) : r ∈ saved ∨ (r = ⟨0, prefetch - 1⟩ ∧ 0 < prefetch) := by
  rcases List.mem_append.mp hr with hr | hr
  · exact .inl hr
  · unfold ByteRange.fromLen at hr
    split at hr
    · cases hr
    · split at hr
      · cases hr
      · simp only [Except.toOption, Option.toList, List.mem_singleton, Nat.zero_add] at hr
        exact .inr ⟨hr, by omega⟩

/-- Opening brings the part to the file's length, which one that resumes has. -/
theorem Safe.opens {source : List UInt8} {s : RangeJob} (h : s.Safe source) {prefetch : Nat}
    (hprefetch : prefetch ≤ source.length) (baseChunkSize maxRetries : Nat) :
    Safe source { s with
      part := s.part.change (setLen 0 source.length)
      phase := .opening baseChunkSize maxRetries prefetch (computeGaps prefetch s.saved) } := by
  have hsame : s.saved ≠ [] → setLen 0 source.length s.part.now = s.part.now := fun hne =>
    setLen_of_length ((h.durable.resolve_left hne) _ s.part.now_mem_versions).length
  refine ⟨h.size, h.inFile, ?_, hprefetch, length_setLen _ _ _, fun b hb => ?_⟩
  · by_cases hne : s.saved = []
    · exact .inl hne
    · have hall := h.durable.resolve_left hne
      refine .inr (DiskFile.forall_change hall ?_)
      rw [hsame hne]
      exact hall _ s.part.now_mem_versions
  · by_cases hcovered : Covered s.saved b
    · have hne : s.saved ≠ [] := fun hnil => by simp [hnil, Covered] at hcovered
      left
      show (setLen 0 source.length s.part.now)[b]? = source[b]?
      rw [hsame hne]
      exact ((h.durable.resolve_left hne) _ s.part.now_mem_versions).bytes b hcovered
    · right
      obtain ⟨_, hgaps⟩ := computeGaps_spec (hprefetch.trans h.size) (h.inFile.valid h.size)
      have hmerged : ¬ 0 < coverage b (mergeRanges s.saved) := fun hpos =>
        hcovered (((mergeRanges_spec (h.inFile.valid h.size)).2 b).mp (coverage_pos_iff.mp hpos))
      exact coverage_pos_iff.mp (by have := hgaps b hb; omega)

/-- The probe's bytes go into a gap. -/
theorem Safe.prefills {source : List UInt8} {s : RangeJob} (h : s.Safe source)
    {baseChunkSize maxRetries prefetch : Nat} {gap : ByteRange} {rest : List ByteRange}
    (hphase : s.phase = .opening baseChunkSize maxRetries prefetch (gap :: rest)) :
    Safe source { s with
      part := place source gap.start (gap.end_ + 1) s.part
      phase := .opening baseChunkSize maxRetries prefetch rest } := by
  obtain ⟨hprefetch, hlen, hbytes⟩ : PhaseSound source s.part (.opening baseChunkSize maxRetries prefetch (gap :: rest)) :=
    hphase ▸ h.phase
  refine ⟨h.size, h.inFile, durable_placed h.durable _ _, hprefetch,
    length_splice_slice hlen ⟨gap.start, gap.end_ + 1 - gap.start⟩, fun b hb => ?_⟩
  have hnow : (place source gap.start (gap.end_ + 1) s.part).now[b]? =
      if gap.start ≤ b ∧ b < gap.end_ + 1 then source[b]? else s.part.now[b]? :=
    getElem?_placed hlen _ _ _
  rw [hnow]
  by_cases hin : gap.start ≤ b ∧ b < gap.end_ + 1
  · rw [if_pos hin]
    exact .inl rfl
  · rw [if_neg hin]
    refine (hbytes b hb).imp_right fun hcovered => ?_
    exact (covered_cons.mp hcovered).resolve_left fun hgap => hin ⟨hgap.1, Nat.lt_succ_of_le hgap.2⟩

/-- With no gap left, the workers start over what is there. -/
theorem Safe.begins {source : List UInt8} {s : RangeJob} (h : s.Safe source)
    {baseChunkSize maxRetries prefetch : Nat}
    (hphase : s.phase = .opening baseChunkSize maxRetries prefetch []) :
    Safe source { s with
      phase := .running (opened source.length baseChunkSize maxRetries (haveRanges s.saved prefetch)) .idle } := by
  obtain ⟨hprefetch, hlen, hbytes⟩ : PhaseSound source s.part (.opening baseChunkSize maxRetries prefetch []) :=
    hphase ▸ h.phase
  have hin : InFile source (haveRanges s.saved prefetch) := by
    intro r hr
    rcases mem_haveRanges hr with hr | ⟨rfl, hpos⟩
    · exact h.inFile r hr
    · exact ⟨Nat.zero_le _, by dsimp only; omega⟩
  refine ⟨h.size, h.inFile, h.durable, Download.sound_start ⟨h.size, ⟨baseChunkSize, maxRetries, _,
    hin.valid h.size, rfl, fun b hb => ?_⟩, fun _ => rfl⟩, ⟨hlen, fun b hb => ?_⟩, trivial⟩
  · obtain ⟨r, hr, h1, h2⟩ := hb
    exact List.any_eq_true.mpr ⟨r, hr, by simp [h1, h2]⟩
  · obtain ⟨r, hr, hrb⟩ := List.any_eq_true.mp hb
    simp only [Bool.and_eq_true, decide_eq_true_eq] at hrb
    rcases mem_haveRanges hr with hr | ⟨rfl, hpos⟩
    · have hne : s.saved ≠ [] := List.ne_nil_of_mem hr
      exact ((h.durable.resolve_left hne) _ s.part.now_mem_versions).bytes b ⟨r, hr, hrb⟩
    · refine (hbytes b ?_).resolve_right (not_covered_nil b)
      have hle : b ≤ prefetch - 1 := hrb.2
      omega

/-! ## Every step is safe -/

/-- The file's bytes do no harm wherever they go: part of a write is as good
as all of it. -/
theorem Safe.placed {source : List UInt8} {s : RangeJob} (h : s.Safe source) (pos cut : Nat) :
    Safe source { s with part := place source pos cut s.part } := by
  refine ⟨h.size, h.inFile, durable_placed h.durable _ _, ?_⟩
  have hphase := h.phase
  show PhaseSound source (place source pos cut s.part) s.phase
  cases hp : s.phase with
  | closed => trivial
  | opening baseChunkSize maxRetries prefetch unwritten =>
    rw [hp] at hphase
    obtain ⟨hprefetch, hlen, hbytes⟩ := hphase
    refine ⟨hprefetch, length_splice_slice hlen ⟨pos, cut - pos⟩, fun b hb => ?_⟩
    have hnow : (place source pos cut s.part).now[b]? = if pos ≤ b ∧ b < cut then source[b]? else s.part.now[b]? :=
      getElem?_placed hlen _ _ _
    rw [hnow]
    split
    · exact .inl rfl
    · exact hbytes b hb
  | running download saving =>
    rw [hp] at hphase
    obtain ⟨hsound, hwritten, hsaving⟩ := hphase
    refine ⟨hsound, (hwritten.placed pos cut).mono fun b hb => ?_, hsaving.placed pos cut⟩
    simp [hb]

theorem Safe.sync {source : List UInt8} {s : RangeJob} (h : s.Safe source) {download : Download}
    {ranges : List ByteRange} (hphase : s.phase = .running download (.taken ranges)) :
    Safe source { s with
      part := s.part.sync
      phase := .running download (.synced ranges) } := by
  obtain ⟨hsound, hwritten, hin, hhas⟩ : PhaseSound source s.part (.running download (.taken ranges)) :=
    hphase ▸ h.phase
  have hnow : ∀ {rs : List ByteRange}, Has source rs s.part.now → ∀ c ∈ s.part.sync.versions, Has source rs c := by
    intro rs hrs c hc
    cases List.mem_singleton.mp hc
    exact hrs
  exact ⟨h.size, h.inFile, h.durable.imp_right fun hall => hnow (hall _ s.part.now_mem_versions),
    hsound, hwritten, hin, hnow hhas⟩

/-- What a crash leaves has the saved ranges' bytes. -/
theorem Safe.survives {source : List UInt8} {s : RangeJob} (h : s.Safe source) {content : List UInt8}
    (hcrash : s.part.Survives content) : s.saved = [] ∨ Has source s.saved content := by
  refine h.durable.imp_right fun hall => ⟨hcrash.length fun c hc => (hall c hc).length, fun b hb => ?_⟩
  exact hcrash.getElem? fun c hc => (hall c hc).bytes b hb

theorem Safe.crash {source : List UInt8} {s : RangeJob} (h : s.Safe source) {content : List UInt8}
    (hcrash : s.part.Survives content) :
    Safe source { s with part := DiskFile.crashed content, phase := .closed } := by
  refine ⟨h.size, h.inFile, (h.survives hcrash).imp_right fun hhas c hc => ?_, trivial⟩
  cases List.mem_singleton.mp hc
  exact hhas

theorem Safe.step {source : List UInt8} {s s' : RangeJob} {e : Event} (h : s.Safe source)
    (hstep : s.step source e = some s') : s'.Safe source := by
  have hphase := h.phase
  cases e <;> simp only [RangeJob.step] at hstep
  case open_ baseChunkSize maxRetries prefetch =>
    split at hstep
    · split at hstep
      · rename_i hopen
        cases hstep
        exact h.opens hopen.2 baseChunkSize maxRetries
      · cases hstep
    · cases hstep
  case prefill =>
    split at hstep
    · rename_i hp
      cases hstep
      exact h.prefills hp
    · rename_i hp
      cases hstep
      exact h.begins hp
    · cases hstep
  case work e =>
    split at hstep
    · rename_i download saving hp
      split at hstep
      · cases hstep
      · rename_i hfree
        obtain ⟨next, hnext, rfl⟩ := Option.map_eq_some_iff.mp hstep
        exact h.work hp (by simpa using hfree) hnext
    · cases hstep
  case torn worker n =>
    obtain ⟨⟨pos, end_⟩, _, rfl⟩ := Option.map_eq_some_iff.mp hstep
    exact h.placed _ _
  case snapshot =>
    split at hstep
    · rename_i download hp
      split at hstep
      · cases hstep
        rw [hp] at hphase
        obtain ⟨hsound, hwritten, _⟩ := hphase
        exact ⟨h.size, h.inFile, h.durable, hsound, hwritten, List.Subset.refl _, by simp [InFile],
          hwritten.1, by simp [Covered]⟩
      · cases hstep
    · cases hstep
  case look =>
    split at hstep
    · rename_i download chunk left found hp
      cases hstep
      rw [hp] at hphase
      obtain ⟨hsound, hwritten, hleft, hin, hhas⟩ := hphase
      obtain ⟨hchunk, hrest⟩ := List.cons_subset.mp hleft
      obtain ⟨hin', hhas'⟩ := writtenPrefix_sound hsound hwritten hchunk
      exact ⟨h.size, h.inFile, h.durable, hsound, hwritten, hrest, hin.append hin', hhas.append hhas'⟩
    · rename_i download found hp
      cases hstep
      rw [hp] at hphase
      obtain ⟨hsound, hwritten, _, hin, hhas⟩ := hphase
      exact ⟨h.size, h.inFile, h.durable, hsound, hwritten, hin.merged h.size, hhas.merged h.size hin⟩
    · cases hstep
  case sync =>
    split at hstep
    · rename_i download ranges hp
      cases hstep
      exact h.sync hp
    · cases hstep
  case save =>
    split at hstep
    · rename_i download ranges hp
      cases hstep
      rw [hp] at hphase
      obtain ⟨hsound, hwritten, hin, hhas⟩ := hphase
      exact ⟨h.size, hin, .inr hhas, hsound, hwritten, trivial⟩
    · cases hstep
  case persistFails =>
    split at hstep
    · rename_i download saving hp
      cases hstep
      rw [hp] at hphase
      exact ⟨h.size, h.inFile, h.durable, hphase.1, hphase.2.1, trivial⟩
    · cases hstep
  case close =>
    cases hstep
    exact ⟨h.size, h.inFile, h.durable, trivial⟩
  case crash content =>
    split at hstep
    · rename_i hcrash
      cases hstep
      exact h.crash hcrash
    · cases hstep

theorem safe_start {source : List UInt8} {s : RangeJob} (h : s.starts source) : s.Safe source := by
  obtain ⟨hsize, hsaved, hphase⟩ := h
  exact ⟨hsize, by simp [InFile, hsaved], .inl hsaved, hphase ▸ trivial⟩

theorem safe_invariant (source : List UInt8) : (rangeJobs source).toTSys.Invariant (Safe source) :=
  TSys.Inductive.invariant
    { init := fun _ h => safe_start h
      step := fun _ _ h ⟨_, hstep⟩ => h.step hstep }

/-- Once every byte is written, the part is the file. -/
theorem Written.whole {source content : List UInt8} {written : Nat → Bool}
    (h : Written source written content) (hall : ∀ b < source.length, written b = true) : content = source := by
  apply List.ext_getElem?
  intro b
  rcases Nat.lt_or_ge b source.length with hb | hb
  · exact h.2 b (hall b hb)
  · rw [List.getElem?_eq_none (h.1 ▸ hb), List.getElem?_eq_none hb]

end RangeJob

/-- After a crash at any point the ranges in the saved state are in the file,
with its bytes; and whenever the chunks are all completed, over any number of
runs, each fetching what the state it found lacks, the part is the file. -/
theorem saved_is_durable (source : List UInt8) :
    (rangeJobs source).toTSys.Invariant fun s =>
      (∀ r ∈ s.saved, ∀ b, r.start ≤ b → b ≤ r.end_ → b < source.length ∧
        ∀ content, s.part.Survives content → content[b]? = source[b]?) ∧
      ∀ download saving, s.phase = .running download saving → download.manager.isAllCompleted = true →
        s.part.now = source := by
  intro s hreach
  have h := RangeJob.safe_invariant source s hreach
  refine ⟨fun r hr b h1 h2 => ?_, fun download saving hp hall => ?_⟩
  · have hcovered : Covered s.saved b := ⟨r, hr, h1, h2⟩
    refine ⟨h.inFile.lt hcovered, fun content hcrash => ?_⟩
    exact ((h.survives hcrash).resolve_left (List.ne_nil_of_mem hr)).bytes b hcovered
  · have hphase := h.phase
    rw [hp] at hphase
    obtain ⟨hsound, hwritten, _⟩ := hphase
    exact hwritten.whole (hsound.whole hall)

/-- A download of four bytes, of which nothing is there. -/
def RangeJob.fresh : RangeJob := ⟨⟨[], []⟩, [], .closed⟩

/-- One worker fetches the four bytes, and the state is saved. -/
theorem saved_is_durable_four : ∃ s, (rangeJobs [1, 2, 3, 4]).run .fresh ([.open_ 0 8 0, .prefill] ++
      ([.getNextWork 0 0 0, .work 0 .go, .work 0 .go, .work 0 .go, .work 0 (.bytes 4), .work 0 .go, .work 0 .go,
        .work 0 .bodyEnded, .work 0 .go, .work 0 .go, .write 0, .store 0].map .work ++
        [.snapshot, .look, .look, .sync, .save])) = some s ∧
    ∃ r ∈ s.saved, r = ⟨0, 3⟩ ∧ ∀ b, r.start ≤ b → b ≤ r.end_ → b < 4 ∧
      ∀ content, s.part.Survives content → content[b]? = [1, 2, 3, 4][b]? := by
  have hmerged : mergeRanges [⟨0, 3⟩] = [⟨0, 3⟩] := by simp [mergeRanges, mergeFrom]
  have hopened : (rangeJobs [1, 2, 3, 4]).run .fresh [.open_ 0 8 0, .prefill] =
      some ⟨⟨[0, 0, 0, 0], [[]]⟩, [], .running (RangeJob.opened 4 0 8 []) .idle⟩ := rfl
  have hrun : ∃ s, (rangeJobs [1, 2, 3, 4]).run ⟨⟨[0, 0, 0, 0], [[]]⟩, [], .running (RangeJob.opened 4 0 8 []) .idle⟩
      ([.getNextWork 0 0 0, .work 0 .go, .work 0 .go, .work 0 .go, .work 0 (.bytes 4), .work 0 .go, .work 0 .go,
        .work 0 .bodyEnded, .work 0 .go, .work 0 .go, .write 0, .store 0].map .work ++
        [.snapshot, .look, .look, .sync, .save]) = some s ∧
      s.saved = mergeRanges [⟨0, 3⟩] := by
    rw [RangeJob.opened, start_four]
    exact ⟨_, rfl, rfl⟩
  obtain ⟨s, hs, hsaved⟩ := hrun
  have hall := Machine.run_append (rangeJobs [1, 2, 3, 4]) .fresh [.open_ 0 8 0, .prefill]
  have hmem : (⟨0, 3⟩ : ByteRange) ∈ s.saved := by rw [hsaved, hmerged]; exact List.mem_singleton.mpr rfl
  refine ⟨s, ?_, ⟨0, 3⟩, hmem, rfl, ?_⟩
  · rw [hall, hopened, Option.bind_some]
    exact hs
  · refine (saved_is_durable [1, 2, 3, 4] s ?_).1 _ hmem
    exact Machine.reachable_run (Machine.reachable_run (.init ⟨by decide, rfl, rfl⟩) hopened) hs

end Hyperfetch
