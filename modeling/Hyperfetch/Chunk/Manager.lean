import Hyperfetch.Range

/-!
# The chunk manager (`chunk.rs`)

The manager's list of chunks, and the cells each chunk shares with the worker
it was handed to. A chunk's `current_offset`, `end_offset` and `revoked` are
allocated together and replaced together, so they are one `Lease`, named by
its address; `attempt` is allocated anew at each assignment. Workers keep the
addresses they were handed, which is what a takeover plays on.

`take_over_silent` and `steal_work` look over the chunks first and then load
the picked chunk's cells again. Workers store to those cells without the
manager's lock, so each is split where the second look begins
(`silentChunk` and `takeOver`, `stealVictims` and `stealFrom`).

Instants and durations are counts of one unit. The float arithmetic of a
timed steal enters through its outcome (`Share`) and the choice among the
candidates. Left out: `replaces` and the rates it compares.
-/

namespace Hyperfetch

inductive ChunkError
  | range (e : RangeError)
  | notFound (id : Nat)
  deriving DecidableEq, Repr

def ChunkError.message : ChunkError → String
  | .range e => s!"Range error: {e.message}"
  | .notFound id => s!"Chunk {id} not found"

inductive ChunkStatus
  | unassigned
  /-- A worker owns the chunk and is (or is about to be) streaming it. -/
  | assigned (workerId mirrorId : Nat)
  | completed
  /-- Waiting to be retried, after `retries` attempts in a row without progress. -/
  | failed (reason : String) (retries : Nat)
  deriving DecidableEq, Repr

/-- The cells of one lease of a chunk: `current_offset`, the next byte its
worker writes; `end_offset`, the inclusive end stealing lowers; `revoked`. -/
structure Lease where
  currentOffset : Nat
  endOffset : Nat
  revoked : Bool
  deriving DecidableEq, Repr

/-- How an attempt at a chunk goes, as its worker tells it. -/
structure Attempt where
  answered : Option (Nat × Nat)
  waiting : Option Nat
  received : Nat
  deriving DecidableEq, Repr

/-- `Attempt::default()`. -/
def Attempt.default : Attempt := ⟨none, none, 0⟩

structure Chunk where
  id : Nat
  range : ByteRange
  status : ChunkStatus
  retries : Nat
  /-- Where its lease is. -/
  lease : Nat
  /-- Where what its worker tells is. -/
  attempt : Nat
  notBefore : Option Nat
  assignedAt : Option Nat
  deriving DecidableEq, Repr

/-- The shared cells, and the first address not in use. -/
structure Cells where
  leases : Nat → Lease
  attempts : Nat → Attempt
  next : Nat

namespace Cells

/-- Allocates a lease, together with an attempt cell of the same address. -/
def alloc (m : Cells) (l : Lease) : Cells :=
  { leases := Function.update m.leases m.next l
    attempts := Function.update m.attempts m.next .default
    next := m.next + 1 }

/-- `current_offset.store`. -/
def store (m : Cells) (lease pos : Nat) : Cells :=
  { m with leases := Function.update m.leases lease { m.leases lease with currentOffset := pos } }

/-- `end_offset.store`. -/
def storeEnd (m : Cells) (lease end_ : Nat) : Cells :=
  { m with leases := Function.update m.leases lease { m.leases lease with endOffset := end_ } }

/-- `revoked.cancel()`. -/
def revoke (m : Cells) (lease : Nat) : Cells :=
  { m with leases := Function.update m.leases lease { m.leases lease with revoked := true } }

/-- What a worker tells of its attempt. -/
def tell (m : Cells) (attempt : Nat) (a : Attempt) : Cells :=
  { m with attempts := Function.update m.attempts attempt a }

end Cells

namespace Chunk

/-- `Chunk::new`, with its cells at `cell`. -/
def new (id : Nat) (range : ByteRange) (cell : Nat) : Chunk :=
  { id, range, status := .unassigned, retries := 0, lease := cell, attempt := cell,
    notBefore := none, assignedAt := none }

/-- The lease `Chunk::new` allocates. -/
def newLease (range : ByteRange) : Lease := ⟨range.start, range.end_, false⟩

def isCompleted (c : Chunk) : Bool := c.status == .completed

def isInFlight (c : Chunk) : Bool :=
  match c.status with
  | .assigned .. => true
  | _ => false

def isFailed (c : Chunk) : Bool :=
  match c.status with
  | .failed .. => true
  | _ => false

/-- Bytes still to arrive before the end: what the worker holds to write is
no more left to fetch than what is on disk. -/
def unreceived (c : Chunk) (cells : Cells) : Nat :=
  let lease := cells.leases c.lease
  let held := (cells.attempts c.attempt).received
  let pos := max (max lease.currentOffset c.range.start) held
  saturatingAdd lease.endOffset 1 - pos

/-- How long the worker has been waiting for the server without a byte. -/
def silence (c : Chunk) (cells : Cells) (now : Nat) : Nat :=
  match (cells.attempts c.attempt).waiting with
  | some since => now - since
  | none => 0

/-- Bytes still to be written before the end. -/
def remainingBytes (c : Chunk) (cells : Cells) : Nat :=
  let lease := cells.leases c.lease
  let pos := max lease.currentOffset c.range.start
  if lease.endOffset ≥ pos then lease.endOffset - pos + 1 else 0

/-- The contiguous prefix already on disk, if any. -/
def writtenPrefix (c : Chunk) (cells : Cells) : Option ByteRange :=
  if c.isCompleted then some c.range
  else
    let pos := min (cells.leases c.lease).currentOffset (saturatingAdd c.range.end_ 1)
    if pos > c.range.start then some ⟨c.range.start, pos - 1⟩ else none

/-- A failed attempt's chunk with its retry fields set: progress resets the
retry budget, an attempt without any counts against it if `counts` is set and
then backs off. -/
def retryAfter (c : Chunk) (madeProgress counts : Bool) (minDelay now : Nat)
    (backoffDelay : Nat → Nat) : Chunk :=
  if madeProgress then { c with retries := 0, notBefore := some (now + minDelay) }
  else if counts then
    let retries := (c.retries + 1) % 2 ^ 32
    { c with retries, notBefore := some (now + max minDelay (backoffDelay retries)) }
  else { c with notBefore := some (now + minDelay) }

end Chunk

structure ChunkManager where
  totalSize : Nat
  baseChunkSize : Nat
  chunks : List Chunk
  /-- How many chunks are completed. -/
  completed : Nat
  /-- No unassigned chunk exists below this index. -/
  nextFresh : Nat
  /-- Failed chunks waiting to be retried. -/
  retryQueue : List Nat
  maxRetries : Nat
  fatal : Option (Nat × String)
  cells : Cells

/-- What the float arithmetic of `steal_work` leaves the victim: half, when
one side has no timing; everything, when its worker is done soon anyway; or
that many bytes. -/
inductive Share
  | half
  | leave
  | keep (bytes : Nat)
  deriving DecidableEq, Repr

def Share.bytes (remaining : Nat) : Share → Option Nat
  | .half => some (remaining / 2)
  | .leave => none
  | .keep n => some n

/-- Of the best so far and the next, the one with the greater key; of equal
keys, the next. -/
def keepMax {α : Type*} (key : α → Nat) : Option α → α → Option α
  | none, x => some x
  | some best, x => if key best ≤ key x then some x else some best

/-- `Iterator::max_by_key`. -/
def maxByKey {α : Type*} (key : α → Nat) (xs : List α) : Option α := xs.foldl (keepMax key) none

namespace ChunkManager

/-! ## Construction -/

/-- The pieces of one gap, from `offset` on, each of `base` bytes but the
last. The gap's length is fuel enough. -/
def cutGap (end_ base : Nat) : Nat → Nat → List ByteRange
  | 0, _ => []
  | fuel + 1, offset =>
    if offset ≤ end_ then
      let chunkLen := min (end_ - offset + 1) base
      match ByteRange.fromLen offset chunkLen with
      | .ok r => r :: cutGap end_ base fuel (offset + chunkLen)
      | .error _ => []
    else []

/-- A chunk for each range, numbered in order, its cells where its number
says. -/
def numbered (ranges : List (ByteRange × ChunkStatus)) : List Chunk :=
  ranges.zipIdx.map fun ((range, status), i) => { Chunk.new i range i with status }

/-- The cells of freshly numbered chunks. -/
def numberedCells (ranges : List (ByteRange × ChunkStatus)) : Cells :=
  { leases := fun i => match ranges[i]? with
      | some (range, _) => Chunk.newLease range
      | none => ⟨0, 0, false⟩
    attempts := fun _ => .default
    next := ranges.length }

/-- What is on disk of a resumed download, merged and cut to the file. -/
def mergedCompleted (totalSize : Nat) (completedRanges : List ByteRange) : List ByteRange :=
  mergeRanges (if totalSize = 0 then []
    else completedRanges.filterMap (·.intersection ⟨0, totalSize - 1⟩))

/-- The ranges of the chunks a resumed download starts from. -/
def resumedRanges (totalSize base : Nat) (merged : List ByteRange) :
    List (ByteRange × ChunkStatus) :=
  let pieces := (computeGaps totalSize merged).flatMap fun gap =>
    cutGap gap.end_ base (gap.end_ - gap.start + 1) gap.start
  (merged.map (·, ChunkStatus.completed) ++ pieces.map (·, ChunkStatus.unassigned)).mergeSort
    fun r s => decide (r.1.start ≤ s.1.start)

/-- Creates a manager from completed ranges of a previous download. They may
be unsorted, overlapping or extend past the end of the file. -/
def withResumedRanges (totalSize baseChunkSize : Nat) (completedRanges : List ByteRange) :
    ChunkManager :=
  let base := max baseChunkSize (64 * 1024)
  let merged := mergedCompleted totalSize completedRanges
  let ranges := resumedRanges totalSize base merged
  { totalSize
    baseChunkSize := base
    chunks := numbered ranges
    completed := merged.length
    nextFresh := 0
    retryQueue := []
    maxRetries := 8
    fatal := none
    cells := numberedCells ranges }

def new (totalSize baseChunkSize : Nat) : ChunkManager :=
  withResumedRanges totalSize baseChunkSize []

def setMaxRetries (m : ChunkManager) (maxRetries : Nat) : ChunkManager := { m with maxRetries }

def isAllCompleted (m : ChunkManager) : Bool := m.completed == m.chunks.length

/-! ## Handing out chunks -/

/-- `chunks.push(Chunk::new(chunks.len(), range))`, then with that status. -/
def push (m : ChunkManager) (range : ByteRange) (status : ChunkStatus) : ChunkManager :=
  { m with
    chunks := m.chunks ++ [{ Chunk.new m.chunks.length range m.cells.next with status }]
    cells := m.cells.alloc (Chunk.newLease range) }

/-- Lowers the end of chunk `c`, at index `id`, to `end_`. -/
def truncate (m : ChunkManager) (id : Nat) (c : Chunk) (end_ : Nat) : ChunkManager :=
  { m with
    chunks := m.chunks.set id { c with range := ⟨c.range.start, end_⟩ }
    cells := m.cells.storeEnd c.lease end_ }

/-- Chunk `c`, at index `id`, counts as completed from now on. -/
def complete (m : ChunkManager) (id : Nat) (c : Chunk) : ChunkManager :=
  { m with
    chunks := m.chunks.set id { c with status := .completed }
    completed := m.completed + 1 }

/-- `assign` of chunk `c`, at index `id`. -/
def assign (m : ChunkManager) (id : Nat) (c : Chunk) (workerId mirrorId now : Nat) :
    Chunk × ChunkManager :=
  let handed := { c with
    status := .assigned workerId mirrorId
    notBefore := none
    assignedAt := some now
    attempt := m.cells.next }
  (handed, { m with
    chunks := m.chunks.set id handed
    cells := m.cells.alloc ⟨0, 0, true⟩ })

/-- Whether the chunk `id` of the retry queue may be retried. -/
def ready (m : ChunkManager) (now id : Nat) : Bool :=
  match m.chunks[id]? with
  | some c => c.notBefore.all (· ≤ now)
  | none => false

/-- Hands out a failed chunk whose backoff has elapsed, else the next
unassigned chunk. -/
def getNextWork (m : ChunkManager) (workerId mirrorId now : Nat) : Option Chunk × ChunkManager :=
  if m.fatal.isSome then (none, m)
  else
    match m.retryQueue.find? (m.ready now) with
    | some id =>
      match m.chunks[id]? with
      | some c =>
        let (handed, m) := { m with retryQueue := m.retryQueue.erase id }.assign id c workerId mirrorId now
        (some handed, m)
      | none => (none, m)
    | none =>
      -- the loop over `next_fresh` stops at the first unassigned chunk
      match (m.chunks.drop m.nextFresh).findIdx? (·.status == .unassigned) with
      | some k =>
        let id := m.nextFresh + k
        match m.chunks[id]? with
        | some c =>
          let (handed, m) := { m with nextFresh := id + 1 }.assign id c workerId mirrorId now
          (some handed, m)
        | none => (none, m)
      | none => (none, { m with nextFresh := max m.nextFresh m.chunks.length })

/-- Hands out the unassigned chunk that starts at `start`, cut to end at
`end_` if it goes further. -/
def assignAt (m : ChunkManager) (workerId mirrorId start end_ now : Nat) : Option Chunk × ChunkManager :=
  if m.fatal.isSome || end_ < start then (none, m)
  else
    match m.chunks.findIdx? (fun c => c.status == .unassigned && c.range.start == start) with
    | none => (none, m)
    | some id =>
      match m.chunks[id]? with
      | none => (none, m)
      | some c =>
        if c.range.end_ > end_ then
          let m := (m.truncate id c end_).push ⟨end_ + 1, c.range.end_⟩ .unassigned
          let (handed, m) := m.assign id { c with range := ⟨c.range.start, end_⟩ } workerId mirrorId now
          (some handed, m)
        else
          let (handed, m) := m.assign id c workerId mirrorId now
          (some handed, m)

/-! ## Takeover and stealing -/

/-- What was written of chunk `c`, before `pos`, becomes a completed chunk of
its own; the rest keeps the chunk's id. -/
def splitWritten (m : ChunkManager) (id : Nat) (c : Chunk) (pos : Nat) : Chunk × ChunkManager :=
  let rest := { c with range := ⟨pos, c.range.end_⟩ }
  (rest, { { m with chunks := m.chunks.set id rest }.push ⟨c.range.start, pos - 1⟩ .completed with
    completed := m.completed + 1 })

/-- Chunk `c` from `pos` on, once what was written before that is split off. -/
def rest (m : ChunkManager) (id : Nat) (c : Chunk) (pos : Nat) : Chunk × ChunkManager :=
  if pos > c.range.start then m.splitWritten id c pos else (c, m)

/-- Gives chunk `c`, at index `id`, a new lease over `[pos, end_]`. -/
def relet (m : ChunkManager) (id : Nat) (c : Chunk) (pos end_ : Nat) : Chunk × ChunkManager :=
  let c := { c with lease := m.cells.next }
  (c, { m with
    chunks := m.chunks.set id c
    cells := m.cells.alloc ⟨pos, end_, false⟩ })

/-- The chunk in flight whose worker has waited longest for the server, if
that is at least `minSilence` of its mirror. -/
def silentChunk (m : ChunkManager) (minSilence : Nat → Nat) (now : Nat) : Option Nat :=
  let silent := m.chunks.filterMap fun c =>
    match c.status with
    | .assigned _ mirrorId =>
      if c.remainingBytes m.cells > 0 then
        let silent := c.silence m.cells now
        if silent ≥ minSilence mirrorId then some (c.id, silent) else none
      else none
    | _ => none
  (maxByKey (·.2) silent).map (·.1)

/-- `take_over_silent` once it has picked chunk `id`. -/
def takeOver (m : ChunkManager) (id thiefWorkerId thiefMirrorId now : Nat) : Option Chunk × ChunkManager :=
  match m.chunks[id]? with
  | none => (none, m)
  | some c =>
    let m := { m with cells := m.cells.revoke c.lease }
    let lease := m.cells.leases c.lease
    let pos := max lease.currentOffset c.range.start
    let end_ := lease.endOffset
    if pos > end_ then
      -- its last byte got written meanwhile, and the revoked worker will not settle it
      (none, m.complete id c)
    else
      let (c, m) := m.rest id c pos
      let (c, m) := m.relet id c pos end_
      let (handed, m) := m.assign id c thiefWorkerId thiefMirrorId now
      (some handed, m)

def takeOverSilent (m : ChunkManager) (thiefWorkerId thiefMirrorId : Nat) (minSilence : Nat → Nat)
    (now : Nat) : Option Chunk × ChunkManager :=
  if m.fatal.isSome then (none, m)
  else
    match m.silentChunk minSilence now with
    | none => (none, m)
    | some id => m.takeOver id thiefWorkerId thiefMirrorId now

/-- The chunks in flight with more than `minBytes` left to fetch, among which
the float comparison of finishing times picks one. -/
def stealVictims (m : ChunkManager) (minBytes : Nat) : List Nat :=
  (m.chunks.filter fun c => c.isInFlight && decide (c.unreceived m.cells > minBytes)).map (·.id)

/-- `steal_work` once it has picked chunk `victimId`. -/
def stealFrom (m : ChunkManager) (victimId thiefWorkerId thiefMirrorId minBytes : Nat) (share : Share)
    (now : Nat) : Option (Nat × Chunk) × ChunkManager :=
  match m.chunks[victimId]? with
  | none => (none, m)
  | some victim =>
    let curEnd := (m.cells.leases victim.lease).endOffset
    let remaining := victim.unreceived m.cells
    if remaining = 0 then (none, m)
    else
      match share.bytes remaining with
      | none => (none, m)
      | some keep =>
        if max keep 1 > remaining ∨ remaining - max keep 1 < minBytes then (none, m)
        else
          let splitOffset := curEnd + 1 - (remaining - max keep 1)
          let m := m.truncate victimId victim (splitOffset - 1)
          let stolenId := m.chunks.length
          match ByteRange.new splitOffset curEnd with
          | .error _ => (none, m)
          | .ok range =>
            let stolen := Chunk.new stolenId range m.cells.next
            let (handed, m) := (m.push range .unassigned).assign stolenId stolen thiefWorkerId thiefMirrorId now
            (some (victimId, handed), m)

/-- A steal from `victim`, if it is one of the candidates. -/
def stealWork (m : ChunkManager) (thiefWorkerId thiefMirrorId minBytes victim : Nat) (share : Share)
    (now : Nat) : Option (Nat × Chunk) × ChunkManager :=
  if m.fatal.isSome then (none, m)
  else if victim ∈ m.stealVictims (max minBytes 1) then
    m.stealFrom victim thiefWorkerId thiefMirrorId (max minBytes 1) share now
  else (none, m)

/-! ## Settling -/

/-- Marks a chunk as completed. -/
def markCompleted (m : ChunkManager) (chunkId : Nat) : Except ChunkError ChunkManager :=
  match m.chunks[chunkId]? with
  | none => .error (.notFound chunkId)
  | some c =>
    if c.isCompleted then .ok m else .ok (m.complete chunkId c)

/-- Chunk `c`, at index `id`, waits to be retried, unless it has failed too
often. -/
def requeue (m : ChunkManager) (id : Nat) (c : Chunk) (reason : String) : ChunkManager :=
  { m with
    chunks := m.chunks.set id { c with status := .failed reason c.retries }
    fatal := if c.retries > m.maxRetries && m.fatal.isNone then
        some (id, s!"chunk {id} failed {c.retries} times in a row without progress: {reason}")
      else m.fatal
    retryQueue := m.retryQueue ++ [id] }

/-- Records a failed attempt. The prefix the worker wrote becomes a completed
chunk and the retry covers only the rest; an attempt that wrote nothing counts
against the retry budget if `counts` is set, and backs off. -/
def markFailed (m : ChunkManager) (chunkId : Nat) (reason : String) (minDelay : Nat) (counts : Bool)
    (now : Nat) (backoffDelay : Nat → Nat) : Except ChunkError ChunkManager :=
  match m.chunks[chunkId]? with
  | none => .error (.notFound chunkId)
  | some c =>
    if c.isCompleted then .ok m
    else
      let pos := min (max (m.cells.leases c.lease).currentOffset c.range.start)
        (saturatingAdd c.range.end_ 1)
      if pos > c.range.end_ then m.markCompleted chunkId
      else
        let madeProgress := decide (pos > c.range.start)
        let (c, m) := m.rest chunkId c pos
        .ok (m.requeue chunkId (c.retryAfter madeProgress counts minDelay now backoffDelay) reason)

/-- Fails the whole download because of `chunkId`. -/
def abort (m : ChunkManager) (chunkId : Nat) (reason : String) : ChunkManager :=
  if m.fatal.isNone then { m with fatal := some (chunkId, reason) } else m

/-- Byte ranges on disk, merged: completed chunks plus the written prefix of
the others. -/
def completedRanges (m : ChunkManager) : List ByteRange :=
  mergeRanges (m.chunks.filterMap (·.writtenPrefix m.cells))

end ChunkManager

end Hyperfetch
