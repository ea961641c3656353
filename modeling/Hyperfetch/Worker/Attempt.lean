import Hyperfetch.Chunk.Manager

/-!
# One attempt at a chunk (`worker.rs`)

`download_chunk`, `receive` and `flush` as the steps between which other
workers may run: each stage reads one shared cell, or waits. What the stage
goes on with is computed by `Stage.step` from the lease the worker holds and
from what happens to it (`Choice`). Writing to the file, storing the chunk's
offset and settling change shared state; they are steps of the whole download.

Only the place and the length of what was received matter here, so a batch
has no contents. What a worker tells of its attempt (`answered`,
`wait_for_server`, `busy`, `received`) comes in events of its own. Left out:
the answer's checks and the mirrors' and hosts' bookkeeping, which only choose
among the ways an attempt may go.
-/

namespace Hyperfetch

/-- `WRITE_BATCH`. -/
def writeBatch : Nat := 512 * 1024

/-- Received bytes not yet on disk; they belong at `pos..`. -/
structure Batch where
  pos : Nat
  len : Nat
  deriving DecidableEq, Repr

/-- Offset just past the last received byte. -/
def Batch.end_ (b : Batch) : Nat := b.pos + b.len

inductive FailureKind
  | transient
  | denied
  | badMirror
  | throttled
  | fatal
  deriving DecidableEq, Repr

inductive Outcome
  | ok
  | err (kind : FailureKind)
  deriving DecidableEq, Repr

/-- What a flush is for. -/
inductive Purpose
  /-- `flush_due`: received bytes must not wait for the next ones. -/
  | due
  /-- To make room for `n` bytes that arrived. -/
  | room (n : Nat)
  /-- After the loop, which ended with `outcome`. -/
  | last (outcome : Outcome)
  deriving DecidableEq, Repr

inductive Stage
  /-- `download_chunk` begins. -/
  | handed
  /-- The probe's answer is at hand. -/
  | seeded
  /-- The start is loaded, the end is not. -/
  | started (start : Nat)
  /-- The request is out. -/
  | asking (start : Nat)
  /-- At the `select!` of `receive`. -/
  | waiting (batch : Batch)
  /-- `n` bytes arrived; the rate limit may hold them. -/
  | arrived (batch : Batch) (n : Nat)
  | flushing (batch : Batch) (purpose : Purpose)
  /-- `flush` saw no takeover and is to load the end. -/
  | clipping (batch : Batch) (purpose : Purpose)
  | writing (batch : Batch) (purpose : Purpose)
  /-- The batch is on disk, the offset is yet to be stored. -/
  | storing (batch : Batch) (purpose : Purpose)
  /-- After a due flush: is anything left of the chunk? -/
  | polling (batch : Batch)
  /-- `n` bytes are to be added to the batch. -/
  | taking (batch : Batch) (n : Nat)
  /-- After the last flush: did everything arrive? -/
  | checking (batch : Batch)
  | settling (outcome : Outcome)
  deriving DecidableEq, Repr

/-- What happens to a worker, where more than one thing can. -/
inductive Choice
  | go
  /-- The request, the body or the disk failed, or the attempt makes way. -/
  | fail (kind : FailureKind)
  | cancelled
  | takenOver
  | flushDue
  | bodyEnded
  | bytes (n : Nat)
  deriving DecidableEq, Repr

namespace Stage

/-- Where a flush that did not fail goes on. -/
def afterFlush (batch : Batch) : Purpose → Stage
  | .due => .polling batch
  | .room n => .taking batch n
  | .last .ok => .checking batch
  | .last (.err kind) => .settling (.err kind)

/-- Where a disk error goes on: what was to be written is lost, and a disk
error outranks the network outcome. -/
def afterDiskError (batch : Batch) : Purpose → Stage
  | .last _ => .settling (.err .fatal)
  | _ => .flushing { batch with len := 0 } (.last (.err .fatal))

/-- Leaves the loop of `receive`. -/
def leave (batch : Batch) (outcome : Outcome) : Stage := .flushing batch (.last outcome)

/-- One step of an attempt on its own; `none` where `choice` cannot happen. -/
def step (lease : Lease) : Stage → Choice → Option Stage
  | .handed, .go => some (.started lease.currentOffset)
  | .seeded, .go => some (.waiting ⟨lease.currentOffset, 0⟩)
  | .started start, .go =>
    -- stolen away entirely before we started
    some (if start > lease.endOffset then .settling .ok else .asking start)
  | .asking start, .go => some (.waiting ⟨start, 0⟩)
  | .asking _, .fail kind => some (.settling (.err kind))
  | .asking _, .cancelled => some (.settling (.err .transient))
  | .asking _, .takenOver => if lease.revoked then some (.settling (.err .transient)) else none
  | .waiting batch, .cancelled => some (leave batch (.err .transient))
  | .waiting batch, .takenOver => if lease.revoked then some (leave batch (.err .transient)) else none
  | .waiting batch, .flushDue => if batch.len > 0 then some (.flushing batch .due) else none
  | .waiting batch, .bodyEnded => some (leave batch .ok)
  | .waiting batch, .fail kind => if kind = .transient then some (leave batch (.err kind)) else none
  | .waiting batch, .bytes n => some (.arrived batch n)
  | .arrived batch n, .go =>
    some (if batch.len + n > writeBatch then .flushing batch (.room n) else .taking batch n)
  | .arrived batch _, .cancelled => some (leave batch (.err .transient))
  | .arrived batch _, .takenOver => if lease.revoked then some (leave batch (.err .transient)) else none
  | .flushing batch purpose, .go =>
    some (if lease.revoked then afterFlush { batch with len := 0 } purpose else .clipping batch purpose)
  | .clipping batch purpose, .go =>
    -- bytes past the chunk's current end belong to whoever stole that tail
    let keep := min (lease.endOffset + 1 - batch.pos) batch.len
    let batch := { batch with len := keep }
    some (if keep = 0 then afterFlush batch purpose else .writing batch purpose)
  | .writing batch purpose, .fail kind =>
    if kind = .fatal then some (afterDiskError batch purpose) else none
  | .polling batch, .go =>
    some (if batch.pos > lease.endOffset then leave batch .ok else .waiting batch)
  | .taking batch n, .go =>
    let end_ := lease.endOffset
    let received := batch.end_
    if received > end_ then some (leave batch .ok)
    else
      let take := min n (end_ - received + 1)
      let batch := { batch with len := batch.len + take }
      some (if take < n then leave batch .ok else .waiting batch)
  | .checking batch, .go =>
    some (if batch.pos ≤ lease.endOffset then .settling (.err .transient) else .settling .ok)
  | _, _ => none

/-- Where storing the offset of a written batch goes on. -/
def afterStore (batch : Batch) (purpose : Purpose) : Stage := afterFlush ⟨batch.end_, 0⟩ purpose

/-! ## What a stage knows -/

/-- The worker's own position is the lease's offset, which nobody else moves;
a batch about to be recorded is on disk; and an attempt ends well only once
the offset passed the end. -/
def Knows (lease : Lease) (written : Nat → Bool) : Stage → Prop
  | .handed | .seeded => True
  | .started start | .asking start => start = lease.currentOffset
  | .waiting batch | .arrived batch _ | .flushing batch _ | .clipping batch _ | .writing batch _
  | .polling batch | .taking batch _ | .checking batch => batch.pos = lease.currentOffset
  | .storing batch _ => batch.pos = lease.currentOffset ∧
      ∀ b, batch.pos ≤ b → b < batch.end_ → written b = true
  | .settling .ok => lease.endOffset < lease.currentOffset
  | .settling (.err _) => True

/-- It stays known while the end only falls and the file only grows. -/
theorem Knows.mono {lease lease' : Lease} {written written' : Nat → Bool} {stage : Stage}
    (h : stage.Knows lease written) (hcur : lease'.currentOffset = lease.currentOffset)
    (hend : lease'.endOffset ≤ lease.endOffset) (hw : ∀ b, written b = true → written' b = true) :
    stage.Knows lease' written' := by
  cases stage with
  | storing batch purpose => exact ⟨h.1.trans hcur.symm, fun b h1 h2 => hw b (h.2 b h1 h2)⟩
  | settling outcome =>
    cases outcome with
    | ok =>
      have : lease.endOffset < lease.currentOffset := h
      show lease'.endOffset < lease'.currentOffset
      omega
    | err kind => trivial
  | _ => first | trivial | exact Eq.trans h hcur.symm

theorem knows_afterFlush {lease : Lease} {written : Nat → Bool} {batch : Batch} (purpose : Purpose)
    (h : batch.pos = lease.currentOffset) : (afterFlush batch purpose).Knows lease written := by
  cases purpose with
  | last outcome => cases outcome <;> first | exact h | trivial
  | _ => exact h

theorem knows_afterDiskError {lease : Lease} {written : Nat → Bool} {batch : Batch} (purpose : Purpose)
    (h : batch.pos = lease.currentOffset) : (afterDiskError batch purpose).Knows lease written := by
  cases purpose with
  | last outcome => trivial
  | _ => exact h

theorem Knows.step {lease : Lease} {written : Nat → Bool} {stage stage' : Stage} {choice : Choice}
    (h : stage.Knows lease written) (hstep : stage.step lease choice = some stage') :
    stage'.Knows lease written := by
  cases stage <;> cases choice <;> simp only [Stage.step, Option.some.injEq, reduceCtorEq] at hstep
  case started.go start =>
    subst hstep
    split
    · rename_i hend
      have : start = lease.currentOffset := h
      exact show lease.endOffset < lease.currentOffset by omega
    · exact h
  case flushing.go batch purpose =>
    subst hstep
    split
    · exact knows_afterFlush purpose h
    · exact h
  case clipping.go batch purpose =>
    subst hstep
    split
    · exact knows_afterFlush purpose h
    · exact h
  case checking.go batch =>
    subst hstep
    split
    · trivial
    · rename_i hend
      have : batch.pos = lease.currentOffset := h
      exact show lease.endOffset < lease.currentOffset by omega
  case taking.go batch n =>
    split at hstep <;> cases hstep
    · exact h
    · split <;> exact h
  case writing.fail batch purpose kind =>
    split at hstep
    · cases hstep
      exact knows_afterDiskError purpose h
    · cases hstep
  case arrived.go | polling.go =>
    subst hstep
    split <;> exact h
  case asking.takenOver | waiting.takenOver | waiting.flushDue | waiting.fail | arrived.takenOver =>
    split at hstep
    · cases hstep
      first | exact h | trivial
    · cases hstep
  all_goals
    subst hstep
    first | exact h | trivial

end Stage

end Hyperfetch
