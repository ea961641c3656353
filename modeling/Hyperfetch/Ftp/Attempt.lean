import Hyperfetch.Ftp.Racer

/-!
# One attempt at a chunk over FTP (`ftp.rs`)

`fetch`, `receive` and `flush` as the steps between which other workers may
run: each stage reads one shared cell, or waits. Unlike the HTTP worker's, a
transfer has its bytes here: the server sends those of `file` from where the
transfer starts, and nothing but the worker's own count says where a byte
belongs. A flush loads the end first, and only then looks for a takeover.

Where what came was cut off or thrown away the count falls behind what the
server sent. `Transfer.InStep` says that it goes on only where it did not.
-/

namespace Hyperfetch

namespace Ftp

/-- `READ_SIZE`. -/
def readSize : Nat := 64 * 1024

/-- `WRITE_BATCH`. -/
def writeBatch : Nat := 512 * 1024

/-- The `n` bytes of `file` from `start` on. -/
def slice (file : Nat → UInt8) (start n : Nat) : List UInt8 := (List.range n).map fun i => file (start + i)

@[simp] theorem length_slice (file : Nat → UInt8) (start n : Nat) : (slice file start n).length = n := by
  simp [slice]

theorem getElem?_slice (file : Nat → UInt8) {start n i : Nat} (hi : i < n) :
    (slice file start n)[i]? = some (file (start + i)) := by
  simp [slice, hi]

theorem take_slice (file : Nat → UInt8) (start n k : Nat) : (slice file start n).take k = slice file start (min k n) := by
  simp [slice, ← List.map_take, List.take_range]

theorem slice_append (file : Nat → UInt8) (start n k : Nat) :
    slice file start n ++ slice file (start + n) k = slice file start (n + k) := by
  simp [slice, List.range_add, Nat.add_assoc]

/-- What `receive` keeps of a transfer: where it writes next, the bytes that
wait to be written there, and where the server's next byte is from. -/
structure Transfer where
  pos : Nat
  batch : List UInt8
  sent : Nat
  deriving DecidableEq, Repr

namespace Transfer

/-- Where the next byte belongs. -/
def end_ (t : Transfer) : Nat := t.pos + t.batch.length

/-- A transfer from `start` on. -/
def start (start : Nat) : Transfer := ⟨start, [], start⟩

/-- What was to be written is given up. -/
def clear (t : Transfer) : Transfer := { t with batch := [] }

/-- What was to be written is. -/
def wrote (t : Transfer) : Transfer := { t with pos := t.end_, batch := [] }

/-- Bytes past the chunk's end belong to whoever stole that tail. -/
def clip (t : Transfer) (endOffset : Nat) : Transfer :=
  { t with batch := t.batch.take (endOffset + 1 - t.pos) }

/-- The worker's count is where the server is, or past the chunk's end. -/
def InStep (t : Transfer) (lease : Lease) : Prop := t.sent = t.end_ ∨ lease.endOffset < t.end_

/-- It writes on where the chunk's offset is, and has the bytes from there. -/
structure Right (t : Transfer) (file : Nat → UInt8) (lease : Lease) : Prop where
  pos : t.pos = lease.currentOffset
  batch : t.batch = slice file t.pos t.batch.length

end Transfer

/-- What a flush is for. -/
inductive Purpose
  /-- `flush_due`: received bytes must not wait for the next ones. -/
  | due
  /-- The batch is full; `short` if not all that came was kept. -/
  | full (short : Bool)
  /-- After the loop, which ended with `outcome`. -/
  | last (outcome : Outcome)
  deriving DecidableEq, Repr

/-- The loop may go on after the flush. -/
def Purpose.returns : Purpose → Bool
  | .last _ => false
  | _ => true

inductive Stage
  /-- `fetch` begins. -/
  | handed
  /-- The start is loaded, the end is not. -/
  | started (start : Nat)
  /-- Logging in, and asking for the transfer. -/
  | asking (start : Nat)
  /-- The `select!` of `receive` looks for a takeover. -/
  | selecting (t : Transfer)
  | waiting (t : Transfer)
  /-- `data` came; the rate limit may hold it. -/
  | arrived (t : Transfer) (data : List UInt8)
  /-- `data` is to be added to the batch. -/
  | taking (t : Transfer) (data : List UInt8)
  | flushing (t : Transfer) (purpose : Purpose)
  /-- The batch is cut to the chunk's end; `flush` is to look for a takeover. -/
  | clipped (t : Transfer) (purpose : Purpose)
  | writing (t : Transfer) (purpose : Purpose)
  /-- The batch is on disk, the offset is yet to be stored. -/
  | storing (t : Transfer) (purpose : Purpose)
  /-- After a due flush: is anything left of the chunk? -/
  | polling (t : Transfer)
  /-- After the last flush: did everything arrive? -/
  | checking (t : Transfer)
  | settling (outcome : Outcome)
  deriving DecidableEq, Repr

namespace Stage

/-- Leaves the loop of `receive`. -/
def leave (t : Transfer) (outcome : Outcome) : Stage := .flushing t (.last outcome)

/-- Where a flush that did not fail goes on. -/
def afterFlush (t : Transfer) : Purpose → Stage
  | .due => .polling t
  | .full short => if short then leave t .ok else .selecting t
  | .last .ok => .checking t
  | .last (.err kind) => .settling (.err kind)

/-- Where a disk error goes on; it outranks the network outcome. -/
def afterDiskError (t : Transfer) : Purpose → Stage
  | .last _ => .settling (.err .fatal)
  | _ => leave t.clear (.err .fatal)

/-- One step of an attempt on its own; `none` where `choice` cannot happen. -/
def step (file : Nat → UInt8) (lease : Lease) : Stage → Choice → Option Stage
  | .handed, .go => some (.started lease.currentOffset)
  | .started start, .go =>
    -- stolen away entirely before it started
    some (if start > lease.endOffset then .settling .ok else .asking start)
  | .asking start, .go => some (.selecting (.start start))
  | .asking _, .fail kind => some (.settling (.err kind))
  | .asking _, .cancelled => some (.settling (.err .transient))
  | .asking _, .takenOver => if lease.revoked then some (.settling (.err .transient)) else none
  -- the `select!` is biased: it takes nothing from the server once the chunk was taken over
  | .selecting t, .go => some (if lease.revoked then leave t (.err .transient) else .waiting t)
  | .selecting t, .cancelled => some (leave t (.err .transient))
  | .waiting t, .cancelled => some (leave t (.err .transient))
  | .waiting t, .takenOver => if lease.revoked then some (leave t (.err .transient)) else none
  | .waiting t, .flushDue => if t.batch.isEmpty then none else some (.flushing t .due)
  | .waiting t, .bodyEnded => some (leave t .ok)
  | .waiting t, .fail kind => if kind = .transient then some (leave t (.err kind)) else none
  | .waiting t, .bytes n =>
    if 0 < n ∧ n ≤ readSize then some (.arrived { t with sent := t.sent + n } (slice file t.sent n)) else none
  | .arrived t data, .go => some (.taking t data)
  | .arrived t _, .cancelled => some (leave t (.err .transient))
  | .arrived t _, .takenOver => if lease.revoked then some (leave t (.err .transient)) else none
  | .taking t data, .go =>
    let end_ := lease.endOffset
    if t.end_ > end_ then some (leave t .ok)
    else
      let keep := min data.length (end_ - t.end_ + 1)
      let t := { t with batch := t.batch ++ data.take keep }
      if t.batch.length ≥ writeBatch then some (.flushing t (.full (keep < data.length)))
      else some (if keep < data.length then leave t .ok else .selecting t)
  | .flushing t purpose, .go => some (.clipped (t.clip lease.endOffset) purpose)
  | .clipped t purpose, .go =>
    some (if lease.revoked || t.batch.isEmpty then afterFlush t.clear purpose else .writing t purpose)
  | .polling t, .go => some (if t.pos > lease.endOffset then leave t .ok else .selecting t)
  | .checking t, .go => some (if t.pos ≤ lease.endOffset then .settling (.err .transient) else .settling .ok)
  | _, _ => none

/-- Where storing the offset of a written batch goes on. -/
def afterStore (t : Transfer) (purpose : Purpose) : Stage := afterFlush t.wrote purpose

/-! ## What a stage knows -/

/-- The transfer writes where the chunk's offset is, and takes bytes in only
in step with the server; a batch about to be recorded is on disk; and an
attempt ends well only once the offset passed the end. -/
def Knows (file : Nat → UInt8) (lease : Lease) (written : Nat → Bool) : Stage → Prop
  | .handed => True
  | .started start | .asking start => start = lease.currentOffset
  | .selecting t | .polling t => t.Right file lease ∧ (t.InStep lease ∨ lease.revoked = true)
  | .waiting t => t.Right file lease ∧ t.InStep lease
  | .arrived t data | .taking t data => t.Right file lease ∧
      ((data = slice file t.end_ data.length ∧ t.sent = t.end_ + data.length) ∨ lease.endOffset < t.end_)
  | .flushing t purpose | .clipped t purpose | .writing t purpose =>
    t.Right file lease ∧ (purpose.returns = true → t.InStep lease)
  | .storing t purpose => t.Right file lease ∧ (purpose.returns = true → t.InStep lease) ∧
      ∀ b, t.pos ≤ b → b < t.end_ → written b = true
  | .checking t => t.pos = lease.currentOffset
  | .settling .ok => lease.endOffset < lease.currentOffset
  | .settling (.err _) => True

end Stage

/-- What other workers make of a lease: its offset stays, its end only falls,
and it stays revoked. -/
structure Falls (lease lease' : Lease) : Prop where
  offset : lease'.currentOffset = lease.currentOffset
  end_ : lease'.endOffset ≤ lease.endOffset
  revoked : lease.revoked = true → lease'.revoked = true

namespace Transfer

variable {t : Transfer} {file : Nat → UInt8} {lease lease' : Lease}

theorem Right.falls (h : t.Right file lease) (hfalls : Falls lease lease') : t.Right file lease' :=
  ⟨h.pos.trans hfalls.offset.symm, h.batch⟩

theorem InStep.falls (h : t.InStep lease) (hfalls : Falls lease lease') : t.InStep lease' :=
  h.imp_right (Nat.lt_of_le_of_lt hfalls.end_)

theorem Right.clear (h : t.Right file lease) : t.clear.Right file lease := ⟨h.pos, rfl⟩

theorem Right.clip (h : t.Right file lease) (endOffset : Nat) : (t.clip endOffset).Right file lease := by
  refine ⟨h.pos, ?_⟩
  show t.batch.take _ = slice file t.pos (t.batch.take _).length
  rw [List.length_take, ← take_slice, ← h.batch]

theorem InStep.clip (h : t.InStep lease) : (t.clip lease.endOffset).InStep lease := by
  have hlength : (t.clip lease.endOffset).end_ = t.pos + min (lease.endOffset + 1 - t.pos) t.batch.length := by
    show t.pos + (t.batch.take _).length = _
    rw [List.length_take]
  unfold InStep at h ⊢
  rw [hlength]
  show t.sent = _ ∨ _
  unfold end_ at h
  omega

/-- With an empty batch nothing is given up. -/
theorem InStep.clear (h : t.InStep lease) (hempty : t.batch = []) : t.clear.InStep lease := by
  have hsame : t.clear = t := by
    obtain ⟨pos, batch, sent⟩ := t
    exact congrArg (Transfer.mk pos · sent) hempty.symm
  rw [hsame]
  exact h

theorem InStep.wrote (h : t.InStep lease) : t.wrote.InStep lease := h

/-- What came is added, as far as it is before the end. -/
theorem Right.adds (h : t.Right file lease) {data : List UInt8} (hdata : data = slice file t.end_ data.length)
    (k : Nat) : Right { t with batch := t.batch ++ data.take k } file lease := by
  refine ⟨h.pos, ?_⟩
  show t.batch ++ data.take k = slice file t.pos (t.batch ++ data.take k).length
  rw [List.length_append, List.length_take, ← slice_append, ← h.batch, ← take_slice]
  exact congrArg (fun data : List UInt8 => t.batch ++ data.take k) hdata

end Transfer

namespace Stage

variable {file : Nat → UInt8} {lease lease' : Lease} {written written' : Nat → Bool} {stage stage' : Stage}

/-- What other workers do leaves it known. -/
theorem Knows.falls (h : stage.Knows file lease written) (hfalls : Falls lease lease')
    (hw : ∀ b, written b = true → written' b = true) : stage.Knows file lease' written' := by
  cases stage with
  | handed => trivial
  | started start | asking start =>
    have hstart : start = lease.currentOffset := h
    exact hstart.trans hfalls.offset.symm
  | selecting t | polling t => exact ⟨h.1.falls hfalls, h.2.imp (·.falls hfalls) hfalls.revoked⟩
  | waiting t => exact ⟨h.1.falls hfalls, h.2.falls hfalls⟩
  | arrived t data | taking t data => exact ⟨h.1.falls hfalls, h.2.imp_right (Nat.lt_of_le_of_lt hfalls.end_)⟩
  | flushing t purpose | clipped t purpose | writing t purpose =>
    exact ⟨h.1.falls hfalls, fun hreturns => (h.2 hreturns).falls hfalls⟩
  | storing t purpose =>
    exact ⟨h.1.falls hfalls, fun hreturns => (h.2.1 hreturns).falls hfalls, fun b h1 h2 => hw b (h.2.2 b h1 h2)⟩
  | checking t =>
    have hpos : t.pos = lease.currentOffset := h
    exact hpos.trans hfalls.offset.symm
  | settling outcome =>
    cases outcome with
    | ok =>
      have hpast : lease.endOffset < lease.currentOffset := h
      show lease'.endOffset < lease'.currentOffset
      rw [hfalls.offset]
      exact Nat.lt_of_le_of_lt hfalls.end_ hpast
    | err kind => trivial

theorem knows_leave {t : Transfer} (h : t.Right file lease) (outcome : Outcome) :
    (leave t outcome).Knows file lease written := ⟨h, fun hreturns => by cases hreturns⟩

/-- A flush that gave up its batch returns to the loop only to leave it. -/
theorem knows_afterFlush {t : Transfer} {purpose : Purpose} (h : t.Right file lease)
    (hstep : purpose.returns = true → t.InStep lease ∨ lease.revoked = true) :
    (afterFlush t purpose).Knows file lease written := by
  cases purpose with
  | due => exact ⟨h, hstep rfl⟩
  | full short =>
    cases short with
    | true => exact knows_leave h .ok
    | false => exact ⟨h, hstep rfl⟩
  | last outcome =>
    cases outcome with
    | ok => exact h.pos
    | err kind => trivial

theorem knows_afterDiskError {t : Transfer} (h : t.Right file lease) (purpose : Purpose) :
    (afterDiskError t purpose).Knows file lease written := by
  cases purpose with
  | last outcome => trivial
  | due | full => exact knows_leave h.clear _

/-- What came is kept as far as the end goes; the rest of it ends the loop. -/
theorem knows_taking {t : Transfer} {data : List UInt8}
    (h : (taking t data).Knows file lease written) (hstep : (taking t data).step file lease .go = some stage') :
    stage'.Knows file lease written := by
  obtain ⟨hright, hdata⟩ := h
  simp only [step] at hstep
  split at hstep
  · cases hstep
    exact knows_leave hright .ok
  · rename_i hend
    obtain ⟨hdata, hsent⟩ := hdata.resolve_right hend
    generalize hkeep : min data.length (lease.endOffset - t.end_ + 1) = keep at hstep
    have hadds := hright.adds hdata keep
    -- the worker's count reaches what the server sent, or it passes the end
    have hinstep : Transfer.InStep { t with batch := t.batch ++ data.take keep } lease := by
      have hlength : Transfer.end_ { t with batch := t.batch ++ data.take keep } = t.end_ + keep := by
        show t.pos + (t.batch ++ data.take keep).length = t.pos + t.batch.length + keep
        rw [List.length_append, List.length_take]
        omega
      unfold Transfer.InStep
      rw [hlength]
      show t.sent = _ ∨ _
      omega
    split at hstep
    · cases hstep
      exact ⟨hadds, fun _ => hinstep⟩
    · cases hstep
      split
      · exact knows_leave hadds .ok
      · exact ⟨hadds, .inl hinstep⟩

theorem Knows.step {choice : Choice} (h : stage.Knows file lease written)
    (hstep : stage.step file lease choice = some stage') : stage'.Knows file lease written := by
  cases stage <;> cases choice <;> simp only [Stage.step, Option.some.injEq, reduceCtorEq] at hstep
  case handed.go =>
    subst hstep
    rfl
  case started.go start =>
    subst hstep
    split
    · rename_i hend
      have hstart : start = lease.currentOffset := h
      show lease.endOffset < lease.currentOffset
      omega
    · exact h
  case asking.go start =>
    subst hstep
    exact ⟨⟨h, rfl⟩, .inl (.inl rfl)⟩
  case asking.fail | asking.cancelled =>
    subst hstep
    trivial
  case asking.takenOver =>
    split at hstep <;> cases hstep
    trivial
  case selecting.go t =>
    subst hstep
    split
    · exact knows_leave h.1 _
    · rename_i hforce
      exact ⟨h.1, h.2.resolve_right hforce⟩
  case selecting.cancelled | waiting.cancelled | waiting.bodyEnded | arrived.cancelled =>
    subst hstep
    exact knows_leave h.1 _
  case waiting.takenOver | waiting.fail | arrived.takenOver =>
    split at hstep <;> cases hstep
    exact knows_leave h.1 _
  case waiting.flushDue t =>
    split at hstep <;> cases hstep
    exact ⟨h.1, fun _ => h.2⟩
  case waiting.bytes t n =>
    split at hstep <;> cases hstep
    obtain ⟨hright, hinstep⟩ := h
    refine ⟨⟨hright.pos, hright.batch⟩, hinstep.imp_left fun hsent => ?_⟩
    rw [length_slice, hsent]
    exact ⟨rfl, rfl⟩
  case arrived.go t data =>
    subst hstep
    exact h
  case taking.go t data =>
    refine knows_taking h ?_
    simp only [Stage.step]
    exact hstep
  case flushing.go t purpose =>
    subst hstep
    exact ⟨h.1.clip _, fun hreturns => (h.2 hreturns).clip⟩
  case clipped.go t purpose =>
    subst hstep
    split
    · rename_i hgiven
      refine knows_afterFlush h.1.clear fun hreturns => ?_
      rcases Bool.or_eq_true_iff.mp hgiven with hrevoked | hempty
      · exact .inr hrevoked
      · exact .inl ((h.2 hreturns).clear (List.isEmpty_iff.mp hempty))
    · exact h
  case polling.go t =>
    subst hstep
    split
    · exact knows_leave h.1 .ok
    · exact h
  case checking.go t =>
    subst hstep
    split
    · trivial
    · rename_i hend
      have hpos : t.pos = lease.currentOffset := h
      show lease.endOffset < lease.currentOffset
      omega

end Stage

end Ftp

end Hyperfetch
