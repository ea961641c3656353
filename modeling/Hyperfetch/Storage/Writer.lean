import Hyperfetch.Storage.Blocks
import Hyperfetch.Weft.TSys
import Mathlib.Tactic

/-!
# A writer and its hashes (`storage.rs`)

The file, what the writer knows of it, and everything that goes on at once:
calls of `write_chunk_slice`, the prefix hasher, and blocks hashed back. Bytes
land one by one in any order, reads see one byte at a time, and each access
under the lock is a step. `digest` comes when no write runs and the prefix
hasher has been joined, so nothing else goes on meanwhile.

Left out: a write that fails, with which the download does, and counters for
tests.
-/

namespace Hyperfetch

open Weft

namespace Storage

/-- A call of `write_chunk_slice`: bytes land in the file, the call is
recorded, and the blocks it went into are hashed one after another, `seen`
being what was read back of the first. It is over once none is left. -/
inductive WritePhase
  | landing (landed : Finset Nat)
  | hashing (touched : List Touched) (seen : Nat → Option UInt8)

structure Write where
  offset : Nat
  data : List UInt8
  phase : WritePhase

def Write.stop (w : Write) : Nat := w.offset + w.data.length

def Write.Covers (w : Write) (b : Nat) : Prop := w.offset ≤ b ∧ b < w.stop

instance (w : Write) (b : Nat) : Decidable (w.Covers b) := inferInstanceAs (Decidable (_ ∧ _))

def Write.isLanding (w : Write) : Bool :=
  match w.phase with
  | .landing _ => true
  | .hashing _ _ => false

def Write.running (w : Write) : Bool :=
  match w.phase with
  | .landing _ => true
  | .hashing touched _ => !touched.isEmpty

/-- Both calls write the same bytes where they overlap. -/
def Write.Agrees (w v : Write) : Prop :=
  ∀ b, w.Covers b → v.Covers b → w.data[b - w.offset]? = v.data[b - v.offset]?

/-- The prefix hasher: looking at how far the file is written, reading on to
`stop` the blocks of which `unhashed` are to be hashed, or returned. -/
inductive FollowPhase
  | looking
  | reading (stop : Nat) (unhashed : List (Nat × Nat)) (seen : Nat → Option UInt8)
  | returned

structure Follower (X : Type) where
  algo : X
  /-- The bytes hashed so far. -/
  bytes : List UInt8
  phase : FollowPhase

/-- A block being read back to be hashed, from the version it had. -/
structure Scan where
  block : Nat
  version : Nat
  seen : Nat → Option UInt8

structure State (D X : Type) where
  file : Nat → UInt8
  written : List (Nat × Nat)
  blocks : Nat → Block D
  follower : Option (Follower X)
  /-- How far the prefix hasher has read, or is reading. -/
  followed : Nat
  /-- Bytes it may have read were written again since. -/
  refollow : Bool
  stopped : Bool
  writes : List Write
  scans : List Scan

variable {D X H : Type} [DecidableEq X] (L : Layout D X H)

/-- What an earlier run wrote, as ranges of a file of `size` bytes; a range's
last byte is in it. -/
def onDiskRanges (size : Nat) (onDisk : List (Nat × Nat)) : List (Nat × Nat) :=
  (onDisk.filter fun r => decide (r.1 < size)).foldl (fun set r => add set (r.1, min (r.2 + 1) size)) []

/-- Tracking starts: the prefix hasher runs if a digest asks for it and its
thread starts. -/
def State.start (file : Nat → UInt8) (onDisk : List (Nat × Nat)) (extra : Option X) : State D X where
  file := file
  written := onDiskRanges L.size onDisk
  blocks _ := {}
  follower := extra.map fun algo => ⟨algo, [], .looking⟩
  followed := 0
  refollow := false
  stopped := false
  writes := []
  scans := []

inductive Event (X : Type)
  | write (offset : Nat) (data : List UInt8)
  | land (k j : Nat)
  | record (k : Nat)
  | readBack (k b : Nat)
  | keep (k : Nat) (readOk : Bool)
  | look
  | followRead (b : Nat)
  | followKeep
  | followOn
  | followFail
  | stop
  | scan (i : Nat)
  | scanRead (n b : Nat)
  | scanKeep (n : Nat)
  | digest (extra : Option X)

/-- The file's bytes from `start` up to `stop`. -/
def State.contents (s : State D X) (start stop : Nat) : List UInt8 :=
  (List.range' start (stop - start)).map s.file

/-- The bytes a read saw from `start` up to `stop`. -/
def seenBytes (seen : Nat → Option UInt8) (start stop : Nat) : List UInt8 :=
  (List.range' start (stop - start)).map fun b => (seen b).getD 0

/-- Whether a read saw all from `start` up to `stop`. -/
def sawAll (seen : Nat → Option UInt8) (start stop : Nat) : Bool :=
  (List.range' start (stop - start)).all fun b => (seen b).isSome

/-- Keeps a block's hash unless the block was written since it had `version`. -/
def State.keepHash (s : State D X) (i version : Nat) (hash : D) : State D X :=
  if sameVersion (s.blocks i).version version then
    { s with blocks := Function.update s.blocks i { s.blocks i with hash := some hash } }
  else s

/-- The blocks within a stretch that nothing hashed or is hashing, with their
versions. -/
def State.unhashed (s : State D X) (start stop : Nat) : List (Nat × Nat) :=
  let last := (stop + L.block - 1) / L.block
  ((List.range' (start / L.block) (last - start / L.block)).filter fun i =>
    decide (i < L.blocks) && (s.blocks i).hash.isNone && !(s.blocks i).hashing).map
      fun i => (i, (s.blocks i).version)

/-- Hashes those of `unhashed` that lie within `data`, the file's bytes from
`start` on. -/
def State.hashRead (s : State D X) (unhashed : List (Nat × Nat)) (start : Nat) (data : List UInt8) : State D X :=
  (unhashed.filter fun p => decide (start ≤ L.start p.1 ∧ L.stop p.1 ≤ start + data.length)).foldl
    (fun s p => s.keepHash p.1 p.2
      (L.hashBlock p.1 (slice data ⟨L.start p.1 - start, L.stop p.1 - L.start p.1⟩))) s

/-- The blocks a write went into, as it is recorded. -/
def Layout.touches (w : Write) (i : Nat) : Bool :=
  decide (w.offset / L.block ≤ i ∧ i ≤ (w.stop - 1) / L.block)

def State.touched (s : State D X) (w : Write) (written : List (Nat × Nat)) : List Touched :=
  let first := w.offset / L.block
  (List.range' first ((w.stop - 1) / L.block + 1 - first)).map fun i =>
    ⟨i, (s.blocks i).version + 1, covers written (L.start i) (L.stop i), (s.blocks i).head⟩

/-- A write whose bytes all landed is recorded: its blocks' hashes and heads
go, and the prefix hasher's hashes if it may have read there. -/
def State.recorded (s : State D X) (k : Nat) (w : Write) : State D X :=
  if w.data.isEmpty then { s with writes := s.writes.set k { w with phase := .hashing [] fun _ => none } }
  else
    let written := add s.written (w.offset, w.stop)
    { s with
      written
      refollow := s.refollow || decide (w.offset < s.followed)
      blocks := fun i =>
        if L.touches w i then
          ⟨(s.blocks i).version + 1, none, covers written (L.start i) (L.stop i), none⟩
        else s.blocks i
      writes := s.writes.set k { w with phase := .hashing (s.touched L w written) fun _ => none } }

/-- What a write makes of a block it went into, once it hashed it. -/
def Touched.kept (t : Touched) (w : Write) (seen : Nat → Option UInt8) (readOk : Bool) (b : Block D) : Block D :=
  let head := t.goOn L w.offset w.data
  if sameVersion b.version t.version then
    if t.complete then
      let hash := L.hashBlock t.block (head.bytes ++ seenBytes seen head.end_ (L.stop t.block))
      { b with hash := if readOk then some hash else none, hashing := false }
    else if L.start t.block < head.end_ then { b with head := some head }
    else b
  else b

/-- The least the prefix hasher reads at once, blocks allowing. -/
def followStep : Nat := 1024 * 1024

/-- Read size for whole-file hashing. -/
def fileHashBlock : Nat := 8 * 1024 * 1024

/-- How far the prefix hasher may read on from `len`. -/
def State.followEnd (s : State D X) (len : Nat) : Nat :=
  let stop := min (writtenPrefix s.written) (len + max followStep L.block)
  if stop < L.size then stop - stop % L.block else stop

/-- Reads the file from `start` on, hashing the unhashed blocks it passes. -/
def State.readTail (s : State D X) (unhashed : List (Nat × Nat)) (start : Nat) : State D X × List UInt8 :=
  if start < L.size then
    let n := min (L.size - start) (max fileHashBlock L.block)
    let data := s.contents start (start + n)
    let rest := State.readTail (s.hashRead L unhashed start data) unhashed (start + n)
    (rest.1, data ++ rest.2)
  else (s, [])
termination_by L.size - start
decreasing_by
  have := L.block_pos
  omega

/-- Every block's hash, once the blocks never hashed have been read back; kept,
nothing being written meanwhile. -/
def State.blockHashes (s : State D X) : State D X × List D :=
  let found := fun i => (s.blocks i).hash.getD (L.hashBlock i (s.contents (L.start i) (L.stop i)))
  ({ s with blocks := fun i => if i < L.blocks then { s.blocks i with hash := some (found i) } else s.blocks i },
    (List.range L.blocks).map found)

/-- The digest a checksum needs besides and its algorithm, and the file's. -/
structure FileDigest (D X H : Type) where
  blake3 : D
  extra : Option (X × H)

/-- The bytes the prefix hasher hashed with the algorithm asked for, unless some
were written again since; none otherwise. -/
def State.stopFollower (s : State D X) (extra : Option X) : List UInt8 :=
  match s.follower.filter fun f => decide (some f.algo = extra) && !s.refollow with
  | some f => f.bytes
  | none => []

/-- The file's digest, once writing is done and the prefix hasher has been
joined. That goes on from where the prefix hasher stopped. -/
def State.digest (s : State D X) (extra : Option X) : State D X × FileDigest D X H :=
  let followed := s.stopFollower extra
  let joined := { s with follower := none, stopped := true }
  match extra with
  | some algo =>
    let tail := joined.readTail L (joined.unhashed L followed.length L.size) followed.length
    let hashed := tail.1.blockHashes L
    (hashed.1, ⟨L.merge hashed.2, some (algo, L.other algo (followed ++ tail.2))⟩)
  | none =>
    let hashed := joined.blockHashes L
    (hashed.1, ⟨L.merge hashed.2, none⟩)

/-- No write runs. -/
def State.done (s : State D X) : Bool := s.writes.all fun w => !w.running

/-- No thread of the prefix hasher runs. -/
def State.joinable (s : State D X) : Bool :=
  match s.follower with
  | some ⟨_, _, .returned⟩ | none => true
  | _ => false

/-- One step; `none` where it cannot be taken. -/
def State.step (s : State D X) : Event X → Option (State D X)
  | .write offset data =>
    let w : Write := ⟨offset, data, .landing ∅⟩
    if w.stop ≤ L.size ∧ ∀ v ∈ s.writes, v.running = true →
        ∀ b ∈ List.range' offset data.length, v.Covers b → w.data[b - offset]? = v.data[b - v.offset]? then
      some { s with writes := s.writes ++ [w] }
    else none
  | .land k j =>
    match s.writes[k]? with
    | some ⟨offset, data, .landing landed⟩ =>
      data[j]?.map fun byte => { s with
        file := Function.update s.file (offset + j) byte
        writes := s.writes.set k ⟨offset, data, .landing (insert j landed)⟩ }
    | _ => none
  | .record k =>
    match s.writes[k]? with
    | some ⟨offset, data, .landing landed⟩ =>
      if ∀ j ∈ List.range data.length, j ∈ landed then
        some (s.recorded L k ⟨offset, data, .landing landed⟩)
      else none
    | _ => none
  | .readBack k b =>
    match s.writes[k]? with
    | some ⟨offset, data, .hashing (t :: touched) seen⟩ =>
      some { s with writes :=
        s.writes.set k ⟨offset, data, .hashing (t :: touched) (Function.update seen b (some (s.file b)))⟩ }
    | _ => none
  | .keep k readOk =>
    match s.writes[k]? with
    | some ⟨offset, data, .hashing (t :: touched) seen⟩ =>
      let w : Write := ⟨offset, data, .hashing (t :: touched) seen⟩
      if t.complete = true ∧ readOk = true →
          sawAll seen (t.goOn L offset data).end_ (L.stop t.block) = true then
        some { s with
          blocks := Function.update s.blocks t.block (t.kept L w seen readOk (s.blocks t.block))
          writes := s.writes.set k ⟨offset, data, .hashing touched fun _ => none⟩ }
      else none
    | _ => none
  | .look =>
    match s.follower with
    | some ⟨algo, bytes, .looking⟩ =>
      if s.stopped = true ∨ L.size ≤ bytes.length then
        some { s with follower := some ⟨algo, bytes, .returned⟩ }
      else
        let stop := s.followEnd L bytes.length
        if bytes.length < stop then
          some { s with
            followed := stop
            follower := some ⟨algo, bytes, .reading stop (s.unhashed L bytes.length stop) fun _ => none⟩ }
        else none
    | _ => none
  | .followRead b =>
    match s.follower with
    | some ⟨algo, bytes, .reading stop unhashed seen⟩ =>
      if bytes.length ≤ b ∧ b < stop then
        some { s with
          follower := some ⟨algo, bytes, .reading stop unhashed (Function.update seen b (some (s.file b)))⟩ }
      else none
    | _ => none
  | .followKeep =>
    match s.follower with
    | some ⟨algo, bytes, .reading stop (p :: unhashed) seen⟩ =>
      if sawAll seen bytes.length stop then
        some (State.hashRead L { s with follower := some ⟨algo, bytes, .reading stop unhashed seen⟩ } [p]
          bytes.length (seenBytes seen bytes.length stop))
      else none
    | _ => none
  | .followOn =>
    match s.follower with
    | some ⟨algo, bytes, .reading stop [] seen⟩ =>
      if sawAll seen bytes.length stop then
        some { s with follower := some ⟨algo, bytes ++ seenBytes seen bytes.length stop, .looking⟩ }
      else none
    | _ => none
  | .followFail =>
    match s.follower with
    | some ⟨algo, bytes, .reading _ _ _⟩ => some { s with follower := some ⟨algo, bytes, .returned⟩ }
    | _ => none
  | .stop => some { s with stopped := true }
  | .scan i => some { s with scans := s.scans ++ [⟨i, (s.blocks i).version, fun _ => none⟩] }
  | .scanRead n b =>
    match s.scans[n]? with
    | some ⟨i, version, seen⟩ =>
      some { s with scans := s.scans.set n ⟨i, version, Function.update seen b (some (s.file b))⟩ }
    | none => none
  | .scanKeep n =>
    match s.scans[n]? with
    | some ⟨i, version, seen⟩ =>
      if sawAll seen (L.start i) (L.stop i) then
        some (State.keepHash { s with scans := s.scans.eraseIdx n } i version
          (L.hashBlock i (seenBytes seen (L.start i) (L.stop i))))
      else none
    | none => none
  | .digest extra => if s.done && s.joinable then some (s.digest L extra).1 else none

/-- The hashes in flight: of which block, and from which version. -/
def State.inFlight (s : State D X) : List (Nat × Nat) :=
  (s.writes.flatMap fun w => match w.phase with
    | .landing _ => []
    | .hashing touched _ => touched.map fun t => (t.block, t.version)) ++
  (match s.follower with
    | some ⟨_, _, .reading _ unhashed _⟩ => unhashed
    | _ => []) ++
  s.scans.map fun c => (c.block, c.version)

end Storage

end Hyperfetch
