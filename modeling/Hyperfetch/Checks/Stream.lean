import Hyperfetch.Checks.Passes
import Hyperfetch.Queue.Operations
import Hyperfetch.Worker.Response

/-!
# A file over one connection (`fetch_stream`)

A server without ranges, or that does not say how long the file is, is asked for all of
it, and every retry starts from the first byte. What comes is written in order through
`InOrderFile`, which decrypts and hashes each batch on its way.

What happens comes with the tries: the answers, the pieces of their bodies and what
fails. A download ends without an error exactly when a try brought a whole body that fits
what is known of the file, after tries that were passed over, and then the `.part` is that
one body and nothing else (`fetchStream_iff`); the last checks are of its bytes
(`stream_kept`).

Parameters: how long a Retry-After asks to wait, and how a status and a size are shown.
Left out: snapshots, the host's slot, the speed limit and how long a try waits.
-/

namespace Hyperfetch.Checks

open Weft
open Queue (cancelled)

/-! ## Writing in order -/

/-- What a MEGA file's bytes are once decrypted at their place. -/
def plain (decrypt : Option Mega.Cipher) (offset : Nat) (data : List UInt8) : List UInt8 :=
  match decrypt with
  | some cipher => cipher.apply offset data
  | none => data

theorem plain_append (decrypt : Option Mega.Cipher) (offset : Nat) (front back : List UInt8) :
    plain decrypt offset (front ++ back) = plain decrypt offset front ++ plain decrypt (offset + front.length) back := by
  cases decrypt with
  | none => rfl
  | some cipher => simp only [plain, cipher.apply_eq_mask, mask_append]

@[simp] theorem length_plain (decrypt : Option Mega.Cipher) (offset : Nat) (data : List UInt8) :
    (plain decrypt offset data).length = data.length := by
  cases decrypt with
  | none => rfl
  | some cipher => exact cipher.length_apply offset data

/-- A write that fails, with so many of its bytes in the file. -/
structure DiskFault where
  kept : Nat
  why : String

structure InOrderFile where
  /-- What the file holds. -/
  file : List UInt8
  /-- What the hasher had. -/
  hashed : List UInt8
  batch : List UInt8

namespace InOrderFile

/-- `create` empties the file. -/
def create : InOrderFile := ⟨[], [], []⟩

/-- `STREAM_BATCH`. -/
def streamBatch : Nat := 1024 * 1024

variable (decrypt : Option Mega.Cipher)

/-- Writes the batch out and hashes it, and why it fails, if it does. -/
def writeBatch (out : InOrderFile) (fault : Option DiskFault) : InOrderFile × Option String :=
  let batch := plain decrypt out.hashed.length out.batch
  match fault with
  | some fault => ({ out with file := out.file ++ batch.take fault.kept }, some fault.why)
  | none => (⟨out.file ++ batch, out.hashed ++ batch, []⟩, none)

/-- Appends `bytes`, writing the batch out once it is full. -/
def push (out : InOrderFile) (bytes : List UInt8) (fault : Option DiskFault) : InOrderFile × Option String :=
  let out := { out with batch := out.batch ++ bytes }
  if out.batch.length < streamBatch then (out, none) else out.writeBatch decrypt fault

/-- It was given `body` so far. -/
structure Holds (out : InOrderFile) (body : List UInt8) : Prop where
  hashed : out.hashed = out.file
  whole : out.file ++ plain decrypt out.file.length out.batch = plain decrypt 0 body

variable {decrypt} {out out' : InOrderFile} {body : List UInt8}

theorem holds_create : Holds decrypt create [] := ⟨rfl, by cases decrypt <;> rfl⟩

theorem Holds.append (h : Holds decrypt out body) (bytes : List UInt8) :
    Holds decrypt { out with batch := out.batch ++ bytes } (body ++ bytes) where
  hashed := h.hashed
  whole := by
    have hlen := congrArg List.length h.whole
    rw [List.length_append, length_plain, length_plain] at hlen
    show out.file ++ plain decrypt out.file.length (out.batch ++ bytes) = _
    rw [plain_append, ← List.append_assoc, h.whole, hlen, plain_append, Nat.zero_add]

/-- A batch that is written is in the file. -/
theorem Holds.writeBatch (h : Holds decrypt out body) {fault : Option DiskFault} (hok : out.writeBatch decrypt fault = (out', none)) :
    Holds decrypt out' body ∧ out'.file = plain decrypt 0 body := by
  cases fault with
  | some fault => cases hok
  | none =>
    obtain rfl := (Prod.mk.inj hok).1
    have hwhole : out.file ++ plain decrypt out.hashed.length out.batch = plain decrypt 0 body := by
      rw [h.hashed]
      exact h.whole
    have hempty (n : Nat) : plain decrypt n [] = [] := List.length_eq_zero_iff.mp (length_plain decrypt n [])
    refine ⟨⟨?_, ?_⟩, hwhole⟩
    · show out.hashed ++ _ = out.file ++ _
      rw [h.hashed]
    · show (out.file ++ plain decrypt out.hashed.length out.batch) ++ plain decrypt _ [] = _
      rw [hempty, List.append_nil, hwhole]

theorem Holds.push (h : Holds decrypt out body) {bytes : List UInt8} {fault : Option DiskFault}
    (hok : out.push decrypt bytes fault = (out', none)) : Holds decrypt out' (body ++ bytes) := by
  unfold InOrderFile.push at hok
  dsimp only at hok
  split at hok
  · obtain rfl := (Prod.mk.inj hok).1
    exact h.append bytes
  · exact ((h.append bytes).writeBatch hok).1

end InOrderFile

/-! ## One try -/

/-- What a try comes upon while the body comes in. -/
inductive Item
  /-- A piece, and what its writing comes upon. -/
  | data (bytes : List UInt8) (fault : Option DiskFault)
  | readError (why : String)
  | stalled
  | cancelled

inductive Reply
  | cancelled
  | timedOut
  | failed (why : String)
  | answered (status : Nat) (headers : HeaderMap) (items : List Item)

structure Try where
  reply : Reply
  /-- Why the `.part` cannot be created. -/
  create : Option String
  /-- What the last write comes upon. -/
  finish : Option DiskFault
  /-- The download is cancelled by the time the try failed. -/
  cancelledThen : Bool
  /-- It is while the next try is waited for. -/
  cancelledWaiting : Bool

/-- What is known of the file, and how it is asked for. -/
structure Asking where
  size : Option Nat
  maxFilesize : Option Nat
  maxRetries : Nat
  /-- Seconds. -/
  stall : Nat
  /-- The `.part`, as messages name it. -/
  part : String
  retryAfter : HeaderMap → Option Nat
  statusText : Nat → String
  sizeText : Nat → String

variable {H : Type} (k : Checker H) (o : Options) (a : Asking)

def transient (message : String) : Failure := ⟨.transient, none, message⟩

def fatal (message : String) : Failure := ⟨.fatal, none, message⟩

/-- Reads the body: how much came, and the file. -/
def receive : List Item → InOrderFile → Nat → Except Failure Nat × InOrderFile
  | [], out, written => (.ok written, out)
  | .cancelled :: _, out, _ => (.error (transient cancelled), out)
  | .stalled :: _, out, written => (.error (transient s!"stalled: no data for {a.stall}s at offset {written}"), out)
  | .readError why :: _, out, written => (.error (transient s!"read error at offset {written}: {why}"), out)
  | .data bytes fault :: items, out, written =>
    let written := written + bytes.length
    if a.size.any (· < written) then (.error (fatal "remote file changed: server sent more data than expected"), out)
    else
      match a.maxFilesize.filter (· < written) with
      | some max => (.error (fatal s!"File is larger than the limit of {a.sizeText max}"), out)
      | none =>
        match out.push o.decrypt bytes fault with
        | (out, some why) => (.error (fatal s!"Disk write error: {why}"), out)
        | (out, none) => receive items out written

/-- The failure of an answer that is no success. -/
def refused (status : Nat) (headers : HeaderMap) : Failure :=
  let message := s!"HTTP {a.statusText status}"
  if status = 429 ∨ status = 503 then ⟨.throttled, a.retryAfter headers, message⟩
  else if status = 401 ∨ status = 403 ∨ status = 404 ∨ status = 410 then ⟨.badMirror, none, message⟩
  else transient message

/-- Once the body is at its end: its digest, if all of it came. -/
def closeStream (out : InOrderFile) (written : Nat) (fault : Option DiskFault) : Except Failure FileDigest × InOrderFile :=
  match out.writeBatch o.decrypt fault with
  | (out, some why) => (.error (fatal s!"Disk write error: {why}"), out)
  | (out, none) =>
    match a.size.filter (· ≠ written) with
    | some expected => (.error (transient s!"connection closed after {written} of {expected} bytes"), out)
    | none => (.ok (k.hashes.digest (needed o.expected) out.hashed), out)

/-- The length an answer says, where another is known. -/
def otherLength (headers : HeaderMap) : Option (Nat × Nat) :=
  a.size.bind fun expected => (headers.contentLength.filter (· ≠ expected)).map fun len => (len, expected)

/-- The body of an answer, once it is found to be the file's. -/
def takeBody (t : Try) (items : List Item) (part : List UInt8) : Except Failure FileDigest × List UInt8 :=
  match t.create with
  | some why => (.error (fatal s!"Failed to create {a.part}: {why}"), part)
  | none =>
    match receive o a items .create 0 with
    | (.error failure, out) => (.error failure, out.file)
    | (.ok written, out) => ((closeStream k o a out written t.finish).1, (closeStream k o a out written t.finish).2.file)

/-- `stream_once`: the file's digest, and what the `.part` holds then. -/
def streamOnce (t : Try) (part : List UInt8) : Except Failure FileDigest × List UInt8 :=
  match t.reply with
  | .cancelled => (.error (transient cancelled), part)
  | .timedOut => (.error (transient s!"no response within {a.stall}s"), part)
  | .failed why => (.error (transient s!"request failed: {why}"), part)
  | .answered status headers items =>
    if status < 200 ∨ 300 ≤ status then (.error (refused a status headers), part)
    else
      match otherLength a headers with
      | some (len, expected) =>
        (.error (fatal s!"remote file changed: server now sends {len} bytes, expected {expected}"), part)
      | none => takeBody k o a t items part

/-! ## The tries -/

/-- `fetch_stream`'s loop, `left` retries from its end, `failures` tries and `bad` refusals in a row behind. -/
def tryFrom (tries : Nat → Try) : Nat → Nat → Nat → List UInt8 → Except String FileDigest × List UInt8
  | left, failures, bad, part =>
    match streamOnce k o a (tries failures) part with
    | (.ok digest, part) => (.ok digest, part)
    | (.error failure, part) =>
      if (tries failures).cancelledThen then (.error cancelled, part)
      else if failure.kind = .fatal then (.error failure.message, part)
      else
        let bad := if failure.kind = .badMirror then bad + 1 else 0
        if 2 ≤ bad then (.error s!"Download failed: every mirror failed; last error: {failure.message}", part)
        else
          match left with
          | 0 => (.error s!"Download failed after {failures + 1} attempts: {failure.message}", part)
          | left + 1 =>
            if (tries failures).cancelledWaiting then (.error cancelled, part) else tryFrom tries left (failures + 1) bad part

/-- `fetch_stream`. The first try may be the probe's answer. -/
def fetchStream (tries : Nat → Try) (part : List UInt8) : Except String FileDigest × List UInt8 :=
  tryFrom k o a tries a.maxRetries 0 0 part

/-! ## A whole body -/

/-- The items are data to the body's end, and what is written of it on the way goes well;
`gathered` bytes wait to be written. -/
inductive Comes : Nat → List Item → List UInt8 → Prop
  | nil (gathered : Nat) : Comes gathered [] []
  | gather {gathered : Nat} {bytes body : List UInt8} {fault : Option DiskFault} {items : List Item}
      (hroom : gathered + bytes.length < InOrderFile.streamBatch) (rest : Comes (gathered + bytes.length) items body) :
      Comes gathered (.data bytes fault :: items) (bytes ++ body)
  | write {gathered : Nat} {bytes body : List UInt8} {items : List Item}
      (hfull : InOrderFile.streamBatch ≤ gathered + bytes.length) (rest : Comes 0 items body) :
      Comes gathered (.data bytes none :: items) (bytes ++ body)

/-- So many bytes are no more than there may be. -/
def Fits (a : Asking) (n : Nat) : Prop := (∀ size ∈ a.size, n ≤ size) ∧ ∀ max ∈ a.maxFilesize, n ≤ max

/-- An answer brings the whole of `body`, and it is the file as far as it is known. -/
structure Whole (a : Asking) (t : Try) (status : Nat) (headers : HeaderMap) (items : List Item) (body : List UInt8) : Prop where
  reply : t.reply = .answered status headers items
  success : 200 ≤ status ∧ status < 300
  announced : ∀ size ∈ a.size, ∀ len ∈ headers.contentLength, len = size
  size : ∀ size ∈ a.size, body.length = size
  room : ∀ max ∈ a.maxFilesize, body.length ≤ max
  created : t.create = none
  comes : Comes 0 items body
  finished : t.finish = none

def Brings (a : Asking) (t : Try) (body : List UInt8) : Prop := ∃ status headers items, Whole a t status headers items body

variable {k o a} {items : List Item} {out out' : InOrderFile} {body before part after : List UInt8} {written total : Nat}

theorem Comes.push {bytes : List UInt8} {fault : Option DiskFault} (hpush : out.push o.decrypt bytes fault = (out', none))
    (hcomes : Comes out'.batch.length items body) : Comes out.batch.length (.data bytes fault :: items) (bytes ++ body) := by
  unfold InOrderFile.push at hpush
  dsimp only at hpush
  rw [List.length_append] at hpush
  split at hpush
  next hroom =>
    obtain rfl := (Prod.mk.inj hpush).1
    rw [List.length_append] at hcomes
    exact .gather hroom hcomes
  next hfull =>
    cases fault with
    | some fault => cases hpush
    | none =>
      obtain rfl := (Prod.mk.inj hpush).1
      exact .write (Nat.le_of_not_lt hfull) hcomes

theorem push_gathers {bytes : List UInt8} (fault : Option DiskFault) (hroom : out.batch.length + bytes.length < InOrderFile.streamBatch) :
    out.push o.decrypt bytes fault = ({ out with batch := out.batch ++ bytes }, none) := by
  unfold InOrderFile.push
  dsimp only
  rw [List.length_append, if_pos hroom]

theorem push_writes {bytes : List UInt8} (hfull : InOrderFile.streamBatch ≤ out.batch.length + bytes.length) :
    ∃ out', out.push o.decrypt bytes none = (out', none) ∧ out'.batch = [] := by
  unfold InOrderFile.push
  dsimp only
  rw [List.length_append, if_neg (Nat.not_lt_of_le hfull)]
  exact ⟨_, rfl, rfl⟩

/-- A piece that is not too much and is put away. -/
theorem receive_data {bytes : List UInt8} {fault : Option DiskFault} (hfits : Fits a (written + bytes.length))
    (hpush : out.push o.decrypt bytes fault = (out', none)) :
    receive o a (.data bytes fault :: items) out written = receive o a items out' (written + bytes.length) := by
  have hsize : a.size.any (· < written + bytes.length) = false := by
    cases hsize : a.size with
    | none => rfl
    | some size => exact decide_eq_false (Nat.not_lt_of_le (hfits.1 size hsize))
  have hmax : a.maxFilesize.filter (· < written + bytes.length) = none := by
    cases hmax : a.maxFilesize with
    | none => rfl
    | some max =>
      refine Option.filter_eq_none_iff.mpr fun n hn => ?_
      obtain rfl := Option.some.inj hn
      simpa using hfits.2 _ hmax
  rw [receive, hsize, hmax, hpush]
  rfl

/-- What was received is a body that came, and the file was given all of it. -/
theorem receive_ok (h : receive o a items out written = (.ok total, out')) (hfits : Fits a written) (hholds : out.Holds o.decrypt before) :
    ∃ body, Comes out.batch.length items body ∧ total = written + body.length ∧ Fits a total ∧ out'.Holds o.decrypt (before ++ body) := by
  induction items generalizing out written before with
  | nil =>
    obtain ⟨hok, rfl⟩ := Prod.mk.inj h
    obtain rfl := Except.ok.inj hok
    exact ⟨[], .nil _, rfl, hfits, by rwa [List.append_nil]⟩
  | cons item items ih =>
    cases item with
    | data bytes fault =>
      rw [receive] at h
      split at h
      · cases h
      next hsize =>
      split at h
      · cases h
      next hmax =>
      have hmore : Fits a (written + bytes.length) := by
        constructor
        · intro size hmem
          rw [Option.mem_def.mp hmem] at hsize
          exact Nat.le_of_not_lt (by simpa using hsize)
        · intro max hmem
          rw [Option.mem_def.mp hmem] at hmax
          exact Nat.le_of_not_lt (by simpa using hmax)
      cases hpush : out.push o.decrypt bytes fault with
      | mk next why =>
        rw [hpush] at h
        cases why with
        | some why => cases h
        | none =>
          obtain ⟨body, hcomes, rfl, hall, hnext⟩ := ih h hmore (hholds.push hpush)
          refine ⟨bytes ++ body, hcomes.push hpush, ?_, hall, by rwa [List.append_assoc] at hnext⟩
          rw [List.length_append, Nat.add_assoc]
    | _ => cases h

/-- A body that comes whole is received. -/
theorem receive_whole {gathered : Nat} (hcomes : Comes gathered items body) (hgathered : out.batch.length = gathered)
    (hfits : Fits a (written + body.length)) (hholds : out.Holds o.decrypt before) :
    ∃ out', receive o a items out written = (.ok (written + body.length), out') ∧ out'.Holds o.decrypt (before ++ body) := by
  have hless {n m : Nat} (hle : n ≤ m) (hm : Fits a m) : Fits a n :=
    ⟨fun size hsize => Nat.le_trans hle (hm.1 size hsize), fun max hmax => Nat.le_trans hle (hm.2 max hmax)⟩
  induction hcomes generalizing out written before with
  | nil gathered => exact ⟨out, rfl, by rwa [List.append_nil]⟩
  | @gather _ _ _ fault _ hroom rest ih =>
    rw [List.length_append, ← Nat.add_assoc] at hfits ⊢
    rw [← hgathered] at hroom ih
    have hpush := push_gathers (o := o) fault hroom
    rw [receive_data (hless (Nat.le_add_right _ _) hfits) hpush, ← List.append_assoc]
    exact ih (List.length_append ..) hfits (hholds.push hpush)
  | write hfull rest ih =>
    rw [List.length_append, ← Nat.add_assoc] at hfits ⊢
    rw [← hgathered] at hfull
    obtain ⟨next, hpush, hempty⟩ := push_writes (o := o) hfull
    rw [receive_data (hless (Nat.le_add_right _ _) hfits) hpush, ← List.append_assoc]
    exact ih (by rw [hempty]; rfl) hfits (hholds.push hpush)

theorem closeStream_ok {fault : Option DiskFault} {digest : FileDigest} (h : closeStream k o a out written fault = (.ok digest, out'))
    (hholds : out.Holds o.decrypt body) : fault = none ∧ (∀ size ∈ a.size, written = size) ∧
      out'.file = plain o.decrypt 0 body ∧ digest = k.hashes.digest (needed o.expected) out'.file := by
  unfold closeStream at h
  cases hwrite : out.writeBatch o.decrypt fault with
  | mk next why =>
    rw [hwrite] at h
    cases why with
    | some why => cases h
    | none =>
      dsimp only at h
      split at h
      · cases h
      next hsize =>
      obtain ⟨hdigest, rfl⟩ := Prod.mk.inj h
      obtain ⟨hnext, hfile⟩ := hholds.writeBatch hwrite
      refine ⟨?_, fun size hmem => ?_, hfile, ?_⟩
      · cases fault with
        | none => rfl
        | some fault => cases hwrite
      · rw [Option.mem_def.mp hmem] at hsize
        have hsame := Option.filter_eq_none_iff.mp hsize size rfl
        exact (by simpa using hsame : size = written).symm
      · rw [← Except.ok.inj hdigest, hnext.hashed]

theorem closeStream_whole (hsize : ∀ size ∈ a.size, written = size) (hholds : out.Holds o.decrypt body) :
    ∃ out', closeStream k o a out written none = (.ok (k.hashes.digest (needed o.expected) (plain o.decrypt 0 body)), out') ∧
      out'.file = plain o.decrypt 0 body := by
  have hok : ∃ digest out', closeStream k o a out written none = (.ok digest, out') := by
    have hnone : a.size.filter (· ≠ written) = none := by
      cases hsome : a.size with
      | none => rfl
      | some size =>
        obtain rfl := hsize size hsome
        simp
    unfold closeStream
    rw [show out.writeBatch o.decrypt none = (_, none) from rfl]
    dsimp only
    rw [hnone]
    exact ⟨_, _, rfl⟩
  obtain ⟨digest, out', hclose⟩ := hok
  obtain ⟨-, -, hfile, rfl⟩ := closeStream_ok hclose hholds
  exact ⟨out', by rw [hclose, hfile], hfile⟩

theorem otherLength_eq_none {headers : HeaderMap} :
    otherLength a headers = none ↔ ∀ size ∈ a.size, ∀ len ∈ headers.contentLength, len = size := by
  unfold otherLength
  cases a.size with
  | none => simp
  | some size =>
    cases headers.contentLength with
    | none => simp
    | some len => by_cases hlen : len = size <;> simp [hlen]

/-- A try ends well exactly when it brings a whole body, and the `.part` is this body then. -/
theorem streamOnce_iff (part : List UInt8) {t : Try} {digest : FileDigest} :
    streamOnce k o a t part = (.ok digest, after) ↔
      ∃ body, Brings a t body ∧ after = plain o.decrypt 0 body ∧ digest = k.hashes.digest (needed o.expected) after := by
  have hzero : Fits a 0 := ⟨fun _ _ => Nat.zero_le _, fun _ _ => Nat.zero_le _⟩
  constructor
  · intro h
    unfold streamOnce at h
    cases hreply : t.reply with
    | answered status headers items =>
      rw [hreply] at h
      dsimp only at h
      split at h
      · cases h
      next hstatus =>
      cases hother : otherLength a headers with
      | some lengths =>
        rw [hother] at h
        cases h
      | none =>
        rw [hother] at h
        dsimp only [takeBody] at h
        cases hcreate : t.create with
        | some why =>
          rw [hcreate] at h
          cases h
        | none =>
          rw [hcreate] at h
          dsimp only at h
          cases hreceive : receive o a items .create 0 with
          | mk result out =>
            rw [hreceive] at h
            cases result with
            | error failure => cases h
            | ok total =>
              obtain ⟨hdigest, rfl⟩ := Prod.mk.inj h
              obtain ⟨body, hcomes, rfl, hfits, hholds⟩ := receive_ok hreceive hzero InOrderFile.holds_create
              rw [List.nil_append] at hholds
              obtain ⟨hfinish, hsize, hfile, hof⟩ := closeStream_ok (Prod.ext hdigest rfl) hholds
              rw [Nat.zero_add] at hsize hfits
              refine ⟨body, ⟨status, headers, items, hreply, by omega, otherLength_eq_none.mp hother, hsize, hfits.2, hcreate, hcomes, hfinish⟩, ?_, ?_⟩
              · rw [Nat.zero_add, hfinish] at hfile
                simpa [hfinish] using hfile
              · simpa [hfinish] using hof
    | _ =>
      rw [hreply] at h
      cases h
  · rintro ⟨body, ⟨status, headers, items, hwhole⟩, rfl, rfl⟩
    have hfits : Fits a (0 + body.length) := by
      rw [Nat.zero_add]
      exact ⟨fun size hsize => Nat.le_of_eq (hwhole.size size hsize), hwhole.room⟩
    obtain ⟨out, hreceive, hholds⟩ := receive_whole hwhole.comes (rfl : InOrderFile.create.batch.length = 0) hfits InOrderFile.holds_create
    rw [Nat.zero_add] at hreceive
    rw [List.nil_append] at hholds
    obtain ⟨out', hclose, hfile⟩ := closeStream_whole (k := k) hwhole.size hholds
    unfold streamOnce
    rw [hwhole.reply]
    dsimp only
    rw [if_neg (by have := hwhole.success; omega), otherLength_eq_none.mpr hwhole.announced]
    dsimp only [takeBody]
    rw [hwhole.created, hreceive, hwhole.finished]
    dsimp only
    rw [hclose, ← hfile]

/-! ## Tries one after the other -/

/-- The server says that it has no such file, or not for us. -/
def Refused (t : Try) : Prop := ∃ status headers items, t.reply = .answered status headers items ∧
  (status = 401 ∨ status = 403 ∨ status = 404 ∨ status = 410)

/-- A try fails and another may follow. -/
def Retried (k : Checker H) (o : Options) (a : Asking) (t : Try) : Prop :=
  ∃ failure, (streamOnce k o a t []).1 = .error failure ∧ failure.kind ≠ .fatal ∧ t.cancelledThen = false ∧ t.cancelledWaiting = false

/-- The second of two tries in a row that were refused. -/
def RefusedAgain (tries : Nat → Try) (n : Nat) : Prop := Refused (tries n) ∧ ∃ m, m + 1 = n ∧ Refused (tries m)

theorem streamOnce_fst (t : Try) (part part' : List UInt8) : (streamOnce k o a t part).1 = (streamOnce k o a t part').1 := by
  unfold streamOnce
  cases t.reply with
  | answered status headers items =>
    dsimp only
    split
    · rfl
    · split
      · rfl
      · unfold takeBody
        cases t.create with
        | some why => rfl
        | none => split <;> rfl
  | _ => rfl

theorem receive_kind {failure : Failure} (h : receive o a items out written = (.error failure, out')) : failure.kind ≠ .badMirror := by
  induction items generalizing out written with
  | nil => cases h
  | cons item items ih =>
    cases item with
    | data bytes fault =>
      rw [receive] at h
      split at h
      · cases h
        exact FailureKind.noConfusion
      split at h
      · cases h
        exact FailureKind.noConfusion
      split at h
      · cases h
        exact FailureKind.noConfusion
      · exact ih h
    | _ =>
      cases h
      exact FailureKind.noConfusion

theorem takeBody_kind {t : Try} {failure : Failure} (h : (takeBody k o a t items part).1 = .error failure) : failure.kind ≠ .badMirror := by
  unfold takeBody at h
  cases hcreate : t.create with
  | some why =>
    rw [hcreate] at h
    cases h
    exact FailureKind.noConfusion
  | none =>
    rw [hcreate] at h
    dsimp only at h
    cases hreceive : receive o a items .create 0 with
    | mk result out =>
      rw [hreceive] at h
      cases result with
      | error failure' =>
        cases h
        exact receive_kind hreceive
      | ok total =>
        dsimp only [closeStream] at h
        split at h
        · cases h
          exact FailureKind.noConfusion
        · split at h
          · cases h
            exact FailureKind.noConfusion
          · cases h

/-- A try is refused exactly if its failure is a bad mirror's. -/
theorem refused_iff {t : Try} {failure : Failure} (h : (streamOnce k o a t part).1 = .error failure) :
    failure.kind = .badMirror ↔ Refused t := by
  unfold streamOnce at h
  unfold Refused
  cases hreply : t.reply with
  | answered status headers items =>
    rw [hreply] at h
    dsimp only at h
    have hsame : (∃ status' headers' items', Reply.answered status headers items = .answered status' headers' items' ∧
        (status' = 401 ∨ status' = 403 ∨ status' = 404 ∨ status' = 410)) ↔ status = 401 ∨ status = 403 ∨ status = 404 ∨ status = 410 := by
      constructor
      · rintro ⟨status', headers', items', heq, hstatus⟩
        cases heq
        exact hstatus
      · exact fun hstatus => ⟨status, headers, items, rfl, hstatus⟩
    rw [hsame]
    split at h
    · obtain rfl := Except.error.inj h
      unfold refused
      dsimp only
      split
      · exact iff_of_false FailureKind.noConfusion (by omega)
      · split
        next hrefused => exact iff_of_true rfl hrefused
        next hother => exact iff_of_false FailureKind.noConfusion hother
    · refine iff_of_false ?_ (by omega)
      split at h
      · obtain rfl := Except.error.inj h
        exact FailureKind.noConfusion
      · exact takeBody_kind h
  | _ =>
    rw [hreply] at h
    obtain rfl := Except.error.inj h
    refine iff_of_false FailureKind.noConfusion ?_
    rintro ⟨_, _, _, heq, -⟩
    cases heq

variable (k o a) in
/-- What comes of the tries from the `n`-th on, which `left` more may follow. -/
def Ends (tries : Nat → Try) (n left : Nat) (digest : FileDigest) (after : List UInt8) : Prop :=
  ∃ m, n ≤ m ∧ m ≤ n + left ∧ (∀ i, n ≤ i → i < m → Retried k o a (tries i) ∧ ¬RefusedAgain tries i) ∧
    ∃ body, Brings a (tries m) body ∧ after = plain o.decrypt 0 body ∧ digest = k.hashes.digest (needed o.expected) after

variable {tries : Nat → Try} {digest : FileDigest}

/-- The next try is the last, or it is passed over and others follow. -/
theorem ends_iff {n left : Nat} : Ends k o a tries n left digest after ↔
    (∃ body, Brings a (tries n) body ∧ after = plain o.decrypt 0 body ∧ digest = k.hashes.digest (needed o.expected) after) ∨
      Retried k o a (tries n) ∧ ¬RefusedAgain tries n ∧ ∃ rest, left = rest + 1 ∧ Ends k o a tries (n + 1) rest digest after := by
  constructor
  · rintro ⟨m, hle, hlast, hbefore, hbody⟩
    rcases Nat.eq_or_lt_of_le hle with rfl | hlt
    · exact .inl hbody
    · obtain ⟨hretried, hagain⟩ := hbefore n le_rfl hlt
      obtain ⟨rest, rfl⟩ : ∃ rest, left = rest + 1 := ⟨left - 1, by omega⟩
      exact .inr ⟨hretried, hagain, rest, rfl, m, hlt, by omega, fun i hi => hbefore i (Nat.le_of_succ_le hi), hbody⟩
  · rintro (hbody | ⟨hretried, hagain, rest, rfl, m, hle, hlast, hbefore, hbody⟩)
    · exact ⟨n, le_rfl, Nat.le_add_right n left, fun i hi hlt => absurd hlt (Nat.not_lt_of_le hi), hbody⟩
    · refine ⟨m, Nat.le_of_succ_le hle, by omega, fun i hi hlt => ?_, hbody⟩
      rcases Nat.eq_or_lt_of_le hi with rfl | hlater
      · exact ⟨hretried, hagain⟩
      · exact hbefore i hlater hlt

/-- The loop, from a try on: `bad` says whether the one before it was refused. -/
theorem tryFrom_iff {left failures bad : Nat} (hle : bad ≤ 1) (hbad : bad = 1 ↔ ∃ m, m + 1 = failures ∧ Refused (tries m)) :
    tryFrom k o a tries left failures bad part = (.ok digest, after) ↔ Ends k o a tries failures left digest after := by
  induction left using Nat.strong_induction_on generalizing failures bad part with
  | _ left ih =>
    rw [ends_iff, tryFrom]
    cases honce : streamOnce k o a (tries failures) part with
    | mk result next =>
      have hfirst : (streamOnce k o a (tries failures) []).1 = result := by rw [streamOnce_fst _ [] part, honce]
      cases result with
      | ok digest' =>
        have hover : ¬Retried k o a (tries failures) := by
          rintro ⟨failure, hfailed, -⟩
          rw [hfirst] at hfailed
          cases hfailed
        rw [or_iff_left fun h => hover h.1, ← streamOnce_iff part, honce]
        dsimp only
        constructor
        · intro h
          cases h
          rfl
        · intro h
          cases h
          rfl
      | error failure =>
        have hkind : failure.kind = .badMirror ↔ Refused (tries failures) := refused_iff hfirst
        have hnot : ¬∃ body, Brings a (tries failures) body ∧ after = plain o.decrypt 0 body ∧
            digest = k.hashes.digest (needed o.expected) after := by
          rw [← streamOnce_iff part, honce]
          intro h
          cases h
        have hretried : Retried k o a (tries failures) ↔ failure.kind ≠ .fatal ∧ (tries failures).cancelledThen = false ∧
            (tries failures).cancelledWaiting = false := by
          constructor
          · rintro ⟨failure', hfailed, h⟩
            rw [hfirst] at hfailed
            cases hfailed
            exact h
          · exact fun h => ⟨failure, hfirst, h⟩
        have hagain : RefusedAgain tries failures ↔ failure.kind = .badMirror ∧ bad = 1 := and_congr hkind.symm hbad.symm
        rw [or_iff_right hnot, hretried, hagain]
        dsimp only
        split
        next hthen => exact iff_of_false (fun h => by cases h) fun h => by rw [h.1.2.1] at hthen; cases hthen
        next hthen =>
        split
        next hfatal => exact iff_of_false (fun h => by cases h) fun h => h.1.1 hfatal
        next hfatal =>
        have htwice : 2 ≤ (if failure.kind = .badMirror then bad + 1 else 0) ↔ failure.kind = .badMirror ∧ bad = 1 := by
          split
          next hmirror =>
            simp only [hmirror, true_and]
            omega
          next hmirror => exact iff_of_false (by omega) fun h => hmirror h.1
        have hone : (if failure.kind = .badMirror then bad + 1 else 0) ≤ 1 →
            ((if failure.kind = .badMirror then bad + 1 else 0) = 1 ↔ ∃ m, m + 1 = failures + 1 ∧ Refused (tries m)) := by
          have hlast : (∃ m, m + 1 = failures + 1 ∧ Refused (tries m)) ↔ failure.kind = .badMirror := by
            rw [hkind]
            constructor
            · rintro ⟨m, hm, hrefused⟩
              exact Nat.succ.inj hm ▸ hrefused
            · exact fun hrefused => ⟨failures, rfl, hrefused⟩
          rw [hlast]
          split
          next hmirror => exact fun hrow => iff_of_true (by omega) hmirror
          next hmirror => exact fun _ => iff_of_false (by omega) hmirror
        generalize (if failure.kind = .badMirror then bad + 1 else 0) = row at htwice hone
        split
        next htwo => exact iff_of_false (fun h => by cases h) fun h => h.2.1 (htwice.mp htwo)
        next htwo =>
        cases left with
        | zero => exact iff_of_false (fun h => by cases h) fun ⟨_, _, _, hrest, _⟩ => by cases hrest
        | succ left =>
          dsimp only
          split
          next hwaits => exact iff_of_false (fun h => by cases h) fun h => by rw [h.1.2.2] at hwaits; cases hwaits
          next hwaits =>
          have hrow : row ≤ 1 := Nat.le_of_lt_succ (Nat.lt_of_not_le htwo)
          rw [ih left (Nat.lt_succ_self left) hrow (hone hrow)]
          constructor
          · exact fun hends => ⟨⟨hfatal, Bool.eq_false_iff.mpr hthen, Bool.eq_false_iff.mpr hwaits⟩, fun h => htwo (htwice.mpr h), left, rfl, hends⟩
          · rintro ⟨-, -, rest, hrest, hends⟩
            exact Nat.succ.inj hrest ▸ hends

/-- A download over one connection ends well exactly when one of the tries there may be brings the
whole body of the file after tries that were passed over, none of them refused right after another
that was; its `.part` is that body then, whatever it held, and the digest is the `.part`'s. -/
theorem fetchStream_iff (k : Checker H) (o : Options) (a : Asking) (tries : Nat → Try) (part after : List UInt8) (digest : FileDigest) :
    fetchStream k o a tries part = (.ok digest, after) ↔
      ∃ n ≤ a.maxRetries, (∀ i < n, Retried k o a (tries i) ∧ ¬RefusedAgain tries i) ∧
        ∃ body, Brings a (tries n) body ∧ after = plain o.decrypt 0 body ∧ digest = k.hashes.digest (needed o.expected) after := by
  have hnone : (0 = 1) ↔ ∃ m, m + 1 = 0 ∧ Refused (tries m) := by simp
  rw [fetchStream, tryFrom_iff (Nat.zero_le 1) hnone, Ends]
  constructor
  · rintro ⟨n, -, hn, hbefore, hbody⟩
    exact ⟨n, by omega, fun i => hbefore i (Nat.zero_le i), hbody⟩
  · rintro ⟨n, hn, hbefore, hbody⟩
    exact ⟨n, Nat.zero_le n, by omega, fun i _ => hbefore i, hbody⟩

/-- The digest of a download over one connection is its file's. -/
theorem of_stream {part file : List UInt8} (h : fetchStream k o a tries part = (.ok digest, file)) : (Written.digest digest).Of k o file := by
  have hnone : (0 = 1) ↔ ∃ m, m + 1 = 0 ∧ Refused (tries m) := by simp
  obtain ⟨-, -, -, -, -, -, -, hdigest⟩ := (tryFrom_iff (Nat.zero_le 1) hnone).mp h
  exact hdigest

/-- What one connection brings is the whole body of one of the tries; it is kept only if its bytes
pass, and it is if they pass and nothing fails. -/
theorem stream_kept (hwanted : wanted o.expected = .ok c) {part file : List UInt8} (hfile : file.length < 2 ^ 63)
    (hfetch : fetchStream k o a tries part = (.ok digest, file)) (published : Option Text) (state : Option Repair.DownloadState) :
    (∃ n ≤ a.maxRetries, ∃ body, Brings a (tries n) body ∧ file = plain o.decrypt 0 body) ∧
      (∀ fate kept, lastChecks k o fate file published state (.digest digest) = .ok kept →
        Passes k o published file ∧ kept.hash = Storage.hex (k.hashes.blake3 file)) ∧
      (Passes k o published file → ∃ kept, lastChecks k o .good file published state (.digest digest) = .ok kept) := by
  have hnone : (0 = 1) ↔ ∃ m, m + 1 = 0 ∧ Refused (tries m) := by simp
  obtain ⟨n, -, hn, -, body, hbrings, hbody, -⟩ := (tryFrom_iff (Nat.zero_le 1) hnone).mp hfetch
  obtain ⟨honly, hkept⟩ := lastChecks_of hfile hwanted published state (of_stream hfetch)
  refine ⟨⟨n, by omega, body, hbrings, hbody⟩, fun fate kept h => ?_, hkept⟩
  obtain ⟨hpasses, hhash, -⟩ := honly fate kept h
  exact ⟨hpasses, hhash⟩

/-- The first try is cut off, the second brings the file. -/
def abcTries : Nat → Try
  | 0 => ⟨.answered 200 ⟨fun _ => none⟩ [.data [0x61] none, .readError "reset"], none, none, false, false⟩
  | _ => ⟨.answered 200 ⟨fun _ => none⟩ [.data [0x61, 0x62] none, .data [0x63] none], none, none, false, false⟩

def abcAsking : Asking := ⟨some 3, none, 5, 30, "abc.part", fun _ => none, Nat.repr, Nat.repr⟩

theorem stream_kept_abc : ∃ digest kept, fetchStream abcChecker abcAsked abcAsking abcTries [] = (.ok digest, [0x61, 0x62, 0x63]) ∧
    lastChecks abcChecker abcAsked .good [0x61, 0x62, 0x63] none none (.digest digest) = .ok kept := by
  have hfetch : fetchStream abcChecker abcAsked abcAsking abcTries [] =
      (.ok (abcChecker.hashes.digest (needed abcAsked.expected) [0x61, 0x62, 0x63]), [0x61, 0x62, 0x63]) := rfl
  obtain ⟨kept, hkept⟩ := (stream_kept wanted_abc (by decide) hfetch none none).2.2 (passes_abc (by decide +kernel))
  exact ⟨_, kept, hfetch, hkept⟩

end Hyperfetch.Checks
