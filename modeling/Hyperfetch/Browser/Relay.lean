import Hyperfetch.Browser.File
import Mathlib.Tactic

/-!
# A recording on its way to the app (`bridge.js`, `background.js`, `recording.rs`)

What a page's document appends to a buffer, slice by slice: through the
bridge's queue, where each is encoded and sent, the messages on their way, the
background's queue for the recording, where each is decoded and posted, to the
app's files. All of it is under one key, which the next document in the frame
uses again. `Relay.step` is one step of any of these; which of the steps that
are waited for fail comes with the events.

The background's closings that no message of the page asks for
(`finishTabRecordings`, the timer of `REC_STOP`) may come at any moment. Left
out: the check of `REC_STOP` that it closes the recording it saw, "Record
playback" and browser downloads, a reload of the extension, the titles and the
numbers the popup shows.
-/

namespace Hyperfetch

namespace Browser

structure Slice where
  track : Nat
  part : Nat
  data : List UInt8
  deriving DecidableEq, Repr

/-- The slices `relay` cuts a buffer into. -/
def slices (track part : Nat) (buf : List UInt8) : List Slice :=
  if buf = [] then [] else ⟨track, part, buf.take sliceSize⟩ :: slices track part (buf.drop sliceSize)
termination_by buf.length
decreasing_by
  rename_i hne
  have := List.length_pos_iff.mpr hne
  simp only [List.length_drop, sliceSize]
  omega

/-- The bytes of one part of a track. -/
def partBytes (track part : Nat) (ss : List Slice) : List UInt8 :=
  (ss.filter fun s => s.track = track ∧ s.part = part).flatMap Slice.data

/-- The parts of a track together are the page's bytes. -/
theorem slices_data (track part : Nat) (buf : List UInt8) : (slices track part buf).flatMap Slice.data = buf := by
  induction buf using slices.induct with
  | case1 => simp [slices]
  | case2 buf hne ih => rw [slices, if_neg hne, List.flatMap_cons, ih, List.take_append_drop]

/-! ## The app -/

/-- The most the app takes for one recording. -/
def maxBytes : Nat := 32 * 1024 * 1024 * 1024

/-- A recording of less is not kept. -/
def minBytes : Nat := 64 * 1024

structure AppRecording where
  /-- The document it is of; the app does not know. -/
  doc : Nat
  open_ : Bool
  bytes : Nat
  files : Nat → Nat → List UInt8

namespace AppRecording

def start (doc : Nat) : AppRecording := ⟨doc, true, 0, fun _ _ => []⟩

def write (r : AppRecording) (track part : Nat) (data : List UInt8) : AppRecording :=
  { r with files := fun t p => if t = track ∧ p = part then r.files t p ++ data else r.files t p }

/-- `append`, and whether it succeeds; where the disk fails, only so many
bytes came to the file. -/
def append (r : AppRecording) (slice : Slice) (disk : Option Nat) : AppRecording × Bool :=
  if !r.open_ then (r, false)
  else if r.bytes + slice.data.length > maxBytes then (r, false)
  else
    match disk with
    | none => ({ r.write slice.track slice.part slice.data with bytes := r.bytes + slice.data.length }, true)
    | some n => (r.write slice.track slice.part (slice.data.take n), false)

def abort (r : AppRecording) : AppRecording := { r with open_ := false, files := fun _ _ => [] }

def finish (r : AppRecording) : AppRecording :=
  if r.bytes < minBytes then r.abort else { r with open_ := false }

end AppRecording

/-! ## The bridge and the background -/

/-- What waits in the bridge's queue. -/
inductive Queued
  | slice (slice : Slice)
  | end_

inductive Message
  | active (doc : Nat)
  | chunk (doc : Nat) (slice : Slice)
  | end_ (doc : Nat)

/-- What waits in the background's queue: a chunk, or the close of the
recording, asked for by the page's `REC_END` or by something else. -/
inductive Task
  | chunk (doc : Nat) (slice : Slice)
  | finish (page : Option Nat)

/-- The background's recording under the key. -/
structure Rec where
  doc : Nat
  appId : Option Nat
  bytes : Nat

structure Relay where
  /-- The document in the frame. -/
  doc : Nat
  /-- It had its `pagehide`. -/
  hidden : Bool
  /-- The hook ended the stream. -/
  ended : Bool
  /-- The stream is among `openMs`. -/
  isOpen : Bool
  /-- What each document appended. -/
  appended : Nat → List Slice
  queue : List Queued
  channel : List Message
  /-- The document that may record (`capture` of the frame). -/
  armed : Option Nat
  tasks : List Task
  rec_ : Option Rec
  app : Nat → AppRecording
  /-- How many recordings the app opened. -/
  next : Nat

/-- Which of the steps of a task that are waited for succeed. -/
structure Fate where
  /-- The close of an earlier document's recording is saved. -/
  closeSaved : Bool
  /-- The tab's state is read. -/
  tabRead : Bool
  /-- `/record/start` is answered with an id. -/
  started : Bool
  startSaved : Bool
  decoded : Bool
  /-- The chunk reaches the app. -/
  reached : Bool
  disk : Option Nat
  answered : Bool
  /-- The app is told to finish, or to abort. -/
  told : Bool

namespace Relay

def closeRecording (s : Relay) (told : Bool) : Relay :=
  match s.rec_ with
  | some ⟨_, some id, _⟩ =>
    { s with
      rec_ := none
      app := if told then Function.update s.app id (s.app id).finish else s.app }
  | _ => { s with rec_ := none }

/-- Posts a chunk; with one that is lost the recording ends, with what reached
the app saved, or deleted when that is not even the start. -/
def post (s : Relay) (r : Rec) (id : Nat) (slice : Slice) (fate : Fate) : Relay :=
  let result := if fate.reached then (s.app id).append slice fate.disk else (s.app id, false)
  if result.2 && fate.answered then
    { s with
      app := Function.update s.app id result.1
      rec_ := some { r with bytes := r.bytes + slice.data.length } }
  else
    let ended := if r.bytes > 0 then result.1.finish else result.1.abort
    { s with
      app := Function.update s.app id (if fate.told then ended else result.1)
      rec_ := some { r with appId := none } }

/-- Decodes a chunk and posts it, if the recording did not lose one. -/
def deliver (s : Relay) (slice : Slice) (fate : Fate) : Relay :=
  match s.rec_ with
  | some ⟨doc, some id, bytes⟩ => if fate.decoded then s.post ⟨doc, some id, bytes⟩ id slice fate else s
  | _ => s

/-- The first chunk of a recording starts it, if the document may record. -/
def begin_ (s : Relay) (doc : Nat) (slice : Slice) (fate : Fate) : Relay :=
  if fate.tabRead = true ∧ s.armed = some doc then
    let s' := if fate.started then
        { s with
          rec_ := some ⟨doc, some s.next, 0⟩
          app := Function.update s.app s.next (.start doc)
          next := s.next + 1 }
      else { s with rec_ := some ⟨doc, none, 0⟩ }
    if fate.startSaved then s'.deliver slice fate else s'
  else s

def onRecChunk (s : Relay) (doc : Nat) (slice : Slice) (fate : Fate) : Relay :=
  match s.rec_ with
  | some r =>
    if r.doc = doc then s.deliver slice fate
    else
      -- a reload starts the key again: the earlier document's recording is complete
      let closed := s.closeRecording (fate.closeSaved && fate.told)
      if fate.closeSaved then closed.begin_ doc slice fate else closed
  | none => s.begin_ doc slice fate

inductive Event
  /-- The document appends a buffer. -/
  | append (track part : Nat) (buf : List UInt8)
  | endStream
  /-- The first in the bridge's queue takes its turn; `encoded` is what
  `toBase64` comes to. -/
  | turn (encoded : Bool)
  | pagehide
  /-- The next document starts, its hook capturing or not. -/
  | load (capturing : Bool)
  /-- The first message arrives; `armed` is whether the tab was armed when a
  document says it records. -/
  | arrive (armed : Bool)
  | lose
  | disarm
  /-- Something else than the page asks for the recording's end. -/
  | askFinish
  | run (fate : Fate)

def step (s : Relay) : Event → Option Relay
  | .append track part buf =>
    if !s.hidden && !s.ended && !buf.isEmpty then
      some { s with
        appended := Function.update s.appended s.doc (s.appended s.doc ++ slices track part buf)
        queue := s.queue ++ (slices track part buf).map .slice
        isOpen := true }
    else none
  | .endStream =>
    if !s.hidden && !s.ended then
      some { s with
        ended := true
        queue := if (s.appended s.doc).isEmpty then s.queue else s.queue ++ [.end_] }
    else none
  | .turn encoded =>
    match s.queue with
    | .slice slice :: rest =>
      -- a slice that cannot be encoded is passed over
      some { s with
        queue := rest
        channel := if encoded && s.isOpen then s.channel ++ [.chunk s.doc slice] else s.channel }
    | .end_ :: rest =>
      some { s with
        queue := rest
        isOpen := false
        channel := if s.isOpen then s.channel ++ [.end_ s.doc] else s.channel }
    | [] => none
  | .pagehide =>
    if !s.hidden then
      some { s with
        hidden := true
        isOpen := false
        queue := []
        channel := if s.isOpen then s.channel ++ [.end_ s.doc] else s.channel }
    else none
  | .load capturing =>
    some { s with
      doc := s.doc + 1
      hidden := false
      ended := false
      isOpen := false
      queue := []
      channel := if capturing then s.channel ++ [.active (s.doc + 1)] else s.channel }
  | .arrive armed =>
    match s.channel with
    | .active doc :: rest => some { s with channel := rest, armed := if armed then some doc else s.armed }
    | .chunk doc slice :: rest => some { s with channel := rest, tasks := s.tasks ++ [.chunk doc slice] }
    | .end_ doc :: rest => some { s with channel := rest, tasks := s.tasks ++ [.finish (some doc)] }
    | [] => none
  | .lose =>
    match s.channel with
    | _ :: rest => some { s with channel := rest }
    | [] => none
  | .disarm => some { s with armed := none }
  | .askFinish => some { s with tasks := s.tasks ++ [.finish none] }
  | .run fate =>
    match s.tasks with
    | .chunk doc slice :: rest => some (onRecChunk { s with tasks := rest } doc slice fate)
    | .finish _ :: rest => some (closeRecording { s with tasks := rest } fate.told)
    | [] => none

/-- Before the first document. -/
def start : Relay where
  doc := 0
  hidden := true
  ended := false
  isOpen := false
  appended _ := []
  queue := []
  channel := []
  armed := none
  tasks := []
  rec_ := none
  app _ := .start 0
  next := 0

end Relay

def relays : Weft.Machine Relay Relay.Event where
  init s := s = .start
  step := Relay.step

/-- The files hold the first slices of the document, and at most a piece of
the next one. -/
def NoHole (appended : List Slice) (r : AppRecording) : Prop :=
  ∃ m ≤ appended.length, ∀ track part,
    partBytes track part (appended.take m) <+: r.files track part ∧
      r.files track part <+: partBytes track part (appended.take (m + 1))

end Browser

end Hyperfetch
