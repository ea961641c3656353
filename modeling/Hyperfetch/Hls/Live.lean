import Hyperfetch.Text
import Hyperfetch.Weft.TSys
import Mathlib

/-!
# Recording a live stream (`hls.rs`, `stream.rs`)

`HlsEngine::record` in rounds: `LiveSources::listings` leaves ads out of what
each track's manifest lists, the new segments are taken into a batch, and the
answers to its requests come in its order. A recording may be stopped between
any two events, by what the model does not compute: a cancel, the idle timeout,
a full disk, a manifest that cannot be read.

`f64` is a type with the operations the code uses and no laws (`Seconds`), the
patterns of ads a test of links. Beside the code's state each track has what it
took and what became of it, newest first.
-/

namespace Hyperfetch.Live

abbrev Bytes : Type := List UInt8

/-- What the code does with an `f64`. -/
structure Seconds (F : Type) where
  add : F → F → F
  sub : F → F → F
  min : F → F → F
  lt : F → F → Bool
  le : F → F → Bool
  /-- Divided by 2. -/
  half : F → F
  /-- `0.001`. -/
  milli : F
  zero : F
  negInfinity : F
  /-- A whole number of seconds. -/
  ofNat : Nat → F
  clockText : F → Text
  /-- Divided by 60, without decimals. -/
  minutesText : F → Text

inductive LiveStart (F : Type)
  | now
  | oldest
  | ago (secs : F)
  | atTime (time : F)

inductive LiveEnd
  | stream
  | stopped
  | idle
  | time
  | diskFull (free : Nat)
  | failed (why : Text)
  deriving DecidableEq

/-- What `record` is called with, its files by their names. -/
structure Setup (F : Type) where
  clock : Seconds F
  files : List Text
  start : LiveStart F
  recordSeconds : Option Nat
  maxBytes : Option Nat
  isAd : Text → Bool

structure HlsSegment (F I : Type) where
  index : Nat
  sequence : Nat
  url : Text
  durationSecs : F
  init : Option I
  discontinuity : Bool

/-- Segments, each with its date. -/
structure Listing (F I : Type) where
  segments : List (HlsSegment F I × F)
  ended : Bool

variable {F I : Type}

/-! ## Ads -/

/-- What is kept of segments: what follows an ad left out follows a gap. -/
def keepNoAds (isAd : Text → Bool) : Bool → List (HlsSegment F I × F) → List (HlsSegment F I × F)
  | _, [] => []
  | gap, (segment, date) :: rest =>
    if isAd segment.url then keepNoAds isAd true rest
    else ({ segment with discontinuity := gap || segment.discontinuity }, date) :: keepNoAds isAd false rest

def Listing.withoutAds (isAd : Text → Bool) (listing : Listing F I) : Listing F I :=
  { listing with segments := keepNoAds isAd false listing.segments }

def Listing.newest (listing : Listing F I) : Option Nat := listing.segments.getLast?.map (·.1.sequence)

/-! ## Where the recording starts -/

/-- `LIVE_START_SEGMENTS`. -/
def liveStartSegments : Nat := 3

/-- Why the start asked for is refused. -/
def startRefused (clock : Seconds F) (first edge asked : F) : Text :=
  "The live stream keeps only ".toList ++ clock.clockText first ++ " to ".toList ++ clock.clockText edge ++
    " (".toList ++ clock.minutesText (clock.sub edge first) ++ " min): the start asked for, ".toList ++
    clock.clockText asked ++ ", ".toList ++
    (if clock.le edge asked then "is still to come" else "is no longer there").toList

def checkStart (clock : Seconds F) (first edge slack asked : F) : Except Text (Option F) :=
  if clock.lt (clock.add asked slack) first || clock.le edge asked then
    .error (startRefused clock first edge asked)
  else .ok (some asked)

def startFrom (clock : Seconds F) (lead : Listing F I) (start : LiveStart F) : Except Text (Option F) :=
  match lead.segments.head?, lead.segments.getLast? with
  | some (oldest, first), some (last, newest) =>
    let edge := clock.add newest last.durationSecs
    match start with
    | .now => .ok (lead.segments[lead.segments.length - liveStartSegments]?.map (·.2))
    | .oldest => .ok (some clock.negInfinity)
    | .ago secs => checkStart clock first edge oldest.durationSecs (clock.min (clock.sub edge secs) newest)
    | .atTime time => checkStart clock first edge oldest.durationSecs time
  | _, _ => .ok none

/-! ## A track -/

/-- A segment as it was taken into a batch. -/
structure Taken (F I : Type) where
  listed : HlsSegment F I
  date : F
  index : Nat
  /-- `discontinuity` in the batch. -/
  marked : Bool
  /-- The numbers went back since the one taken before it. -/
  restarted : Bool
  /-- Segments left the manifest since the one taken before it. -/
  gap : Bool

/-- A gap or a restart was found since the one taken before it. -/
def Taken.found (x : Taken F I) : Bool := x.restarted || x.gap

/-- As it is in the batch. -/
def Taken.segment (x : Taken F I) : HlsSegment F I :=
  { x.listed with index := x.index, discontinuity := x.marked }

/-- What became of a segment. -/
inductive Fate
  | gone
  /-- Written, after its init section if that was fetched for it. -/
  | written (head : Option Bytes) (data : Bytes)

structure Settled (F I : Type) where
  taken : Taken F I
  fate : Fate

/-- One track's entries of what `record` keeps per track, and its file. The
fields from `restarted` on are of the model: a restart since the last segment
taken, the segments taken, those settled, and the one the write of which failed
with the part of it that was written. -/
structure Track (F I : Type) where
  last : Option Nat := none
  ends : Option F := none
  broken : Bool := false
  init : Option I := none
  taken : Nat := 0
  gone : Nat := 0
  bytes : Nat := 0
  breaks : List Nat := []
  file : Bytes := []
  restarted : Bool := false
  took : List (Taken F I) := []
  done : List (Settled F I) := []
  torn : Option (Taken F I × Bytes) := none

namespace Track

/-- Numbers that went back are a restart. -/
def relist (k : Track F I) (newest : Option Nat) : Track F I :=
  match newest, k.last with
  | some newest, some before =>
    if newest < before then { k with last := none, ends := none, broken := true, restarted := true } else k
  | _, _ => k

/-- Whether `segment` is new, with `start` the start of the recording. -/
def isNew (clock : Seconds F) (start : F) (k : Track F I) (segment : HlsSegment F I) (date : F) : Bool :=
  match k.last with
  | none => clock.lt (clock.add start clock.milli) (clock.add date segment.durationSecs)
  | some last => last < segment.sequence

/-- Whether segments left the manifest before `segment`: not the next number,
and starting well after the last one ended. -/
def followsGap (clock : Seconds F) (k : Track F I) (segment : HlsSegment F I) (date : F) : Bool :=
  match k.last, k.ends with
  | some before, some last =>
    !segment.discontinuity && segment.sequence != before + 1 &&
      clock.lt (clock.add last (clock.half segment.durationSecs)) date
  | _, _ => false

def taking (clock : Seconds F) (k : Track F I) (segment : HlsSegment F I) (date : F) : Taken F I :=
  let gap := k.followsGap clock segment date
  { listed := segment, date, index := k.taken, marked := segment.discontinuity || k.broken || gap
    restarted := k.restarted, gap }

/-- A segment flagged itself leaves `broken` as it is. -/
def take (clock : Seconds F) (k : Track F I) (segment : HlsSegment F I) (date : F) : Track F I :=
  { k with
    last := some segment.sequence
    ends := some (clock.add date segment.durationSecs)
    broken := segment.discontinuity && (k.broken || k.followsGap clock segment date)
    taken := k.taken + 1
    restarted := false
    took := k.taking clock segment date :: k.took }

def lose (k : Track F I) (x : Taken F I) : Track F I :=
  { k with gone := k.gone + 1, done := ⟨x, .gone⟩ :: k.done }

/-- Whether the init section is fetched for `segment`, before its data. -/
def wantsInit [DecidableEq I] (k : Track F I) (segment : HlsSegment F I) : Bool :=
  segment.init != k.init && segment.init.isSome

/-- `breaks`, with where `segment` starts if it is marked and not the first. -/
def breaksWith (k : Track F I) (segment : HlsSegment F I) : List Nat :=
  if segment.discontinuity && 0 < k.bytes then k.breaks ++ [k.bytes] else k.breaks

/-- `data`, with its init section before it. -/
def joined (head : Option Bytes) (data : Bytes) : Bytes := head.getD [] ++ data

def write (k : Track F I) (x : Taken F I) (head : Option Bytes) (data : Bytes) : Track F I :=
  { k with
    gone := 0
    init := x.segment.init
    breaks := k.breaksWith x.segment
    bytes := k.bytes + (joined head data).length
    file := k.file ++ joined head data
    done := ⟨x, .written head data⟩ :: k.done }

/-- A write that failed after `part`. -/
def tear (k : Track F I) (x : Taken F I) (part : Bytes) : Track F I :=
  { k with
    gone := 0
    init := x.segment.init
    breaks := k.breaksWith x.segment
    file := k.file ++ part
    torn := some (x, part) }

end Track

/-! ## A round -/

/-- With `record_seconds`: the seconds the first track took, and when they end. -/
structure Bounds (F : Type) where
  recordedSecs : F
  until_ : Option F

/-- Whether track `t` takes a segment of `date`. -/
def Bounds.isWithin (o : Setup F) (t : Nat) (b : Bounds F) (date : F) : Bool :=
  match t, o.recordSeconds with
  | 0, some limit => o.clock.lt b.recordedSecs (o.clock.ofNat limit)
  | _, _ => b.until_.all (o.clock.lt date)

/-- With `segment` taken by track `t`. -/
def Bounds.count (o : Setup F) (t : Nat) (b : Bounds F) (segment : HlsSegment F I) (date : F) : Bounds F :=
  match t, o.recordSeconds with
  | 0, some limit =>
    let recordedSecs := o.clock.add b.recordedSecs segment.durationSecs
    if o.clock.le (o.clock.ofNat limit) recordedSecs then
      { recordedSecs, until_ := some (o.clock.sub (o.clock.add date segment.durationSecs) o.clock.milli) }
    else { b with recordedSecs }
  | _, _ => b

/-- A segment to fetch, of which track, and whether it is the newest that lists. -/
structure Batched (F I : Type) where
  track : Nat
  taken : Taken F I
  newest : Bool

/-- Between two events: what is left of the batch, and whether every listing of
the round had ended. -/
structure State (F I : Type) where
  from_ : Option F
  bounds : Bounds F
  tracks : Nat → Track F I
  batch : List (Batched F I)
  allEnded : Bool
  ended : Option LiveEnd

/-- One track while its listing is read. -/
structure Reading (F I : Type) where
  bounds : Bounds F
  track : Track F I
  batch : List (Batched F I)

def Reading.take (o : Setup F) (t : Nat) (newest : Option Nat) (r : Reading F I) (entry : HlsSegment F I × F) :
    Reading F I where
  bounds := r.bounds.count o t entry.1 entry.2
  track := r.track.take o.clock entry.1 entry.2
  batch := r.batch ++ [⟨t, r.track.taking o.clock entry.1 entry.2, some entry.1.sequence == newest⟩]

/-- Takes a segment that is new and within the bounds. -/
def Reading.offer (o : Setup F) (start : F) (t : Nat) (newest : Option Nat) (r : Reading F I)
    (entry : HlsSegment F I × F) : Reading F I :=
  if r.track.isNew o.clock start entry.1 entry.2 && r.bounds.isWithin o t entry.2 then r.take o t newest entry
  else r

namespace State

def readTrack (o : Setup F) (start : F) (t : Nat) (listing : Listing F I) (s : State F I) : State F I :=
  let r := listing.segments.foldl (Reading.offer o start t listing.newest)
    ⟨s.bounds, (s.tracks t).relist listing.newest, s.batch⟩
  { s with bounds := r.bounds, tracks := Function.update s.tracks t r.track, batch := r.batch }

/-- The listings of the tracks from `t` on. -/
def readTracks (o : Setup F) (start : F) : Nat → List (Listing F I) → State F I → State F I
  | _, [], s => s
  | t, listing :: rest, s => readTracks o start (t + 1) rest (s.readTrack o start t listing)

def whereFrom (o : Setup F) (s : State F I) (listings : List (Listing F I)) : Except Text (Option F) :=
  match s.from_, listings with
  | none, lead :: _ => startFrom o.clock lead o.start
  | start, _ => .ok start

/-- A round's batch, of what the tracks' manifests list. -/
def round (o : Setup F) (raw : List (Listing F I)) (s : State F I) : State F I :=
  let listings := raw.map (Listing.withoutAds o.isAd)
  match s.whereFrom o listings with
  | .error why => { s with ended := some (.failed why) }
  | .ok none => { s with allEnded := listings.all (·.ended) }
  | .ok (some start) =>
    { readTracks o start 0 listings { s with from_ := some start } with allEnded := listings.all (·.ended) }

/-! ## Answers -/

/-- `MAX_GONE_IN_A_ROW`. -/
def maxGoneInARow : Nat := 10

def setTrack (s : State F I) (t : Nat) (k : Track F I) : State F I :=
  { s with tracks := Function.update s.tracks t k }

/-- The head of the batch, of track `t`, is settled. -/
def settle (s : State F I) (t : Nat) (k : Track F I) : State F I :=
  { s.setTrack t k with batch := s.batch.tail }

/-- Bytes recorded, of all tracks. -/
def total (o : Setup F) (s : State F I) : Nat := ((List.range o.files.length).map fun t => (s.tracks t).bytes).sum

def refusedText (gone : Nat) : Text :=
  "its server refuses the stream's segments (".toList ++ (toString gone).toList ++
    " in a row, the newest it lists among them)".toList

/-- The segment is gone from its server. -/
def lose (s : State F I) (b : Batched F I) : State F I :=
  let k := (s.tracks b.track).lose b.taken
  let s := s.settle b.track k
  if maxGoneInARow ≤ k.gone && b.newest then { s with ended := some (.failed (refusedText k.gone)) } else s

/-- An answer: its data, the init section should that be fetched for it, and how
its write fails, after how many bytes. -/
inductive Reply
  | expired
  | failed (why : Text)
  | body (data : Bytes) (init : Except Text Bytes) (disk : Option (Nat × Text))

/-- The init section to write before the segment, if one is. -/
def headFor [DecidableEq I] (k : Track F I) (segment : HlsSegment F I) (init : Except Text Bytes) :
    Except Text (Option Bytes) :=
  if k.wantsInit segment then init.map some else .ok none

def append (o : Setup F) (s : State F I) (b : Batched F I) (head : Option Bytes) (data : Bytes) :
    Option (Nat × Text) → State F I
  | some (n, why) =>
    let s := s.settle b.track ((s.tracks b.track).tear b.taken ((Track.joined head data).take n))
    let text := "Failed to write ".toList ++ o.files.getD b.track [] ++ ": ".toList ++ why
    { s with ended := some (.failed text) }
  | none =>
    let s := s.settle b.track ((s.tracks b.track).write b.taken head data)
    if o.maxBytes.any (· ≤ s.total o) then { s with ended := some .time } else s

/-- What `window.pop` gives for `b`, the head of the batch. No data is a segment
that is gone. -/
def answer [DecidableEq I] (o : Setup F) (s : State F I) (b : Batched F I) : Reply → State F I
  | .expired => s.lose b
  | .failed why => { s with ended := some (.failed why) }
  | .body [] _ _ => s.lose b
  | .body data init disk =>
    match headFor (s.tracks b.track) b.taken.segment init with
    | .error why =>
      { s.setTrack b.track { s.tracks b.track with gone := 0 } with ended := some (.failed why) }
    | .ok head => s.append o b head data disk

inductive Event (F I : Type)
  | listings (raw : List (Listing F I))
  | answer (reply : Reply)
  | stop (why : LiveEnd)

/-- The next listings are read once the batch is in. -/
def step [DecidableEq I] (o : Setup F) (s : State F I) : Event F I → Option (State F I)
  | .listings raw =>
    if s.ended.isSome || !s.batch.isEmpty then none
    else if s.bounds.until_.isSome then some { s with ended := some .time }
    else if s.allEnded then some { s with ended := some .stream }
    else some (s.round o raw)
  | .answer reply =>
    match s.batch with
    | [] => none
    | b :: _ => if s.ended.isSome then none else some (s.answer o b reply)
  | .stop why => if s.ended.isSome then none else some { s with ended := some why }

end State

/-- With empty files and nothing read. -/
def fresh (o : Setup F) : State F I where
  from_ := none
  bounds := { recordedSecs := o.clock.zero, until_ := none }
  tracks _ := {}
  batch := []
  allEnded := false
  ended := none

/-- The recordings `o` asks for; none where a file is there already. -/
def recordings [DecidableEq I] (o : Setup F) : Weft.Machine (State F I) (State.Event F I) where
  init s := s = fresh o ∨ ∃ file ∈ o.files, ∃ e : Text,
    s = { fresh o with ended := some (.failed ("Failed to create ".toList ++ file ++ ": ".toList ++ e)) }
  step := State.step o

end Hyperfetch.Live
