import Hyperfetch.Subs.Boxes
import Hyperfetch.Subs.Vtt
import Hyperfetch.Weft.Utf8

/-!
# Subtitles in an MP4 (`parse_mp4`)

The samples of a subtitle track's fragments, each read once and paid for with
its size. Every index, slice and sum of the source is checked here. `ttml` is
what a TTML document says, its XML and times read: its texts with begin and end
in ms, and how many images it has.
-/

namespace Hyperfetch.Subs

open Weft Weft.Checked Weft.Utf8

/-! ## The track -/

structure SubtitleTrack where
  id : Nat
  timescale : Nat
  wvtt : Bool
  duration : Nat
  size : Nat
  deriving DecidableEq, Repr

/-- A number of a `tkhd` or an `mdhd`, farther back in version 1. -/
def versioned (head : List UInt8) : Option Nat := do
  let version ← head.head?
  be head (if version = 1 then 20 else 12) 4

/-- A subtitle track's id, its timescale and whether it is `wvtt`. -/
def trackOf (trak : List UInt8) : OptionT (Checked Text) (Nat × Nat × Bool) := do
  let tkhd ← child trak "tkhd"
  let id ← ask (versioned tkhd)
  let mdia ← child trak "mdia"
  let mdhd ← child mdia "mdhd"
  let timescale ← ask (versioned mdhd)
  let minf ← child mdia "minf"
  let stbl ← child minf "stbl"
  let stsd ← child stbl "stsd"
  let entries ← ask (getSlice stsd 8 stsd.length)
  let all ← boxes entries
  let entry ← ask all.head?
  let wvtt ← ask (if entry.kind = kindOf "wvtt" then some true else if entry.kind = kindOf "stpp" then some false else none)
  ask (if 0 < timescale then some (id, timescale, wvtt) else none)

/-- The first of the boxes that is one. -/
def firstTrack (moov : List UInt8) : List Box → Checked Text (Option (Nat × Nat × Bool))
  | [] => .ok none
  | box :: more => do
    let trak ← slice moov box.first box.stop
    match ← (trackOf trak).run with
    | some track => .ok (some track)
    | none => firstTrack moov more

/-- The `trex` of a track. -/
def trexOf (mvex : List UInt8) (id : Nat) : List Box → Checked Text (Option (List UInt8))
  | [] => .ok none
  | box :: more => do
    let trex ← slice mvex box.first box.stop
    if box.kind = kindOf "trex" ∧ be trex 4 4 = some id then .ok (some trex) else trexOf mvex id more

def defaultsOf (moov : List UInt8) (id : Nat) : Checked Text (Option (List UInt8)) := do
  match ← (child moov "mvex").run with
  | none => .ok none
  | some mvex => do
    let all ← boxes mvex
    trexOf mvex id all

def SubtitleTrack.read (data : List UInt8) : OptionT (Checked Text) SubtitleTrack := do
  let moov ← child data "moov"
  let all ← boxes moov
  let (id, timescale, wvtt) ← OptionT.mk (firstTrack moov (all.filter (·.kind = kindOf "trak")))
  let defaults ← OptionT.lift (defaultsOf moov id)
  let default (at_ : Nat) : Nat := (defaults.bind (be · at_ 4)).getD 0
  pure { id, timescale, wvtt, duration := default 12, size := default 16 }

/-! ## Times -/

/-- A number of `i128`. -/
def i128 (n : Int) : Checked Text Int := if -2 ^ 127 ≤ n ∧ n < 2 ^ 127 then .ok n else fault

/-- A number brought into `i64`. -/
def clampI64 (n : Int) : Int := max (-2 ^ 63) (min n (2 ^ 63 - 1))

/-- `as u32 as i32`. -/
def signed (n : Nat) : Int := if n < 2 ^ 31 then n else n - 2 ^ 32

/-- Milliseconds of `ticks`, rounded and never below 0. -/
def ticksMs (ticks : Int) (timescale : Nat) : Checked Text Int := do
  let scaled ← i128 (ticks * 1000)
  let rounded ← i128 (scaled + (timescale / 2 : Nat))
  if timescale = 0 then fault else .ok (max 0 (min (rounded.tdiv timescale) (2 ^ 63 - 1)))

/-! ## Samples -/

/-- The texts of a TTML document, each with its begin and end in ms, and how
many images it has, if it can be read. -/
abbrev Ttml : Type := Text → Option (List (Int × Option Int × Text) × Nat)

/-- The cue of each `vttc` box of a `wvtt` sample. -/
def wvttFrom (sample : List UInt8) (from_ to_ : Int) : List Box → Checked Text (List Cue)
  | [] => .ok []
  | box :: more => do
    let vttc ← slice sample box.first box.stop
    let payl ← (child vttc "payl").run
    let cues ← wvttFrom sample from_ to_ more
    .ok ((payl.bind fun text => cue from_ to_ (cleanVttText (lossy text))).toList ++ cues)

def wvttCues (sample : List UInt8) (from_ to_ : Int) : Checked Text (List Cue) := do
  let all ← boxes sample
  wvttFrom sample from_ to_ (all.filter (·.kind = kindOf "vttc"))

/-- How long the texts show inside a sample when moved by `shift`. -/
def inside (spans : List (Int × Option Int × Text)) (from_ to_ shift : Int) : Int :=
  spans.foldl (fun total (start, stop, _) =>
    let stop := min (stop.elim to_ fun e => clampI64 (e + shift)) to_
    let start := max (clampI64 (start + shift)) from_
    clampI64 (total + max (clampI64 (stop - start)) 0)) 0

/-- The cues of an `stpp` sample, and how many images it has. -/
def stppCues (ttml : Ttml) (sample : List UInt8) (from_ to_ : Int) : Checked Text (List Cue × Nat) := do
  let document ← slice sample 0 (sample.rdropWhile (· = 0)).length
  match ttml (lossy document) with
  | none => .ok ([], 0)
  | some (spans, images) =>
    let shift := if inside spans from_ to_ 0 ≤ inside spans from_ to_ from_ then from_ else 0
    .ok (spans.filterMap fun (start, stop, text) =>
      cue (clampI64 (start + shift)) (stop.elim to_ fun e => clampI64 (e + shift)) text, images)

/-! ## Fragments -/

/-- What is read so far. `read` are the samples, by where they are in the data,
of which the source keeps no record. -/
structure Walk where
  cursor : Option Nat
  time : Nat
  nextTime : Nat
  budget : Nat
  cues : List Cue
  images : Nat
  read : List (Nat × Nat)

/-- What a `tfhd` says of its fragment. -/
structure Fragment where
  base : Nat
  duration : Nat
  size : Nat

/-- A field of a `trun` if its flag is set, and where the next one is. -/
def field (trun : List UInt8) (flags bit at_ : Nat) : OptionT (Checked Text) (Option Nat × Nat) := do
  if flags &&& bit = 0 then pure (none, at_)
  else do
    let value ← ask (be trun at_ 4)
    let next ← (add at_ 4 : Checked Text Nat)
    pure (some value, next)

/-- A field of a `tfhd`, and where the next one is. -/
def optional (tfhd : List UInt8) (on : Bool) (len at_ : Nat) : Checked Text (Option Nat × Nat) := do
  let next ← add at_ (if on then len else 0)
  .ok (if on then be tfhd at_ len else none, next)

/-- `checked_add`. -/
def checkedAdd (a b : Nat) : Option Nat := if a + b ≤ wordMax then some (a + b) else none

/-- `checked_add_signed`. -/
def checkedAddSigned (a : Nat) (b : Int) : Option Nat :=
  if 0 ≤ a + b ∧ a + b ≤ wordMax then some (a + b).toNat else none

/-- `checked_sub`. -/
def checkedSub (a b : Nat) : Option Nat := if b ≤ a then some (a - b) else none

/-- A `trun`'s data offset moves the cursor. Its fields go on where that one ends. -/
def withOffset (fragment : Fragment) (s : Walk) : Option (Option Nat × Nat) → Walk × Nat
  | some (some offset, at_) => ({ s with cursor := checkedAddSigned fragment.base (signed offset) }, at_)
  | some (none, at_) => (s, at_)
  | none => (s, 8)

section Read

variable (ttml : Ttml) (data : List UInt8) (track : SubtitleTrack)

/-- One turn of the loop over a `trun`'s samples, nothing where it breaks off. -/
def readSample (fragment : Fragment) (trun : List UInt8) (version flags : Nat) (s : Walk) (at_ : Nat) :
    OptionT (Checked Text) (Walk × Nat) := do
  let (duration, at_) ← field trun flags 0x100 at_
  let (size, at_) ← field trun flags 0x200 at_
  let (_, at_) ← field trun flags 0x400 at_
  let (offset, at_) ← field trun flags 0x800 at_
  let duration := duration.getD fragment.duration
  let pos ← ask s.cursor
  let stop ← ask (checkedAdd pos (size.getD fragment.size))
  let sample ← ask (getSlice data pos stop)
  let left ← ask (checkedSub s.budget (max sample.length 1))
  let offset : Int := offset.elim 0 fun o => if version = 0 then o else signed o
  let ticks ← i128 (s.time + offset)
  let from_ ← ticksMs ticks track.timescale
  let ends ← i128 (ticks + duration)
  let to_ ← ticksMs ends track.timescale
  let (cues, images) ← (do
    if track.wvtt then do
      let cues ← wvttCues sample from_ to_
      .ok (cues, 0)
    else stppCues ttml sample from_ to_ : Checked Text (List Cue × Nat))
  pure ({ s with
    cursor := some stop
    budget := left
    cues := s.cues ++ cues
    images := s.images + images
    time := min (s.time + duration) wordMax
    read := s.read ++ [(pos, stop)] }, at_)

def readSamples (fragment : Fragment) (trun : List UInt8) (version flags : Nat) : Nat → Walk → Nat → Checked Text Walk
  | 0, s, _ => .ok s
  | count + 1, s, at_ => do
    match ← (readSample ttml data track fragment trun version flags s at_).run with
    | none => .ok s
    | some (s, at_) => readSamples fragment trun version flags count s at_

def readTrun (fragment : Fragment) (s : Walk) (trun : List UInt8) : Checked Text Walk :=
  match trun.head?, be trun 1 3, be trun 4 4 with
  | some version, some flags, some count => do
    let dataOffset ← (field trun flags 0x1 8).run
    let (s, at_) := withOffset fragment s dataOffset
    let firstFlags ← (field trun flags 0x4 at_).run
    let at_ := firstFlags.elim at_ Prod.snd
    readSamples ttml data track fragment trun version.toNat flags count s at_
  | _, _, _ => .ok s

def readTruns (fragment : Fragment) (traf : List UInt8) : Walk → List Box → Checked Text Walk
  | s, [] => .ok s
  | s, box :: more => do
    let trun ← slice traf box.first box.stop
    let s ← readTrun ttml data track fragment s trun
    readTruns fragment traf s more

/-- A `tfhd`'s values; `start` is where its `moof` starts. -/
def fragmentOf (tfhd : List UInt8) (flags start : Nat) : Checked Text Fragment := do
  let (base, at_) ← optional tfhd (flags &&& 0x1 ≠ 0) 8 8
  let (_, at_) ← optional tfhd (flags &&& 0x2 ≠ 0) 4 at_
  let (duration, at_) ← optional tfhd (flags &&& 0x8 ≠ 0) 4 at_
  let (size, _) ← optional tfhd (flags &&& 0x10 ≠ 0) 4 at_
  .ok { base := base.getD start, duration := duration.getD track.duration, size := size.getD track.size }

/-- A `tfdt`'s time. -/
def decodeTime (tfdt : List UInt8) : Option Nat := if tfdt.head? = some 1 then be tfdt 4 8 else be tfdt 4 4

def readTraf (start : Nat) (s : Walk) (traf : List UInt8) : Checked Text Walk := do
  match ← (child traf "tfhd").run with
  | none => .ok s
  | some tfhd =>
    match be tfhd 1 3 with
    | none => .ok s
    | some flags =>
      if be tfhd 4 4 ≠ some track.id then .ok s
      else do
        let fragment ← fragmentOf track tfhd flags start
        let tfdt ← (child traf "tfdt").run
        let all ← boxes traf
        let s ← readTruns ttml data track fragment traf { s with time := (tfdt.bind decodeTime).getD s.nextTime }
          (all.filter (·.kind = kindOf "trun"))
        .ok { s with nextTime := s.time }

def readTrafs (start : Nat) (moof : List UInt8) : Walk → List Box → Checked Text Walk
  | s, [] => .ok s
  | s, box :: more => do
    let traf ← slice moof box.first box.stop
    let s ← readTraf ttml data track start s traf
    readTrafs start moof s more

/-- The boxes at the top: each `moof`, with the `mdat` behind it. -/
def readTop : Walk → List Box → Checked Text Walk
  | s, [] => .ok s
  | s, box :: more => do
    if box.kind ≠ kindOf "moof" then readTop s more
    else do
      let moof ← slice data box.first box.stop
      let all ← boxes moof
      let s ← readTrafs ttml data track box.start moof
        { s with cursor := (more.find? (·.kind = kindOf "mdat")).map Box.first } (all.filter (·.kind = kindOf "traf"))
      readTop s more

end Read

/-- Nothing read, with as much to spend as there is data. -/
def Walk.begin_ (data : List UInt8) : Walk :=
  { cursor := none, time := 0, nextTime := 0, budget := data.length, cues := [], images := 0, read := [] }

def walkMp4 (ttml : Ttml) (data : List UInt8) : Checked Text Walk := do
  match ← (SubtitleTrack.read data).run with
  | none => fail "no stpp or wvtt subtitle track in the MP4 file".toList
  | some track => do
    let top ← boxes data
    readTop ttml data track (.begin_ data) top

def parseMp4 (ttml : Ttml) (data : List UInt8) : Checked Text (List Cue × Nat) := do
  let s ← walkMp4 ttml data
  .ok (s.cues, s.images)

end Hyperfetch.Subs
