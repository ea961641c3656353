import Hyperfetch.Subs.Cue
import Hyperfetch.Torrent.Bencode
import Hyperfetch.Weft.Fields

/-!
# WebVTT (`parse_vtt`, `to_vtt`)

The cues of a WebVTT file, and a WebVTT file of cues. The loops of
`clean_vtt_text` and `escape_vtt` take characters off the front of what is
left, so a text's length bounds their turns.
-/

namespace Hyperfetch.Subs

open Weft

/-! ## Times -/

/-- `split_once` at the first character `p` holds of. -/
def splitAt (p : Char → Bool) (text : Text) : Option (Text × Text) :=
  match text.dropWhile (!p ·) with
  | [] => none
  | _ :: back => some (text.takeWhile (!p ·), back)

/-- One to nine ASCII digits. -/
def digits (s : Text) : Bool := s ≠ [] && s.length ≤ 9 && s.all Char.isDigit

/-- Milliseconds of a WebVTT time (`01:02:03.456` or `02:03.456`). -/
def vttTime (time : Text) : Option Nat := do
  let (clock, fraction) ← splitAt (fun c => c = '.' || c = ',') (trim time)
  if !digits fraction then none
  else
    let fraction := fraction.take 3
    let millis := decimalValue fraction * 10 ^ (3 - fraction.length)
    let parts := clock.splitOn ':'
    if !(2 ≤ parts.length && parts.length ≤ 3) || !parts.all digits then none
    else
      let seconds := parts.foldl (fun total n => total * 60 + decimalValue n) 0
      some (seconds * 1000 + millis)

/-- `split_once("-->")`. -/
def splitArrow : Text → Option (Text × Text)
  | '-' :: '-' :: '>' :: rest => some ([], rest)
  | c :: rest => (splitArrow rest).map fun p => (c :: p.1, p.2)
  | [] => none

/-- `split_whitespace().next()`. -/
def firstWord (text : Text) : Option Text :=
  match (text.dropWhile isWhite).takeWhile (!isWhite ·) with
  | [] => none
  | word => some word

/-- Start and end of a cue's timing line. -/
def vttTiming (line : Text) : Option (Nat × Nat) := do
  let (from_, rest) ← splitArrow line
  let start ← vttTime from_
  let word ← firstWord rest
  let end_ ← vttTime word
  some (start, end_)

/-- The values of an `X-TIMESTAMP-MAP` so far, after one more part. -/
def mapPart (found : Option Nat × Option Nat) (part : Text) : Option (Option Nat × Option Nat) := do
  let (key, value) ← splitOnce ':' (trim part)
  if key = "MPEGTS".toList then
    let ticks := (Torrent.parseI64 (trim value)).filter fun t => 0 ≤ t && t < 2 ^ 33
    some (ticks.map Int.toNat, found.2)
  else if key = "LOCAL".toList then some (found.1, vttTime value)
  else some found

/-- Where cue time 0 plays on the media's clock. -/
def timestampMap (map : Text) : Option Int := do
  let (mpegts, local_) ← (map.splitOn ',').foldlM mapPart (none, none)
  let ticks ← mpegts
  let offset ← local_
  some ((ticks + 45 : Nat) / 90 - (offset : Int))

/-! ## Cue text -/

def names : List (Text × Char) :=
  [("amp".toList, '&'), ("lt".toList, '<'), ("gt".toList, '>'), ("quot".toList, '"'), ("apos".toList, '\''),
    ("nbsp".toList, '\u00a0'), ("lrm".toList, '\u200e'), ("rlm".toList, '\u200f')]

def hexDigit (c : Char) : Option Nat :=
  if '0' ≤ c ∧ c ≤ '9' then some (c.toNat - 48)
  else if 'a' ≤ c ∧ c ≤ 'f' then some (c.toNat - 87)
  else if 'A' ≤ c ∧ c ≤ 'F' then some (c.toNat - 55)
  else none

/-- `u32::from_str_radix(_, 16)` of what follows a sign or none. -/
def hexValue (text : Text) : Option Nat :=
  if text = [] then none
  else (text.foldlM (fun n c => (hexDigit c).map (16 * n + ·)) 0).filter (· < 2 ^ 32)

def unsigned : Text → Text
  | '+' :: rest => rest
  | text => text

/-- `char::from_u32`. -/
def charOf (code : Nat) : Option Char := if code.isValidChar then some (Char.ofNat code) else none

/-- The character an HTML character reference names. -/
def entity (name : Text) : Option Char :=
  match names.find? (·.1 = name) with
  | some (_, c) => some c
  | none =>
    match name with
    | '#' :: 'x' :: hex | '#' :: 'X' :: hex => (hexValue (unsigned hex)).bind charOf
    | '#' :: number => (readDecimal (2 ^ 32 - 1) (unsigned number)).bind charOf
    | _ => none

/-- The tag of a `<..>` with its classes dropped, nothing for those left out. -/
def keptTag (tag : Text) : Text :=
  let (slash, name) : Text × Text := match tag with
    | '/' :: name => (['/'], name)
    | name => ([], name)
  let name := name.takeWhile fun c => c ≠ '.' && c ≠ ' ' && c ≠ '\t'
  if name = ['i'] ∨ name = ['b'] ∨ name = ['u'] then '<' :: (slash ++ name ++ ['>']) else []

/-- The character a reference names and what is behind it, `rest` being behind
the `&`. -/
def reference (rest : Text) : Option (Char × Text) := do
  let (name, after) ← splitOnce ';' rest
  if 10 < byteLen name then none
  else
    let c ← entity name
    some (c, after)

def cleanFrom : Nat → Text → Text
  | 0, _ => []
  | _ + 1, [] => []
  | turns + 1, c :: rest =>
    if c = '<' then
      match splitOnce '>' rest with
      | some (tag, after) => keptTag tag ++ cleanFrom turns after
      | none => '<' :: cleanFrom turns rest
    else if c = '&' then
      match reference rest with
      | some (named, after) => named :: cleanFrom turns after
      | none => '&' :: cleanFrom turns rest
    else c :: cleanFrom turns rest

/-- Cue text with its tags and character references read. -/
def cleanVttText (text : Text) : Text := cleanFrom text.length text

/-! ## Reading -/

/-- `.replace("\r\n", "\n")`. -/
def replaceCrLf : Text → Text
  | '\r' :: '\n' :: rest => '\n' :: replaceCrLf rest
  | c :: rest => c :: replaceCrLf rest
  | [] => []

/-- `.replace('\r', "\n")`. -/
def replaceCr (text : Text) : Text := text.map fun c => if c = '\r' then '\n' else c

def blank (line : Text) : Bool := trim line = []

/-- The runs of lines that are not blank. -/
def blocks (all : List Text) : List (List Text) := (all.splitOnP blank).filter (· ≠ [])

/-- `k`, alone or with white space behind it. -/
def isKind (k first : Text) : Bool :=
  k.isPrefixOf first && (first.drop k.length).head?.all isWhite

/-- A note, a style or a region. -/
def isAside (first : Text) : Bool :=
  isKind "NOTE".toList first || isKind "STYLE".toList first || isKind "REGION".toList first

/-- A block's timing, and the lines of text behind it. An identifier may come
before it. -/
def timed (block : List Text) : Option (Nat × Nat × List Text) := do
  let first ← block.head?
  if isAside (trim first) then none
  else
    let at_ ← (block.take 2).findIdx? fun l => (splitArrow l).isSome
    let line ← block[at_]?
    let (start, end_) ← vttTiming line
    some (start, end_, block.drop (at_ + 1))

def cueOf (offset : Int) (block : List Text) : Option Cue := do
  let (start, end_, rest) ← timed block
  cue (start + offset) (end_ + offset) (cleanVttText (joinLines rest))

/-- The offset a file's first block gives, if it is its header. -/
def headerOffset (block : List Text) : Option Int :=
  let map := "X-TIMESTAMP-MAP=".toList
  if block.head?.any fun first => "WEBVTT".toList.isPrefixOf (trim first) then
    let found := block.findSome? fun l => if map.isPrefixOf (trim l) then some ((trim l).drop map.length) else none
    some ((found.bind timestampMap).getD 0)
  else none

/-- The blocks of a file that may be cues, and what to add to their times. -/
def body (text : Text) : Int × List (List Text) :=
  let text := replaceCr (replaceCrLf (text.dropWhile (· = '\ufeff')))
  match blocks (lines '\n' text) with
  | [] => (0, [])
  | first :: rest =>
    match headerOffset first with
    | some offset => (offset, rest)
    | none => (0, first :: rest)

def parseVtt (text : Text) : List Cue := (body text).2.filterMap (cueOf (body text).1)

/-! ## Writing -/

/-- `HH:MM:SS<sep>mmm`. -/
def stamp (ms : Nat) (sep : Char) : Text :=
  padded 2 (ms / 3600000) ++ ':' :: (padded 2 (ms / 60000 % 60) ++ ':' :: (padded 2 (ms / 1000 % 60) ++
    sep :: padded 3 (ms % 1000)))

def tags : List Text :=
  ["<i>".toList, "</i>".toList, "<b>".toList, "</b>".toList, "<u>".toList, "</u>".toList]

def escapeChar (c : Char) : Text :=
  if c = '&' then "&amp;".toList else if c = '<' then "&lt;".toList else if c = '>' then "&gt;".toList else [c]

def escapeFrom : Nat → Text → Text
  | 0, _ => []
  | _ + 1, [] => []
  | turns + 1, c :: rest =>
    match tags.find? (·.isPrefixOf (c :: rest)) with
    | some tag => tag ++ escapeFrom turns ((c :: rest).drop tag.length)
    | none => escapeChar c ++ escapeFrom turns rest

/-- Cue text with `&`, `<` and `>` escaped except in its tags. -/
def escapeVtt (text : Text) : Text := escapeFrom text.length text

/-- The cues that have text, with that text tidied. -/
def shown (cues : List Cue) : List (Cue × Text) := (cues.map fun c => (c, tidy c.text)).filter (·.2 ≠ [])

def vttBlock (c : Cue) (text : Text) : Text :=
  '\n' :: (stamp c.start '.' ++ " --> ".toList ++ stamp c.end_ '.' ++ '\n' :: (escapeVtt text ++ ['\n']))

def toVtt (cues : List Cue) : Text := "WEBVTT\n".toList ++ (shown cues).flatMap fun p => vttBlock p.1 p.2

end Hyperfetch.Subs
