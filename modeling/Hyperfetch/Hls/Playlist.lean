import Hyperfetch.Hls.Live
import Hyperfetch.Hls.Segments
import Hyperfetch.Weft.Text
import Hyperfetch.Weft.Words

/-!
# A media playlist (`walk_media_playlist`)

The walk reads the lines one after the other into registers, and each line that is a
link takes a segment from them. It asks for a key where it comes to one (`Keys`): how
these are come by, and what is known of them afterwards, is the other half of its state.

Parameters: the links, as the url crate joins them to the playlist's own, and `f64`
with what it is read from (`Times`). Left out: that the walk lets other tasks run.
-/

namespace Hyperfetch.Hls.Playlist

open Weft Vod

/-- What the walk does with times and lengths. -/
structure Times (F : Type) extends Live.Seconds F where
  /-- `parse::<f64>`. -/
  parse : Text → Option F
  /-- `epoch_seconds`. -/
  epochSeconds : Text → Option F
  isFinite : F → Bool
  infinity : F
  /-- `2.0`. -/
  two : F

inductive HlsError
  | unavailable (reason : String)
  | noSegments
  | unsupported (reason : String)
  | live
  deriving DecidableEq

/-- A fault inside a real playlist. -/
def malformed (reason : String) : HlsError := .unsupported ("malformed playlist: " ++ reason)

/-! ## Attributes -/

def trimStart (text : Text) : Text := text.dropWhile isWhite

/-- What is before the first `sep`, and what is after it or nothing. -/
def cutAt (sep : Char) (text : Text) : Text × Text := (splitOnce sep text).getD (text, [])

/-- A value, quoted or up to the next comma, and what is left. -/
def attributeValue : Text → Text × Text
  | '"' :: quoted => cutAt '"' quoted
  | rest => (rest.takeWhile (· != ','), rest.dropWhile (· != ','))

/-- The pairs of an attribute list, of which the later ones win. -/
def attributesFrom : Nat → Text → List (Text × Text)
  | 0, _ => []
  | fuel + 1, rest =>
    match splitOnce '=' rest with
    | none => []
    | some (name, rest) =>
      let (value, rest) := attributeValue rest
      let rest := trimStart rest
      (trim name, trim value) :: attributesFrom fuel (trimStart ((rest.dropPrefix? [',']).getD rest))

structure Attributes where
  pairs : List (Text × Text)

/-- Splits an attribute list into name/value pairs. -/
def parseAttributes (list : Text) : Attributes := ⟨attributesFrom list.length (trim list)⟩

def Attributes.get (attrs : Attributes) (name : String) : Option Text := attrs.pairs.reverse.lookup name.toList

example : (parseAttributes "METHOD=AES-128, URI=\"a,b\" ,IV=0x1".toList).get "URI" = some "a,b".toList := by decide

/-! ## Values -/

theorem valid_of_fromLen {start len : Nat} {range : ByteRange} (h : ByteRange.fromLen start len = .ok range) : range.Valid := by
  unfold ByteRange.fromLen at h
  split_ifs at h
  obtain rfl := Except.ok.inj h
  exact ⟨Nat.le_add_right _ _, by dsimp only; omega⟩

def byteRange (start len : Nat) : Option Bytes :=
  match h : ByteRange.fromLen start len with
  | .ok range => some ⟨range, valid_of_fromLen h⟩
  | .error _ => none

/-- `<length>[@<offset>]`; without an offset the range continues from `nextStart`. -/
def parseByteRange (spec : Text) (nextStart : Nat) : Except HlsError Bytes :=
  let (len, offset) := match splitOnce '@' spec with
    | some (len, offset) => (len, parseU64 (trim offset))
    | none => (spec, some nextStart)
  okOr (malformed ("invalid byte range '" ++ String.ofList spec ++ "'")) do
    let start ← offset
    let len ← parseU64 (trim len)
    byteRange start len

def hexDigit (c : Char) : Option Nat :=
  if c.isDigit then some (c.toNat - '0'.toNat)
  else if 'a' ≤ c ∧ c ≤ 'f' then some (c.toNat - 'a'.toNat + 10)
  else if 'A' ≤ c ∧ c ≤ 'F' then some (c.toNat - 'A'.toNat + 10)
  else none

/-- `u128::from_str_radix(digits, 16)`, of 32 digits at most. -/
def parseHex : Text → Option Nat
  | '+' :: digits => hexValue digits
  | digits => hexValue digits
where
  hexValue : Text → Option Nat
    | [] => none
    | digits => (digits.mapM hexDigit).map (Nat.ofDigits 16 ·.reverse)

def beBytes (width n : Nat) : List UInt8 := (leBytes width n).reverse

def parseIv (hex : Text) : Option (List UInt8) := do
  let digits ← match hex with
    | '0' :: 'x' :: digits => some digits
    | '0' :: 'X' :: digits => some digits
    | _ => none
  if digits.length = 32 then (parseHex digits).map (beBytes 16) else none

/-- Whether the key starts AES-128 encryption with a key anyone can fetch, or ends encryption.
DRM and other methods are refused. -/
def clearKey (attrs : Attributes) : Except HlsError Bool :=
  let method := attrs.get "METHOD"
  if method = some "NONE".toList then .ok false
  else if (attrs.get "KEYFORMAT").any (· != "identity".toList) then
    .error (.unsupported "DRM-protected stream (non-identity KEYFORMAT)")
  else if method = some "AES-128".toList then .ok true
  else
    .error (.unsupported ("encryption method " ++ (method.map String.ofList).getD "<missing>" ++ " is not supported (only AES-128)"))

variable {F : Type} (times : Times F)

def namesAnAd (class_ : Text) : Bool :=
  (class_.splitOnP fun c => !c.isAlphanum).any fun w => eqIgnoreAsciiCase w "ad".toList || eqIgnoreAsciiCase w "ads".toList

/-- When an ad its `#EXT-X-DATERANGE` tag marks plays. -/
def adWindow (attrs : Attributes) : Option (F × F) := do
  let start ← (attrs.get "START-DATE").bind times.epochSeconds
  let length := (attrs.get "DURATION" <|> attrs.get "PLANNED-DURATION").bind times.parse
  let stop ← length.map (times.add start) <|> (attrs.get "END-DATE").bind times.epochSeconds
  some (start, stop)

/-- Seconds left of an ad break, by what its tag says after its name. -/
def breakLeft (spec : Text) : F :=
  let spec := trim (match spec with
    | ':' :: spec => spec
    | _ => [])
  let number := fun s : Text => times.parse (trim s)
  let attr := fun name : String =>
    ((parseAttributes spec).pairs.reverse.find? (eqIgnoreAsciiCase ·.1 name.toList)).bind (number ·.2)
  let (played, duration) := match splitOnce '/' spec with
    | some (played, duration) =>
      if spec.contains '=' then (attr "ElapsedTime", number spec <|> attr "DURATION") else (number played, number duration)
    | none => (attr "ElapsedTime", number spec <|> attr "DURATION")
  match duration.filter fun d => times.isFinite d && times.lt times.zero d with
  | some d => times.sub d (played.getD times.zero)
  | none => times.infinity

/-! ## The lines -/

/-- What a line is to the walk. -/
inductive Line
  | extInf (info : Text)
  | discontinuity
  | cueOutCont (spec : Text)
  | cueOut (spec : Text)
  | cueIn
  | programDateTime (date : Text)
  | mediaSequence (seq : Text)
  | byteRange (spec : Text)
  | key (list : Text)
  | map (list : Text)
  | comment
  | uri (text : Text)
  deriving DecidableEq

/-- `strip_prefix`. -/
def after (tag : String) (line : Text) : Option Text := line.dropPrefix? tag.toList

/-- A line without the white space around it. -/
def readLine (line : Text) : Line :=
  match after "#EXTINF:" line with
  | some info => .extInf info
  | none =>
  if line = "#EXT-X-DISCONTINUITY".toList then .discontinuity
  else
  match after "#EXT-X-CUE-OUT" line with
  | some cue => match after "-CONT" cue with
    | some cont => .cueOutCont cont
    | none => .cueOut cue
  | none =>
  if (after "#EXT-X-CUE-IN" line).isSome then .cueIn
  else
  match after "#EXT-X-PROGRAM-DATE-TIME:" line, after "#EXT-X-MEDIA-SEQUENCE:" line, after "#EXT-X-BYTERANGE:" line,
    after "#EXT-X-KEY:" line, after "#EXT-X-MAP:" line with
  | some date, _, _, _, _ => .programDateTime date
  | none, some seq, _, _, _ => .mediaSequence seq
  | none, none, some spec, _, _ => .byteRange spec
  | none, none, none, some list, _ => .key list
  | none, none, none, none, some list => .map list
  | none, none, none, none, none => if line.head? = some '#' then .comment else .uri line

/-- The lines of a playlist, the empty ones left out. -/
def readLines (text : Text) : List Line := (((lines '\n' text).map trim).filter (· ≠ [])).map readLine

def adWindows (text : Text) : List (F × F) :=
  ((((lines '\n' text).map trim).filterMap (after "#EXT-X-DATERANGE:")).map parseAttributes).filterMap fun attrs =>
    if (attrs.get "CLASS").any namesAnAd then adWindow times attrs else none

/-! ## Keys -/

/-- How the walk comes by a key, and what it keeps of them. -/
structure Keys (K : Type) where
  get : Url → K → Except String (List UInt8) × K

/-- The playlist's own link, and what its links are joined to it. -/
abbrev Join : Type := Text → Except String Url

def joined (join : Join) (uri : Text) : Except HlsError Url :=
  match join uri with
  | .ok url => .ok url
  | .error e => .error (malformed ("invalid URL '" ++ String.ofList uri ++ "': " ++ e))

/-- The link of a key that is to be fetched, none where encryption ends. -/
def keyUrl (join : Join) (attrs : Attributes) : Except HlsError (Option Url) := do
  if ← clearKey attrs then
    let uri ← okOr (malformed "#EXT-X-KEY without URI") (attrs.get "URI")
    some <$> joined join uri
  else .ok none

/-- The keys named before, with the one this line names. -/
def nameKey (join : Join) (seen : List Url) (list : Text) : List Url :=
  match keyUrl join (parseAttributes list) with
  | .ok (some url) => if seen.contains url then seen else seen ++ [url]
  | _ => seen

/-- The URLs of the AES-128 keys the playlist names, each once, in its order. -/
def keyUrls (join : Join) (text : Text) : List Url :=
  (((lines '\n' text).map trim).filterMap (after "#EXT-X-KEY:")).foldl (nameKey join) []

/-! ## The walk -/

/-- Key currently in force. -/
structure ActiveKey where
  key : List UInt8
  iv : Option (List UInt8)
  deriving DecidableEq

/-- A segment, how long it is and when it starts. -/
structure Listed (F : Type) where
  segment : HlsSegment
  durationSecs : F
  date : Option F

/-- What the walk has read. -/
structure Walk (F : Type) where
  segments : List (Listed F) := []
  mediaSequence : Nat := 0
  /-- Segments listed so far, ads included. -/
  listed : Nat := 0
  duration : F
  byteRange : Option Bytes := none
  nextRangeStart : Nat := 0
  key : Option ActiveKey := none
  init : Option InitSection := none
  discontinuity : Bool := false
  /-- The seconds left of an ad break. -/
  adLeft : Option F := none
  /-- When the next segment starts. -/
  clock : Option F := none

/-- `MAX_SEGMENTS`. -/
def maxSegments : Nat := 1000000

/-- `EXTINF`'s length, `2.0` without one. -/
def extInfDuration (info : Text) : F := (times.parse (trim (info.takeWhile (· != ',')))).getD times.two

def readIv (attrs : Attributes) : Except HlsError (Option (List UInt8)) :=
  match attrs.get "IV" with
  | none => .ok none
  | some iv => some <$> okOr (malformed ("invalid IV '" ++ String.ofList iv ++ "'")) (parseIv iv)

def readMap (join : Join) (key : Option ActiveKey) (attrs : Attributes) : Except HlsError InitSection := do
  let uri ← okOr (malformed "#EXT-X-MAP without URI") (attrs.get "URI")
  let encryption ← match key with
    | none => .ok none
    | some ⟨key, some iv⟩ => .ok (some ⟨key, iv⟩)
    | some ⟨_, none⟩ => .error (malformed "encrypted #EXT-X-MAP requires an explicit IV")
  let url ← joined join uri
  let byteRange ← match attrs.get "BYTERANGE" with
    | none => .ok none
    | some range => some <$> parseByteRange range 0
  .ok ⟨url, byteRange, encryption⟩

/-- What is left of the ad break at a segment, the segment taken off. -/
def Walk.breakAt (w : Walk F) : Option F :=
  (w.adLeft.filter fun left => !times.lt left (times.half w.duration)).map (times.sub · w.duration)

/-- The segment is an ad, by its break or its date range. -/
def Walk.isAd (ads : List (F × F)) (w : Walk F) : Bool :=
  (w.breakAt times).isSome ||
    w.clock.any fun starts =>
      let middle := times.add starts (times.half w.duration)
      ads.any fun ad => times.le ad.1 middle && times.lt middle ad.2

/-- The registers after a segment. -/
def Walk.passed (w : Walk F) : Walk F :=
  { w with listed := w.listed + 1, clock := w.clock.map (times.add · w.duration), adLeft := w.breakAt times, byteRange := none }

def Walk.sequence (w : Walk F) : Nat := saturatingAdd w.mediaSequence w.listed

/-- A link: a segment, unless it is an ad. -/
def Walk.uri (join : Join) (ads : List (F × F)) (text : Text) (w : Walk F) : Except HlsError (Walk F) :=
  if w.segments.length = maxSegments then
    .error (.unsupported ("playlist has more than " ++ toString maxSegments ++ " segments"))
  else if w.isAd times ads then .ok { w.passed times with discontinuity := true }
  else do
    let url ← joined join text
    let segment : HlsSegment := {
      index := w.segments.length
      sequence := w.sequence
      url := url
      byteRange := w.byteRange
      encryption := w.key.map fun k => ⟨k.key, k.iv.getD (beBytes 16 w.sequence)⟩
      init := w.init
      discontinuity := w.discontinuity }
    .ok { w.passed times with segments := w.segments ++ [⟨segment, w.duration, w.clock⟩], discontinuity := false }

/-- Any line but a key's. -/
def Walk.line (join : Join) (ads : List (F × F)) (w : Walk F) : Line → Except HlsError (Walk F)
  | .extInf info => .ok { w with duration := extInfDuration times info }
  | .discontinuity => .ok { w with discontinuity := true }
  | .cueOutCont spec => .ok { w with adLeft := w.adLeft <|> some (breakLeft times spec) }
  | .cueOut spec => .ok { w with adLeft := some (breakLeft times spec) }
  | .cueIn => .ok { w with adLeft := none }
  | .programDateTime date => .ok { w with clock := times.epochSeconds date }
  | .mediaSequence seq => do
    let mediaSequence ← okOr (malformed ("invalid media sequence '" ++ String.ofList seq ++ "'")) (parseU64 (trim seq))
    .ok { w with mediaSequence := mediaSequence }
  | .byteRange spec => do
    let range ← parseByteRange spec w.nextRangeStart
    .ok { w with byteRange := some range, nextRangeStart := saturatingAdd range.1.end_ 1 }
  | .map list => do
    let init ← readMap join w.key (parseAttributes list)
    .ok { w with init := some init }
  | .uri text => w.uri times join ads text
  | .key _ | .comment => .ok w

variable {K : Type} (keys : Keys K)

/-- A key, which is asked for. -/
def Walk.keyLine (join : Join) (list : Text) (w : Walk F) (k : K) : Except HlsError (Walk F) × K :=
  let attrs := parseAttributes list
  match keyUrl join attrs with
  | .error e => (.error e, k)
  | .ok none => (.ok { w with key := none }, k)
  | .ok (some url) =>
    match keys.get url k with
    | (.error e, k) => (.error (.unavailable e), k)
    | (.ok key, k) => ((readIv attrs).map fun iv => { w with key := some ⟨key, iv⟩ }, k)

def Walk.step (join : Join) (ads : List (F × F)) (w : Walk F) (k : K) : Line → Except HlsError (Walk F) × K
  | .key list => w.keyLine keys join list k
  | line => (w.line times join ads line, k)

def walkLines (join : Join) (ads : List (F × F)) : List Line → Walk F → K → Except HlsError (Walk F) × K
  | [], w, k => (.ok w, k)
  | line :: rest, w, k =>
    match w.step times keys join ads k line with
    | (.error e, k) => (.error e, k)
    | (.ok w, k) => walkLines join ads rest w k

def Walk.start : Walk F := { duration := times.two }

/-- The segments the media playlist lists, ads left out, with when each starts. -/
def walkMediaPlaylist (join : Join) (text : Text) (k : K) : Except HlsError (List (Listed F)) × K :=
  let (walked, k) := walkLines times keys join (adWindows times text) (readLines text) (Walk.start times) k
  (walked.map (·.segments), k)

/-! ## A listing of a live stream -/

/-- When the segments start where the newest ends at `stop`, the newest first. -/
def countBack (stop : F) : List (Listed F) → List F
  | [] => []
  | s :: older => times.sub stop s.durationSecs :: countBack (times.sub stop s.durationSecs) older

/-- When the segments start: without the dates of all, the newest is taken to end `now`. -/
def datesOf (now : F) (listed : List (Listed F)) : List F :=
  (listed.mapM Listed.date).getD (countBack times now listed.reverse).reverse

def Listed.live (l : Listed F) : Live.HlsSegment F InitSection where
  index := l.segment.index
  sequence := l.segment.sequence
  url := l.segment.url.text
  durationSecs := l.durationSecs
  init := l.segment.init
  discontinuity := l.segment.discontinuity

/-- `live_playlist`: the segments after the one numbered `last`. -/
def livePlaylist (join : Join) (text : Text) (now : F) (last : Option Nat) (k : K) :
    Except HlsError (Live.Listing F InitSection) × K :=
  let (walked, k) := walkMediaPlaylist times keys join text k
  (walked.map fun listed =>
    { segments := ((listed.zip (datesOf times now listed)).filter fun e => last.all (· < e.1.segment.sequence)).map fun e => (e.1.live, e.2)
      ended := ((lines '\n' text).map trim).contains "#EXT-X-ENDLIST".toList }, k)

/-! ## The two ways -/

/-- The keys known, and one not known is fetched where it is asked for. -/
def plainKeys (fetch : Url → Except String (List UInt8)) : Keys (Url → Option (List UInt8)) where
  get url known :=
    match known url with
    | some key => (.ok key, known)
    | none =>
      match fetch url with
      | .ok key => (.ok key, Function.update known url (some key))
      | .error e => (.error e, known)

/-- Keys fetched ahead. -/
structure Ahead where
  cache : Url → Option (Except String (List UInt8))
  /-- The fetches to come, in the order they end in. -/
  coming : List (Url × Except String (List UInt8))
  known : Url → Option (List UInt8)
  /-- Those fetched where they were asked for. -/
  late : List Url := []

/-- Waits for a key: the fetches that end before are kept. -/
def waitFor (fetch : Url → Except String (List UInt8)) (url : Url) :
    List (Url × Except String (List UInt8)) → Ahead → Except String (List UInt8) × Ahead
  | coming, a =>
    match a.cache url with
    | some key => (key, { a with coming := coming })
    | none =>
      match coming with
      | (other, key) :: rest => waitFor fetch url rest { a with cache := Function.update a.cache other (some key) }
      | [] => (fetch url, { a with cache := Function.update a.cache url (some (fetch url)), coming := [], late := a.late ++ [url] })

def aheadKeys (fetch : Url → Except String (List UInt8)) : Keys Ahead where
  get url a :=
    match waitFor fetch url a.coming a with
    | (.ok key, a) => (.ok key, { a with known := Function.update a.known url (some key) })
    | (.error e, a) => (.error e, a)

/-- A walk's keys as it starts: `coming` the others' in the order their fetches end. -/
def Ahead.start (known : Url → Option (List UInt8)) (coming : List (Url × Except String (List UInt8))) : Ahead where
  cache url := (known url).map .ok
  coming := coming
  known := known

/-- `parse_media_playlist`. -/
def parseMediaPlaylist (join : Join) (text : Text) (k : K) : Except HlsError (List (Listed F)) :=
  let trimmed := (lines '\n' text).map trim
  if !trimmed.any fun l => l == "#EXT-X-ENDLIST".toList || l == "#EXT-X-PLAYLIST-TYPE:VOD".toList then
    match (trimmed.filterMap (after "#EXT-X-KEY:")).findSome? fun list => match clearKey (parseAttributes list) with
      | .error e => some e
      | .ok _ => none with
    | some e => .error e
    | none => .error .live
  else
    match (walkMediaPlaylist times keys join text k).1 with
    | .error e => .error e
    | .ok [] => .error .noSegments
    | .ok segments => .ok segments

/-! ## A playlist of two keys -/

/-- Whole seconds. -/
def ticks : Times Nat where
  add := (· + ·)
  sub := (· - ·)
  min := min
  lt a b := decide (a < b)
  le a b := decide (a ≤ b)
  half := (· / 2)
  milli := 0
  zero := 0
  negInfinity := 0
  ofNat := id
  clockText := Nat.toDigits 10
  minutesText n := Nat.toDigits 10 (n / 60)
  parse := parseU64
  epochSeconds := parseU64
  isFinite _ := true
  infinity := 1000000
  two := 2

def bare : Join := fun uri =>
  if h : '\n' ∈ uri then .error "a line break" else .ok ⟨uri, h⟩

def twoKeys : Text :=
  "#EXTM3U\n#EXT-X-MEDIA-SEQUENCE:7\n#EXT-X-KEY:METHOD=AES-128,URI=\"k\"\n#EXTINF:4,\na\n#EXT-X-KEY:METHOD=AES-128,URI=\"l\"\nb\n".toList

/-- The keys are their links. -/
def theKey (url : Url) : Except String (List UInt8) := .ok (url.text.map fun c => UInt8.ofNat c.toNat)

end Hyperfetch.Hls.Playlist
