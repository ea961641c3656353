import Hyperfetch.Text
import Hyperfetch.Weft.Recent
import Hyperfetch.Weft.Text
import Mathlib.Data.List.MinMax
import Mathlib.Data.Prod.Lex

/-!
# Choosing a stream's tracks (`stream.rs`)

What the video and the audio spec say, term by term, and how `choose` picks the tracks: the
video first, then the audio tracks that pair with it.
-/

namespace Hyperfetch.Stream

open Weft

inductive Format where
  | hls
  | dash
deriving DecidableEq

inductive Kind where
  | video
  | audio
  | subtitles
deriving DecidableEq

/-- `kind as u8`. -/
def Kind.place : Kind → ℕ
  | .video => 0
  | .audio => 1
  | .subtitles => 2

inductive DynamicRange where
  | sdr
  | hdr10
  | hlg
  | dolbyVision
deriving DecidableEq

inductive Role where
  | main
  | alternate
  | commentary
  | dub
  | description
  | caption
  | subtitle
  | forced
deriving DecidableEq

/-- Codec families. -/
inductive Family where
  | avc | hevc | av1 | vp9 | vp8
  | aac | mp3 | ac3 | eac3 | ac4 | opus | flac | alac | dts | vorbis
deriving DecidableEq

/-- What is done with frame rates, which are floats. -/
structure Rates where
  F : Type
  /-- A text that reads as a finite rate above 0. -/
  parse : Text → Option F
  /-- `rate <= max + 0.01`. -/
  within : F → F → Bool

structure Track (R : Rates) where
  id : Text
  kind : Kind
  codecs : Text
  height : Option ℕ
  frameRate : Option R.F
  bandwidth : Option ℕ
  range : DynamicRange
  channels : Option ℕ
  /-- A BCP 47 tag. -/
  language : Option Text
  role : Role
  isDefault : Bool
  /-- HLS: the group of a rendition, and the audio group a variant plays with. -/
  group : Option Text

structure StreamInfo (R : Rates) where
  format : Format
  tracks : List (Track R)

/-- A track and its position. -/
abbrev Placed (R : Rates) : Type := Track R × ℕ

structure TrackChoice where
  video : Text
  audio : Text
  ids : List Text

/-- Why no tracks are chosen; what the stream has is told with it. -/
inductive ChooseError (R : Rates) where
  | noTrack (id : Text) (has : List (Track R))
  | unknownVideo (term : Text)
  | unknownAudio (term : Text)
  | noVideo (text : Text) (has : List (Track R))
  | noAudio (text : Text) (has : List (Track R))
  | noLanguage (lang text : Text) (has : List (Track R))

/-! ## Codecs and languages -/

def videoCodecs : List Family := [.avc, .hevc, .av1, .vp9, .vp8]

def audioCodecs : List Family := [.aac, .mp3, .ac3, .eac3, .ac4, .opus, .flac, .alac, .dts, .vorbis]

/-- Codec names by what stands before their first dot. -/
def familyNames : List (Text × Family) :=
  [("avc1", .avc), ("avc3", .avc), ("dva1", .avc), ("dvav", .avc), ("hvc1", .hevc), ("hev1", .hevc), ("dvh1", .hevc), ("dvhe", .hevc),
    ("av01", .av1), ("dav1", .av1), ("vp09", .vp9), ("vp9", .vp9), ("vp08", .vp8), ("vp8", .vp8), ("mp4a", .aac), ("mp3", .mp3),
    ("ac-3", .ac3), ("ac3", .ac3), ("ec-3", .eac3), ("ec3", .eac3), ("eac3", .eac3), ("ac-4", .ac4), ("opus", .opus), ("flac", .flac),
    ("alac", .alac), ("vorbis", .vorbis)].map fun p => (p.1.toList, p.2)

/-- The codec family of one codec of a `CODECS` list. -/
def family (codec : Text) : Option Family :=
  let codec := (trim codec).map Char.toLower
  let fourcc := codec.takeWhile (· != '.')
  -- MPEG-1/2 layer 3 inside MP4
  if fourcc = "mp4a".toList ∧ ("mp4a.69".toList.isPrefixOf codec ∨ "mp4a.6b".toList.isPrefixOf codec) then some .mp3
  else
    match familyNames.find? fun p => p.1 = fourcc with
    | some p => some p.2
    | none => if "dts".toList.isPrefixOf fourcc then some .dts else none

def families (codecs : Text) : List Family := (codecs.splitOn ',').filterMap family

def videoFamily (codecs : Text) : Option Family := (families codecs).find? videoCodecs.contains

def audioFamily (codecs : Text) : Option Family := (families codecs).find? audioCodecs.contains

/-- ISO 639-1 codes and the ISO 639-2 ones. -/
def languages : List (Text × Text) :=
  [("ar", "ara"), ("bg", "bul"), ("bn", "ben"), ("ca", "cat"), ("cs", "ces"), ("cy", "cym"), ("da", "dan"),
    ("de", "deu"), ("el", "ell"), ("en", "eng"), ("es", "spa"), ("et", "est"), ("eu", "eus"), ("fa", "fas"),
    ("fi", "fin"), ("fr", "fra"), ("ga", "gle"), ("gl", "glg"), ("gu", "guj"), ("he", "heb"), ("hi", "hin"),
    ("hr", "hrv"), ("hu", "hun"), ("id", "ind"), ("is", "isl"), ("it", "ita"), ("ja", "jpn"), ("kn", "kan"),
    ("ko", "kor"), ("lt", "lit"), ("lv", "lav"), ("ml", "mal"), ("mr", "mar"), ("ms", "msa"), ("nb", "nob"),
    ("nl", "nld"), ("no", "nor"), ("pa", "pan"), ("pl", "pol"), ("pt", "por"), ("ro", "ron"), ("ru", "rus"),
    ("sk", "slk"), ("sl", "slv"), ("sr", "srp"), ("sv", "swe"), ("ta", "tam"), ("te", "tel"), ("th", "tha"),
    ("tr", "tur"), ("uk", "ukr"), ("vi", "vie"), ("zh", "zho")].map fun p => (p.1.toList, p.2.toList)

/-- The ISO 639-2 code of a BCP 47 tag. -/
def mp4Language (tag : Text) : Text :=
  let primary := (tag.takeWhile fun c => !(c == '-' || c == '_')).map Char.toLower
  if primary.length = 3 ∧ primary.all Char.isLower then primary
  else ((languages.find? fun p => p.1 = primary).map Prod.snd).getD "und".toList

def lowerTag (tag : Text) : Text := ((trim tag).map Char.toLower).map fun c => if c = '_' then '-' else c

/-- Whether the track language `lang` is the language `asked` for. -/
def sameLanguage (asked lang : Text) : Bool :=
  let asked := lowerTag asked
  let lang := lowerTag lang
  if '-' ∈ asked then lang = asked || (asked ++ ['-']).isPrefixOf lang
  else
    let primary := lang.takeWhile (· != '-')
    primary = asked || (mp4Language asked != "und".toList && mp4Language asked == mp4Language primary)

/-! ## Specs -/

/-- The terms of a spec. -/
def terms (text : Text) : List Text := ((text.splitOn ',').map trim).filter fun t => !t.isEmpty

/-- `str::parse::<u32>`. -/
def parseU32 : Text → Option ℕ
  | '+' :: digits => readDecimal (2 ^ 32 - 1) digits
  | digits => readDecimal (2 ^ 32 - 1) digits

inductive RangeName where
  | sdr
  | hdr
  | dv
deriving DecidableEq

def RangeName.covers : RangeName → DynamicRange → Bool
  | .sdr, range => range = .sdr
  | .hdr, range => range = .hdr10 || range = .hlg
  | .dv, range => range = .dolbyVision

section

variable (R : Rates)

inductive VideoTerm where
  | best
  | worst
  | none
  | codec (family : Family)
  | range (name : RangeName)
  | fps (max : R.F)
  | lines (max : ℕ)

structure VideoSpec where
  none : Bool
  worst : Bool
  maxHeight : Option ℕ
  codec : Option Family
  range : Option RangeName
  maxFps : Option R.F

variable {R}

def VideoSpec.default : VideoSpec R :=
  { none := false, worst := false, maxHeight := Option.none, codec := Option.none, range := Option.none, maxFps := Option.none }

/-- Terms that are words, in lower case. -/
def videoWords : List (Text × VideoTerm R) :=
  [("best", .best), ("worst", .worst), ("none", .none), ("avc", .codec .avc), ("h264", .codec .avc), ("hevc", .codec .hevc),
    ("h265", .codec .hevc), ("av1", .codec .av1), ("vp9", .codec .vp9), ("sdr", .range .sdr), ("hdr", .range .hdr),
    ("dv", .range .dv)].map fun p => (p.1.toList, p.2)

/-- What a term says, if it is one. -/
def readVideoTerm (term : Text) : Option (VideoTerm R) :=
  let lower := term.map Char.toLower
  match videoWords.find? fun p => p.1 = lower with
  | some p => some p.2
  | none =>
    match ("fps".toList.isSuffixOf? lower).bind R.parse with
    | some fps => some (.fps fps)
    | none => ((("p".toList.isSuffixOf? lower).bind parseU32).filter (0 < ·)).map .lines

def VideoSpec.apply (spec : VideoSpec R) : VideoTerm R → VideoSpec R
  | .best => spec
  | .worst => { spec with worst := true }
  | .none => { spec with none := true }
  | .codec family => { spec with codec := some family }
  | .range name => { spec with range := some name }
  | .fps max => { spec with maxFps := some max }
  | .lines max => { spec with maxHeight := some max }

/-- `VideoSpec::parse`: a later term of a kind takes the place of an earlier one. -/
def VideoSpec.parse (text : Text) : Except (ChooseError R) (VideoSpec R) :=
  (terms text).foldlM (fun spec term => (okOr (ChooseError.unknownVideo term) (readVideoTerm term)).map spec.apply) VideoSpec.default

/-- `o.is_none_or`. -/
def noneOr {α : Type} (o : Option α) (p : α → Bool) : Bool := (o.map p).getD true

def VideoSpec.fits (spec : VideoSpec R) (track : Track R) : Bool :=
  noneOr spec.maxHeight (fun max => noneOr track.height (· ≤ max)) && noneOr spec.codec (fun codec => videoFamily track.codecs = some codec) &&
    noneOr spec.range (·.covers track.range) && noneOr spec.maxFps (fun max => noneOr track.frameRate (R.within · max))

end

inductive AudioTerm where
  | best
  | all
  | none
  | codec (family : Family)
  | channels (min : ℕ)
  | language (tag : Text)

structure AudioSpec where
  none : Bool
  all : Bool
  languages : List Text
  codec : Option Family
  minChannels : Option ℕ

def AudioSpec.default : AudioSpec :=
  { none := false, all := false, languages := [], codec := Option.none, minChannels := Option.none }

/-- Whether `tag` reads as a BCP 47 language tag. -/
def isLanguage (tag : Text) : Bool :=
  match tag.splitOnP fun c => c == '-' || c == '_' with
  | [] => false
  | primary :: parts =>
    2 ≤ primary.length && primary.length ≤ 3 && primary.all Char.isAlpha &&
      parts.all fun p => 1 ≤ p.length && p.length ≤ 8 && p.all Char.isAlphanum

def audioWords : List (Text × AudioTerm) :=
  [("best", .best), ("all", .all), ("none", .none), ("aac", .codec .aac), ("ac3", .codec .ac3), ("eac3", .codec .eac3),
    ("opus", .codec .opus), ("flac", .codec .flac)].map fun p => (p.1.toList, p.2)

def readAudioTerm (term : Text) : Option AudioTerm :=
  let lower := term.map Char.toLower
  match audioWords.find? fun p => p.1 = lower with
  | some p => some p.2
  | none =>
    match (("ch".toList.isSuffixOf? lower).bind parseU32).filter (0 < ·) with
    | some n => some (.channels n)
    | none => if isLanguage term then some (.language term) else none

def AudioSpec.apply (spec : AudioSpec) : AudioTerm → AudioSpec
  | .best => spec
  | .all => { spec with all := true }
  | .none => { spec with none := true }
  | .codec family => { spec with codec := some family }
  | .channels min => { spec with minChannels := some min }
  | .language tag => { spec with languages := spec.languages ++ [tag] }

section

variable {R : Rates}

/-- `AudioSpec::parse`. -/
def AudioSpec.parse (text : Text) : Except (ChooseError R) AudioSpec :=
  (terms text).foldlM (fun spec term => (okOr (ChooseError.unknownAudio term) (readAudioTerm term)).map spec.apply) AudioSpec.default

def AudioSpec.fits (spec : AudioSpec) (track : Track R) : Bool :=
  noneOr spec.codec (fun codec => (families track.codecs).contains codec) &&
    noneOr spec.minChannels (fun min => track.channels.any (min ≤ ·))

/-! ## Choosing -/

/-- Of tracks in their order, `max_by_key`: the last of the highest. -/
def highest {κ : Type} [LinearOrder κ] (rank : Placed R → κ) (pool : List (Placed R)) : Option (Placed R) := pool.reverse.argmax rank

/-- `min_by_key`: the first of the lowest. -/
def lowest {κ : Type} [LinearOrder κ] (rank : Placed R → κ) (pool : List (Placed R)) : Option (Placed R) := pool.argmin rank

def videoRank (v : Placed R) : ℕ ×ₗ ℕ := toLex (v.1.height.getD 0, v.1.bandwidth.getD 0)

def audioRank (a : Placed R) : Bool ×ₗ ℕ ×ₗ ℕ ×ₗ Bool :=
  toLex (!(a.1.role = .commentary || a.1.role = .description), toLex (a.1.bandwidth.getD 0, toLex (a.1.channels.getD 0, a.1.isDefault)))

namespace StreamInfo

variable (info : StreamInfo R)

def placed : List (Placed R) := info.tracks.zipIdx

def videos : List (Placed R) := info.placed.filter fun v => v.1.kind = .video

/-- A video that plays with audio, or may. -/
def audible (v : Track R) : Bool :=
  info.format = .dash || v.codecs.isEmpty || (audioFamily v.codecs).isSome ||
    info.tracks.any fun a => a.kind = .audio && a.group.isSome && a.group = v.group

/-- Those that play with audio, if there are any. -/
def videoPool (fits : List (Placed R)) : List (Placed R) :=
  let heard := fits.filter fun v => info.audible v.1
  if heard.isEmpty then fits else heard

def pickVideo (spec : VideoSpec R) (text : Text) : Except (ChooseError R) (Option (Placed R)) :=
  if spec.none || info.videos.isEmpty then .ok none
  else
    let fits := info.videos.filter fun v => spec.fits v.1
    if fits.isEmpty then .error (.noVideo text (info.videos.map Prod.fst))
    else .ok (if spec.worst then lowest videoRank (info.videoPool fits) else highest videoRank (info.videoPool fits))

/-- An HLS variant plays with the renditions of its own audio group only. -/
def pairs (video : Option (Track R)) (a : Track R) : Bool :=
  match info.format, video with
  | .hls, some v => a.group.isSome && a.group = v.group
  | _, _ => true

def audios (video : Option (Track R)) : List (Placed R) := info.placed.filter fun a => a.1.kind = .audio && info.pairs video a.1

end StreamInfo

/-- Whether a track is in the language `lang`; none is the language of tracks that name none. -/
def speaks (lang : Option Text) (track : Track R) : Bool :=
  match lang, track.language with
  | some asked, some own => sameLanguage asked own
  | none, none => true
  | _, _ => false

/-- `best_of`. -/
def bestOf (fits : List (Placed R)) (lang : Option Text) : Option (Placed R) := highest audioRank (fits.filter fun a => speaks lang a.1)

/-- The best track of every language; `seen` holds the languages before, in lower case. -/
def bestOfAll (fits : List (Placed R)) : List (Placed R) → List (Option Text) → List (Placed R)
  | [], _ => []
  | a :: rest, seen =>
    let lang := a.1.language.map (·.map Char.toLower)
    if lang ∈ seen then bestOfAll fits rest seen else (bestOf fits a.1.language).toList ++ bestOfAll fits rest (seen ++ [lang])

/-- The tracks of the languages asked for. -/
def bestOfEach (text : Text) (has : List (Track R)) (fits : List (Placed R)) (langs : List Text) :
    Except (ChooseError R) (List (Placed R)) :=
  langs.mapM fun lang => okOr (.noLanguage lang text has) (bestOf fits (some lang))

def StreamInfo.pickAudio (info : StreamInfo R) (video : Option (Track R)) (spec : AudioSpec) (text : Text) :
    Except (ChooseError R) (List (Placed R)) := do
  let audios := info.audios video
  if spec.none || audios.isEmpty then return []
  let has := audios.map Prod.fst
  match audios.filter fun a => spec.fits a.1 with
  | [] => .error (.noAudio text has)
  | first :: rest =>
    let fits := first :: rest
    let chosen ←
      if spec.all then pure (bestOfAll fits fits [])
      else if spec.languages.isEmpty then
        let lead := (fits.find? fun a => a.1.isDefault).getD first
        pure (bestOf fits lead.1.language).toList
      else bestOfEach text has fits spec.languages
    return keepFirst Prod.snd [] chosen

/-- The tracks with these ids, each once. -/
def StreamInfo.byIds (info : StreamInfo R) : List Text → List (Placed R) → Except (ChooseError R) (List (Placed R))
  | [], chosen => .ok chosen
  | id :: ids, chosen =>
    match info.placed.find? fun t => t.1.id = id with
    | none => .error (.noTrack id info.tracks)
    | some t => if t.2 ∈ chosen.map Prod.snd then info.byIds ids chosen else info.byIds ids (chosen ++ [t])

/-- `choose`: the tracks that `choice` takes, by their positions. -/
def choose (info : StreamInfo R) (choice : TrackChoice) : Except (ChooseError R) (List ℕ) :=
  if choice.ids.isEmpty then do
    let videoSpec ← VideoSpec.parse choice.video
    let video ← info.pickVideo videoSpec choice.video
    let audioSpec ← AudioSpec.parse choice.audio
    let audio ← info.pickAudio (video.map Prod.fst) audioSpec choice.audio
    return (video.toList ++ audio).map Prod.snd
  else do
    let chosen ← info.byIds ((choice.ids.map trim).filter fun id => !id.isEmpty) []
    return (chosen.mergeSort fun a b => a.1.kind.place ≤ b.1.kind.place).map Prod.snd

end

end Hyperfetch.Stream
