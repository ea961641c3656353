import Hyperfetch.Targets.Names
import Hyperfetch.Repair.Prepare
import Hyperfetch.History.Entry
import Hyperfetch.Engine.Dates
import Mathlib.Logic.Function.Basic

/-!
# Where a download goes (`plan_target`, `finalize`, `discard_partial`)

The disk is what is under each path. Any one operation on it may be refused, with a message,
and then it does nothing.

Parameters (`World`): how a state is read (`bincode`), the history, what of a link it keeps, a
checksum's check, how a path is shown and made absolute, what the system refuses, and what
`Claim::try_take` answers. A lock file is there while its claim is held.

Left out: what is logged. A search for a free number takes its fuel.
-/

namespace Hyperfetch.Targets

open Weft Function Repair History

inductive Entry
  | file (bytes : List UInt8)
  | dir (length : Nat)
  deriving DecidableEq

def Entry.length : Entry → Nat
  | .file bytes => bytes.length
  | .dir length => length

abbrev Disk := Path → Option Entry

inductive Op
  | stat (path : Path)
  | remove (path : Path)
  | rename (source target : Path)
  deriving DecidableEq

structure World where
  /-- `DownloadState`, as it is read from its bytes. -/
  load : List UInt8 → Option DownloadState
  entries : List (HistoryEntry Path)
  redactUrl : Text → String
  isRedacted : String → Bool
  /-- Whether the bytes have this checksum. -/
  verify : List UInt8 → String → Bool
  absolute : Path → Path
  display : Path → String
  refuses : Op → Bool
  fault : Op → String
  /-- `Claim::try_take`. -/
  claim : Path → Except String Bool

/-- What the plan reads of a probe. -/
structure Remote where
  url : String
  size : Option Nat
  acceptsRanges : Bool
  etag : Option Text
  lastModified : Option Text
  /-- The bytes the probe brought. -/
  prefetch : Nat
  deriving DecidableEq

structure Ask where
  base : Path
  remote : Remote
  urls : List Text
  checksum : Option String
  replace : Bool

/-- A `Plan`: the claim of a fetch is held. -/
inductive Plan
  | alreadyDone (path : Path)
  | fetch (final : Path) (resume : Option DownloadState)
  deriving DecidableEq

namespace World

variable (w : World)

def remove (path : Path) (disk : Disk) : Except String Disk :=
  if w.refuses (.remove path) then .error (w.fault (.remove path))
  else
    match disk path with
    | some (.file _) => .ok (update disk path none)
    | _ => .error (w.fault (.remove path))

def rename (source target : Path) (disk : Disk) : Except String Disk :=
  if w.refuses (.rename source target) then .error (w.fault (.rename source target))
  else
    match disk source, disk target with
    | some entry, none => .ok (update (update disk source none) target (some entry))
    | some (.file bytes), some (.file _) => .ok (update (update disk source none) target (some (.file bytes)))
    | _, _ => .error (w.fault (.rename source target))

/-- Deletes a file, where that can be done. -/
def removed (path : Path) (disk : Disk) : Disk :=
  match w.remove path disk with
  | .ok disk => disk
  | .error _ => disk

/-- The lock file is made, if it is not there. -/
def claimed (final : Path) (disk : Disk) : Disk := update disk (lockPath final) (some ((disk (lockPath final)).getD (.file [])))

/-- A claim is dropped. -/
def released (final : Path) (disk : Disk) : Disk := w.removed (lockPath final) disk

/-- `load_from_path`, none where there is no state that can be read. -/
def loadState (path : Path) (disk : Disk) : Option DownloadState :=
  match disk path with
  | some (.file bytes) => w.load bytes
  | _ => none

/-! ## What is there -/

/-- If both sides have an ETag they must match; otherwise, if both have Last-Modified, those must. -/
def validatorsCompatible (state : DownloadState) (remote : Remote) : Bool :=
  match state.etag, remote.etag with
  | some a, some b => a == b
  | _, _ =>
    match state.lastModified, remote.lastModified with
    | some a, some b => a == b
    | _, _ => true

def magics : List (Text × List (List UInt8)) :=
  [("zip".toList, [[0x50, 0x4B, 3, 4], [0x50, 0x4B, 5, 6], [0x50, 0x4B, 7, 8]]),
    ("7z".toList, [[0x37, 0x7A, 0xBC, 0xAF, 0x27, 0x1C]])]

/-- Rejects archives whose magic bytes are wrong. -/
def headerMatchesExtension (path : Path) (bytes : List UInt8) : Bool :=
  match path.splitName.2.bind fun ext => magics.lookup (ext.map Char.toLower) with
  | some starts => starts.any fun magic => magic.isPrefixOf (bytes.take 6)
  | none => true

/-- The history has this file completing from one of these links, and nothing newer is there. -/
def recorded (path : Path) (size : Nat) (remote : Remote) (urls : List Text) : Bool :=
  let modified := remote.lastModified.bind parseHttpDate
  let links := urls.map w.redactUrl
  w.entries.any fun e =>
    e.status == .completed && w.absolute e.filePath == w.absolute path && e.fileSize == size &&
      e.urls.any (fun u => links.contains u && !w.isRedacted u) && modified.all (· ≤ e.startedAt)

/-- An existing file counts as this download. -/
def alreadyDownloaded (path : Path) (ask : Ask) (disk : Disk) : Bool :=
  match disk path with
  | some (.file bytes) =>
    match ask.checksum with
    | some expected => w.verify bytes expected
    | none =>
      match ask.remote.size with
      | none => false
      | some size =>
        bytes.length == size && w.recorded path size ask.remote ask.urls && headerMatchesExtension path bytes
  | _ => false

/-- One of the links is a mirror of the state. -/
def lists (state : DownloadState) (urls : List Text) : Bool := state.mirrors.any (urls.contains ·)

/-! ## Planning -/

/-- Moves an in-progress download from the old layout (`<final>` and `<final>.hfstate`) to the
`.part` names. Returns whether it did. -/
def migrateLegacy (candidate : Path) (ask : Ask) (disk : Disk) : Except String Bool × Disk :=
  let part := partPath candidate
  let fail := fun e : String => "Failed to migrate " ++ w.display candidate ++ ": " ++ e
  match w.loadState (stateFilePath candidate) disk with
  | none => (.ok false, disk)
  | some state =>
    if ask.remote.size == some state.fileSize && (disk candidate).map (·.length) == some state.fileSize &&
        lists state ask.urls && validatorsCompatible state ask.remote then
      match w.rename candidate part disk with
      | .error e => (.error (fail e), disk)
      | .ok moved =>
        match w.rename (stateFilePath candidate) (stateFilePath part) moved with
        | .error e => (.error (fail e), moved)
        | .ok moved => (.ok true, moved)
    else (.ok false, disk)

/-- Whether a file keeps a claimed name, which it does unless it is an old download of ours. -/
def inTheWay (candidate : Path) (replacing : Bool) (ask : Ask) (disk : Disk) : Except String Bool × Disk :=
  if (disk candidate).isSome && !replacing then
    if (disk (partPath candidate)).isSome then (.ok true, disk)
    else
      let (moved, disk) := w.migrateLegacy candidate ask disk
      (moved.map (!·), disk)
  else (.ok false, disk)

def keptMessage (remote : Remote) (part : Path) : String :=
  remote.url ++ " does not accept range requests right now, so the partial download " ++ w.display part ++
    " cannot resume; it was kept. Try again later, or delete it to download from the start."

/-- The bytes under a `.part` with this state are of the file the probe found. -/
def sameFile (state : DownloadState) (candidate : Path) (ask : Ask) (disk : Disk) : Bool :=
  ask.remote.size.all (· == state.fileSize) && validatorsCompatible state ask.remote &&
    (disk (partPath candidate)).map (·.length) == some state.fileSize

/-- A claimed name nothing keeps: what its `.part` makes of it, none where that is of another
download. -/
def atPart (candidate : Path) (ask : Ask) (disk : Disk) : Option (Except String Plan) × Disk :=
  let part := partPath candidate
  if (disk part).isSome then
    match w.loadState (stateFilePath part) disk with
    | some state =>
      if lists state ask.urls then
        let same := sameFile state candidate ask disk
        if same && ask.remote.acceptsRanges then (some (.ok (.fetch candidate (some state))), disk)
        -- downloaded bytes go only once they are proven stale, or the whole file is here
        else if same && !state.completedRanges.isEmpty && ask.remote.size != some ask.remote.prefetch then
          (some (.error (w.keptMessage ask.remote part)), disk)
        else
          match w.remove part disk with
          | .error e => (some (.error ("Failed to remove " ++ w.display part ++ ": " ++ e)), disk)
          | .ok disk => (some (.ok (.fetch candidate none)), w.removed (stateFilePath part) disk)
      else (none, disk)
    | none => (none, disk)
  else (some (.ok (.fetch candidate none)), disk)

/-- A claimed name. -/
def withClaim (candidate : Path) (replacing : Bool) (ask : Ask) (disk : Disk) : Option (Except String Plan) × Disk :=
  match w.inTheWay candidate replacing ask disk with
  | (.error e, disk) => (some (.error e), disk)
  | (.ok true, disk) => (none, disk)
  | (.ok false, disk) => w.atPart candidate ask disk

/-- The `n`th name: what comes of it, none where the next is looked at. A claim is dropped unless
the fetch keeps it. -/
def planOne (ask : Ask) (n : Nat) (disk : Disk) : Option (Except String Plan) × Disk :=
  let candidate := numbered ask.base n
  let replacing := ask.replace && n == 0
  if !replacing && w.alreadyDownloaded candidate ask disk then (some (.ok (.alreadyDone candidate)), disk)
  else
    match w.claim candidate with
    | .error e => (some (.error e), disk)
    | .ok false => (none, disk)
    | .ok true =>
      let (outcome, disk) := w.withClaim candidate replacing ask (claimed candidate disk)
      match outcome with
      | some (.ok plan) => (some (.ok plan), disk)
      | outcome => (outcome, w.released candidate disk)

def planFrom (ask : Ask) : Nat → Nat → Disk → Option (Except String Plan × Disk)
  | 0, _, _ => none
  | fuel + 1, n, disk =>
    match w.planOne ask n disk with
    | (some outcome, disk) => some (outcome, disk)
    | (none, disk) => planFrom ask fuel (n + 1) disk

def planTarget (fuel : Nat) (ask : Ask) (disk : Disk) : Option (Except String Plan × Disk) := w.planFrom ask fuel 0 disk

/-! ## The name a file's contents show -/

def ascii (text : String) : List UInt8 := text.toList.map fun c => UInt8.ofNat c.toNat

/-- `HEAD`. -/
def headBytes : Nat := 4096

/-- Extensions of the scripts that make a file on a server. -/
def pageScripts : List Text := ["php", "asp", "aspx", "jsp", "cgi"].map String.toList

/-- How a file of each type starts, and its extension. -/
def magicTypes : List (List UInt8 × String) :=
  [([0x37, 0x7A, 0xBC, 0xAF, 0x27, 0x1C], "7z"), (ascii "Rar!" ++ [0x1A, 7], "rar"), ([0x1F, 0x8B], "gz"),
    ([0xFD, 0x37, 0x7A, 0x58, 0x5A, 0], "xz"), (ascii "BZh", "bz2"), ([0x28, 0xB5, 0x2F, 0xFD], "zst"), (ascii "%PDF-", "pdf"),
    (0x89 :: ascii "PNG\r\n" ++ [0x1A, 0x0A], "png"), ([0xFF, 0xD8, 0xFF], "jpg"), (ascii "GIF87a", "gif"), (ascii "GIF89a", "gif"),
    (ascii "ID3", "mp3"), (ascii "fLaC", "flac"), (ascii "OggS", "ogg"), (ascii "!<arch>\ndebian-binary", "deb"),
    ([0xED, 0xAB, 0xEE, 0xDB], "rpm"), (0x7F :: ascii "ELF", "elf"), (ascii "MZ", "exe")]

/-- The extension of a file that starts with `head`, if it is a type this knows. -/
def extensionFor (head : List UInt8) : Option String :=
  let has := fun (offset : Nat) (magic : List UInt8) => (head.drop offset).take magic.length == magic
  if has 0 (ascii "PK" ++ [3, 4]) then some (if has 30 (ascii "mimetypeapplication/epub+zip") then "epub" else "zip")
  else if has 4 (ascii "ftyp") then
    if head.length < 12 then none
    else if has 8 (ascii "qt  ") then some "mov"
    else if has 8 (ascii "M4A ") || has 8 (ascii "M4B ") then some "m4a"
    else if has 8 (ascii "avif") || has 8 (ascii "avis") then some "avif"
    else if has 8 (ascii "heic") || has 8 (ascii "heix") || has 8 (ascii "mif1") then some "heic"
    else some "mp4"
  else if has 0 [0x1A, 0x45, 0xDF, 0xA3] then
    some (if (head.take 64).tails.any (ascii "webm").isPrefixOf then "webm" else "mkv")
  else if has 0 (ascii "RIFF") then
    if has 8 (ascii "WEBP") then some "webp" else if has 8 (ascii "WAVE") then some "wav" else if has 8 (ascii "AVI ") then some "avi" else none
  else (magicTypes.find? fun type => type.1.isPrefixOf head).map (·.2)

/-- Whether the name says nothing of the file's type. -/
def saysNothing (path : Path) : Bool :=
  match path.splitName.2 with
  | some ext => pageScripts.any (eqIgnoreAsciiCase · ext)
  | none => true

/-- `name` with the extension its contents show, when it says nothing of its type. -/
def namedByContent (entry : Option Entry) (name : Path) : Path :=
  if !saysNothing name then name
  else
    match entry with
    | some (.file bytes) =>
      match extensionFor (bytes.take headBytes) with
      | some ext => if ext = "elf" then name else { name with name := name.name ++ '.' :: ext.toList }
      | none => name
    | _ => name

/-! ## The end of a download -/

/-- What the finished bytes were found to be. -/
inductive Finished
  | right
  | wrong (e : String)
  /-- Not read, or pieces of them to be fetched again. -/
  | unfinished (e : String)

/-- First of `base`, `base (1)` and so on where neither the file, its `.part` nor a claim exists. -/
def freePath (fuel : Nat) (base : Path) (disk : Disk) : Option Path :=
  ((List.range fuel).map (numbered base)).find? fun c =>
    (disk c).isNone && (disk (partPath c)).isNone && (disk (lockPath c)).isNone

/-- Moves the finished `.part` to its final name, or `byContent` to the one its contents show.
None where no free name was found so far. -/
def finalize (fuel : Nat) (final : Path) (byContent : Bool) (finished : Finished) (replace : Bool) (disk : Disk) :
    Option (Except String Path × Disk) :=
  let part := partPath final
  let state := stateFilePath part
  match finished with
  | .wrong e => some (.error e, w.released final (w.removed state (w.removed part disk)))
  | .unfinished e => some (.error e, w.released final disk)
  | .right =>
    let name := if byContent then namedByContent (disk part) final else final
    let target := if (disk name).isSome && !(replace && name == final) then freePath fuel name disk else some name
    target.map fun target =>
      if w.refuses (.stat part) || (disk part).isNone then (.error (w.fault (.stat part)), w.released final disk)
      else
        match w.rename part target disk with
        | .error e =>
          (.error ("Failed to move " ++ w.display part ++ " to " ++ w.display target ++ ": " ++ e), w.released final disk)
        | .ok disk => (.ok target, w.released final (w.removed state disk))

/-- What a crash can leave of a download's states. -/
def leftovers (final : Path) : List Path :=
  let part := partPath final
  [part, part.beside ".hfstate", part.beside ".hlsstate", part.beside ".hfstate.tmp", part.beside ".hlsstate.tmp"]

/-- Deletes the files there are, one after the other, up to the first that cannot be. -/
def removeEach : List Path → Nat → Disk → Except String Nat × Disk
  | [], removed, disk => (.ok removed, disk)
  | path :: rest, removed, disk =>
    if (disk path).isNone then removeEach rest removed disk
    else
      match w.remove path disk with
      | .ok disk => removeEach rest (removed + 1) disk
      | .error e => (.error ("Failed to delete " ++ w.display path ++ ": " ++ e), disk)

/-- Deletes the partial files of `final` and returns how many existed. -/
def discardPartial (final : Path) (disk : Disk) : Except String Nat × Disk :=
  match w.claim final with
  | .error e => (.error e, disk)
  | .ok false => (.error (w.display final ++ " is still being downloaded"), disk)
  | .ok true =>
    let (outcome, disk) := w.removeEach (leftovers final) 0 (claimed final disk)
    (outcome, w.released final disk)

end World

end Hyperfetch.Targets
