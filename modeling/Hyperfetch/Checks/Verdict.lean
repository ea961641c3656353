import Hyperfetch.Checks.Checksum
import Hyperfetch.Mega.Mac
import Hyperfetch.Repair.Prepare

/-!
# The last checks of a finished download (`engine.rs`, `digest.rs`)

`verifyWritten` holds the finished `.part` against the checksum asked for, by the digest
taken while it was written where there is one; `finish` then reads it once for a
metalink's piece hashes, the site's checksum and the piece hashes history keeps.

What is asked is said of the file's bytes (`Passes`). A file is kept only if they pass,
and one whose digest was taken right is kept if they do; whatever that digest says, one
is given up as wrong only if they fail; and one that is to be fetched again in part keeps
every byte outside the pieces that fail (`verdict`).

`Fate` says which of the steps waited for fail. Parameters: the hash functions, what the
site published, and how a path and a text are shown.
-/

namespace Hyperfetch.Checks

open Weft Checked
open Storage (hex Hashing Pieces Pass pieceDigest pieceDigests comparedWith readPass)
open Repair (DownloadState)

/-- What the checks are done with. -/
structure Checker (H : Type) where
  hashes : Hashes
  hashing : Hashing H (List UInt8)
  /-- The hashers of an algorithm, by name. -/
  flat : Text → Option (Nat → H)
  /-- BLAKE3's for a piece at some place. -/
  tree : Nat → H
  debug : Text → String
  /-- The file, as messages name it. -/
  path : String

/-- What a finished download hands over for the file's digest. -/
inductive Written
  /-- Nothing: the file is read back. -/
  | file
  /-- The writer that wrote it: its digest, by what is needed besides BLAKE3, and its piece hashes. -/
  | writer (digest : Option Algo → FileDigest) (pieces : Nat → List (List UInt8))
  /-- Taken while the file was written in order. -/
  | digest (d : FileDigest)
  /-- The same, of a file that is flushed already. -/
  | flushed (d : FileDigest)

structure Options where
  expected : Option Text
  metalink : Option Pieces
  fsyncOnComplete : Bool
  decrypt : Option Mega.Cipher

/-- Why a step that is waited for fails, if it does. -/
structure Fate where
  hash : Option String
  reread : Option String
  flush : Option String
  mac : Option String
  pieces : Option String
  read : Option String
  sync : Option String
  save : Option String

/-- Nothing fails. -/
def Fate.good : Fate := ⟨none, none, none, none, none, none, none, none⟩

/-- Unless it fails. -/
def attempt {ε α : Type} (failed : Option String) (error : String → ε) (result : Except ε α) : Except ε α :=
  match failed with
  | some why => .error (error why)
  | none => result

variable {H : Type} (k : Checker H) (o : Options) (fate : Fate) (file : List UInt8)

/-! ## The checksum asked for -/

/-- The digest of the whole file, read back. -/
def readBack : Except VerifyError Text := verifyDigest k.debug (k.hashes.digest (needed o.expected) file) o.expected

/-- The first look: at the digest taken on the way, where there is one. -/
def firstLook : Written → Except VerifyError Text
  | .file => readBack k o file
  | .writer digest _ => verifyDigest k.debug (digest (needed o.expected)) o.expected
  | .digest d | .flushed d => verifyDigest k.debug d o.expected

/-- Whether a mismatch is confirmed by reading the file. -/
def Written.rereads : Written → Bool
  | .file => false
  | _ => true

/-- Whether the file is flushed here. -/
def flushes (written : Written) : Bool :=
  o.fsyncOnComplete &&
    match written with
    | .flushed _ => false
    | _ => true

/-- A mismatch is checked by reading the file before it counts. -/
def confirmed (written : Written) : Except VerifyError Text :=
  match attempt fate.hash .io (firstLook k o file written) with
  | .error (.mismatch why) => if written.rereads then attempt fate.reread .io (readBack k o file) else .error (.mismatch why)
  | looked => looked

/-- `hash_and_flush`. -/
def hashAndFlush (written : Written) : Except VerifyError Text := do
  let hash ← confirmed k o fate file written
  attempt (fate.flush.filter fun _ => flushes o written) (fun why => .io ("Failed to flush download to disk: " ++ why)) (pure hash)

def macMessage : String := "The file MEGA sent does not match its MAC: it arrived damaged; download it again"

/-- A MEGA file is held to the MAC its key carries. -/
def checkMac : Except VerifyError Unit :=
  match o.decrypt with
  | none => .ok ()
  | some cipher => do
    let matched ← attempt fate.mac .io (okOr (.io "failed to fill whole buffer") (cipher.macMatches file))
    if matched then pure () else .error (.mismatch macMessage)

/-- `verify_written`. -/
def verifyWritten (written : Written) : Except VerifyError Text := do
  let hash ← hashAndFlush k o fate file written
  checkMac o fate file
  pure hash

/-! ## The other checks -/

/-- `MIN_PIECE`. -/
def minPiece : Nat := 4 * 1024 * 1024

/-- `MAX_PIECES`. -/
def maxPieces : Nat := 1024

/-- `next_power_of_two`. -/
def nextPowerOfTwo (n : Nat) : Nat := 2 ^ Nat.clog 2 n

/-- Bytes per BLAKE3 piece history keeps for a file; none for a file of one piece. -/
def pieceSize (size : Nat) : Option Nat :=
  let piece := max (nextPowerOfTwo ((size + maxPieces - 1) / maxPieces)) minPiece
  if piece < size then some piece else none

/-- Why a finished download is not kept. -/
inductive Unfinished
  /-- The file could not be read; it stays. -/
  | io (why : String)
  /-- Its contents are wrong; it is discarded. -/
  | wrong (why : String)
  /-- Pieces are to be fetched again; the state as it is saved. -/
  | refetch (saved : DownloadState)

structure Kept where
  hash : Text
  /-- What confirmed the file, beside the checksum asked for. -/
  note : Option String
  /-- The piece hashes history keeps, and how long its pieces are. -/
  pieces : Option (Nat × List (List UInt8))

/-- "SHA-256" and so on. -/
def algoName (algo : Text) : String :=
  if algo = "sha1".toList then "SHA-1"
  else if algo = "md5".toList then "MD5"
  else (String.ofList (algo.map Char.toUpper)).replace "SHA" "SHA-"

/-- The state with `bad` missing and all else complete. Mirrors serve the file under validators
of their own: the pieces' hashes hold it now. -/
def missing (size : Nat) (bad : List ByteRange) (state : DownloadState) : DownloadState :=
  { state with completedRanges := computeGaps size bad, etag := none, lastModified := none }

/-- Marks `bad` missing in the state beside the file. -/
def refetch (state : Option DownloadState) (size : Nat) (bad : List ByteRange) : Unfinished :=
  match state.filter fun s => s.fileSize = size with
  | none =>
    .wrong s!"{bad.length} piece(s), {(bad.map ByteRange.len).sum} bytes, do not match the metalink's hashes"
  | some state =>
    match fate.sync, fate.save with
    | some why, _ => .io s!"Failed to flush {k.path}: {why}"
    | none, some why => .io s!"Failed to save download state: {why}"
    | none, none => .refetch (missing size bad state)

/-- Beside the whole file's checksum, the pieces' are looked at only if that failed or is not asked for. -/
def pieceChecks (wholeFailed : Option String) : Option Pieces := o.metalink.filter fun _ => wholeFailed.isSome || o.expected.isNone

/-- The piece hashes of the writer that wrote the file. -/
def Written.pieceHashes : Written → Option (Nat → List (List UInt8))
  | .writer _ pieces => some pieces
  | _ => none

/-- The writer's hashes of the pieces history keeps. -/
def keptPieces (written : Written) : Option (List (List UInt8)) :=
  (pieceSize file.length).bind fun piece => written.pieceHashes.map fun hashes => hashes piece

/-- The pieces hashed for history in a read that is made anyway. -/
def piecesToRead (wholeFailed : Option String) (published : Option Text) (written : Written) : Option Nat :=
  (pieceSize file.length).filter fun _ =>
    (keptPieces file written).isNone && (published.isSome || (pieceChecks o wholeFailed).isSome)

/-- What the site published, and what the file has in that algorithm. -/
def disagrees (published : Option Text) (pass : Pass) : Option (Text × Text × Text) :=
  (published.bind (splitOnce ':')).bind fun cut => pass.published.map fun actual => (cut.1, cut.2, actual)

/-- One read of the file. -/
def readFile (wholeFailed : Option String) (published : Option Text) (written : Written) :
    Checked Unfinished (Pass × Option Nat) := do
  let failed := fun why => Halt.error (Unfinished.io s!"Failed to read {k.path}: {why}")
  let _ ← attempt (fate.pieces.filter fun _ => (keptPieces file written).isSome) failed (pure ())
  let pass ← attempt fate.read failed
    ((readPass k.hashing k.flat k.tree file published (pieceChecks o wholeFailed)
      (piecesToRead o file wholeFailed published written)).mapError fun _ => .fault)
  pure (if pass.bad.isEmpty then { pass with blake3 := (keptPieces file written).getD pass.blake3 } else pass, pieceSize file.length)

/-- `finish`. -/
def finish (verified : Except VerifyError Text) (published : Option Text) (state : Option DownloadState) (written : Written) :
    Checked Unfinished Kept :=
  match verified with
  | .error (.io why) => fail (.io why)
  | .error (.mismatch why) =>
    if o.metalink.isSome then do
      let (pass, _) ← readFile k o fate file (some why) published written
      if !pass.bad.isEmpty then fail (refetch k fate state file.length pass.bad) else fail (.wrong why)
    else fail (.wrong why)
  | .ok hash => do
    let (pass, piece) ← readFile k o fate file none published written
    if !pass.bad.isEmpty then fail (refetch k fate state file.length pass.bad)
    else
      match disagrees published pass with
      | some (algo, expected, actual) =>
        if expected ≠ actual then
          fail (.wrong (s!"Checksum verification failed against the site's published {algoName algo}: " ++
            s!"expected {String.ofList expected}, got {String.ofList actual}"))
        else pure ⟨hash, some s!"the site's {algoName algo}", (piece.filter fun _ => !pass.blake3.isEmpty).map fun p => (p, pass.blake3)⟩
      | none => pure ⟨hash, none, (piece.filter fun _ => !pass.blake3.isEmpty).map fun p => (p, pass.blake3)⟩

/-- What `finalize` has done with the `.part` before it moves it. -/
def lastChecks (published : Option Text) (state : Option DownloadState) (written : Written) : Checked Unfinished Kept :=
  finish k o fate file (verifyWritten k o fate file written) published state written

end Hyperfetch.Checks
