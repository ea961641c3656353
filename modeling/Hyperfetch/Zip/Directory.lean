import Hyperfetch.Text
import Hyperfetch.Weft.Checked
import Hyperfetch.Weft.Utf8
import Hyperfetch.Weft.Words

/-!
# A ZIP's directory (`zipdir.rs`)

Where the end of a ZIP says its central directory is, and the entries of that
directory. Every sum of the source is checked here, and the loop over an
entry's extra fields faults if it turns more often than there are bytes; `get`
gives nothing out of bounds, as in the source. `usize` has 64 bits.
-/

namespace Hyperfetch.Zip

open Weft Weft.Checked Weft.Utf8

/-- Largest central directory read. -/
def maxDirectory : Nat := 16 * 1024 * 1024

/-- Most entries listed. -/
def maxEntries : Nat := 100000

def endSig : Nat := 0x06054b50
def endLen : Nat := 22
def zip64LocatorSig : Nat := 0x07064b50
def zip64LocatorLen : Nat := 20
def zip64EndSig : Nat := 0x06064b50
def zip64EndLen : Nat := 56
def entrySig : Nat := 0x02014b50
def entryLen : Nat := 46

/-- Code page 437 from 0x80 on. -/
def cp437High : List Char :=
  ['Ç', 'ü', 'é', 'â', 'ä', 'à', 'å', 'ç', 'ê', 'ë', 'è', 'ï', 'î', 'ì', 'Ä', 'Å',
   'É', 'æ', 'Æ', 'ô', 'ö', 'ò', 'û', 'ù', 'ÿ', 'Ö', 'Ü', '¢', '£', '¥', '₧', 'ƒ',
   'á', 'í', 'ó', 'ú', 'ñ', 'Ñ', 'ª', 'º', '¿', '⌐', '¬', '½', '¼', '¡', '«', '»',
   '░', '▒', '▓', '│', '┤', '╡', '╢', '╖', '╕', '╣', '║', '╗', '╝', '╜', '╛', '┐',
   '└', '┴', '┬', '├', '─', '┼', '╞', '╟', '╚', '╔', '╩', '╦', '╠', '═', '╬', '╧',
   '╨', '╤', '╥', '╙', '╘', '╒', '╓', '╫', '╪', '┘', '┌', '█', '▄', '▌', '▐', '▀',
   'α', 'ß', 'Γ', 'π', 'Σ', 'σ', 'µ', 'τ', 'Φ', 'Θ', 'Ω', 'δ', '∞', 'φ', 'ε', '∩',
   '≡', '±', '≥', '≤', '⌠', '⌡', '÷', '≈', '°', '∙', '·', '√', 'ⁿ', '²', '■', '\u00a0']

structure ZipEntry where
  name : Text
  size : Nat
  compressed : Nat
  modified : Option Text
  deriving DecidableEq, Repr

inductive ZipError
  | damaged
  | notZip
  | split
  | tooMany (entries size : Nat)
  /-- No answer for `IDLE`, or none between two reads of its body. -/
  | quiet
  | lost (why : String)
  | noParts
  | http (status : Nat)
  | badRange (header : Text)
  | sentMore (len : Nat)
  | sentOther (sent : Nat) (header : Text)
  deriving DecidableEq, Repr

/-- The text of an error about `url`; `shown` is how a status is shown. -/
def ZipError.text (url : String) (shown : Nat → String) : ZipError → String
  | .damaged => "The ZIP's directory is damaged"
  | .notZip => "The file is not a ZIP (or its comment is too long to find its end)"
  | .split => "The ZIP is split over several files"
  | .tooMany entries size =>
    s!"The ZIP lists {entries} entries in {size} bytes, more than can be shown ({maxEntries} entries, {maxDirectory} bytes)"
  | .quiet => s!"Cannot read {url}: no answer for 30 seconds"
  | .lost why => s!"Cannot read {url}: {why}"
  | .noParts =>
    s!"{url} does not send parts of files, so its contents cannot be listed without downloading it"
  | .http status => s!"Cannot read {url}: HTTP {shown status}"
  | .badRange header =>
    s!"{url} answered a range request with Content-Range {(String.ofList header).quote}"
  | .sentMore len => s!"{url} sent more than the {len} bytes asked for"
  | .sentOther sent header => s!"{url} sent {sent} bytes for Content-Range {(String.ofList header).quote}"

abbrev u16At : List UInt8 → Nat → Option Nat := wordAt 2

abbrev u32At : List UInt8 → Nat → Option Nat := wordAt 4

abbrev u64At : List UInt8 → Nat → Option Nat := wordAt 8

/-- A word that must be there. -/
def need {α : Type} (word : Option α) : Checked ZipError α := lift (okOr .damaged word)

/-- Where a ZIP's central directory is, and how many entries it lists. -/
structure Directory where
  offset : Nat
  size : Nat
  entries : Nat
  deriving DecidableEq, Repr

/-- Whether the directory fits the caps and a file of `size` bytes. -/
def Directory.check (dir : Directory) (size : Nat) : Except ZipError Unit :=
  if maxDirectory < dir.size ∨ maxEntries < dir.entries then .error (.tooMany dir.entries dir.size)
  -- `checked_mul` and `checked_add`
  else if dir.entries * entryLen ≤ wordMax ∧ dir.entries * entryLen ≤ dir.size ∧
      dir.offset + dir.size ≤ wordMax ∧ dir.offset + dir.size ≤ size then .ok ()
  else .error .damaged

/-- What the end of a ZIP says. -/
inductive End
  | directory (dir : Directory)
  /-- The end of central directory record of a ZIP64 archive is at this offset. -/
  | zip64At (offset : Nat)
  deriving DecidableEq, Repr

/-! ## The end -/

/-- An end of central directory record whose comment fits. -/
def endFits (tail : List UInt8) (at_ : Nat) : Checked ZipError Bool := do
  if u32At tail at_ = some endSig then do
    let place ← add at_ 20
    match u16At tail place with
    | some comment => do
      let behind ← add at_ endLen
      let stop ← add behind comment
      .ok (decide (stop ≤ tail.length))
    | none => .ok false
  else .ok false

/-- The last place below `places` where one is. -/
def findEnd (tail : List UInt8) : Nat → Checked ZipError Nat
  | 0 => fail .notZip
  | places + 1 => do
    if ← endFits tail places then .ok places else findEnd tail places

def endOfDirectory (tail : List UInt8) : Checked ZipError End := do
  let at_ ← findEnd tail (tail.length - endLen + 1)
  let field (offset : Nat) : Checked ZipError Nat := do
    let place ← add at_ offset
    need (u16At tail place)
  let disk ← field 4
  let start ← field 6
  if disk ≠ 0 ∨ start ≠ 0 then fail .split
  -- `at.checked_sub`, then the signature
  else if zip64LocatorLen ≤ at_ ∧ u32At tail (at_ - zip64LocatorLen) = some zip64LocatorSig then do
    let place ← add (at_ - zip64LocatorLen) 8
    let offset ← need (u64At tail place)
    .ok (.zip64At offset)
  else do
    let entries ← field 10
    let sizePlace ← add at_ 12
    let size ← need (u32At tail sizePlace)
    let offsetPlace ← add at_ 16
    let offset ← need (u32At tail offsetPlace)
    if entries = 0xFFFF ∨ size = 0xFFFFFFFF ∨ offset = 0xFFFFFFFF then fail .damaged
    else .ok (.directory { offset, size, entries })

/-- The directory a ZIP64 end of central directory record names. -/
def zip64End (record : List UInt8) : Except ZipError Directory := do
  if u32At record 0 ≠ some zip64EndSig then .error .damaged
  else if u32At record 16 ≠ some 0 ∨ u32At record 20 ≠ some 0 then .error .split
  else do
    let entries ← okOr .damaged (u64At record 32)
    let size ← okOr .damaged (u64At record 40)
    let offset ← okOr .damaged (u64At record 48)
    .ok { offset, size, entries }

/-! ## The entries -/

/-- The words of `chunks_exact(8)`. -/
def longs (data : List UInt8) : List Nat :=
  (List.range (data.length / 8)).map fun i => leValue (data.extract (8 * i) (8 * i + 8))

/-- The values of the ZIP64 field among the extra fields from `at_` on. -/
def zip64From (extra : List UInt8) : Nat → Nat → Checked ZipError (List Nat)
  | 0, _ => fault
  | turns + 1, at_ => do
    let lenPlace ← add at_ 2
    match u16At extra at_, u16At extra lenPlace with
    | some id, some len => do
      let first ← add at_ 4
      let stop ← add first len
      let data := (getSlice extra first stop).getD []
      if id = 1 then .ok (longs data) else zip64From extra turns stop
    | _, _ => .ok []

def zip64Sizes (extra : List UInt8) : Checked ZipError (List Nat) := zip64From extra (extra.length + 1) 0

/-- A size that does not fit its field is the next of the ZIP64 field's. -/
def widen (field : Nat) (zip64 : List Nat) : Except ZipError (Nat × List Nat) :=
  if field = 0xFFFFFFFF then
    match zip64 with
    | [] => .error .damaged
    | wide :: more => .ok (wide, more)
  else .ok (field, zip64)

def nameOf (flags : Nat) (name : List UInt8) : Text :=
  if flags &&& 0x800 ≠ 0 then lossy name
  else name.map fun b => if b.toNat < 0x80 then Char.ofNat b.toNat else cp437High.getD (b.toNat - 0x80) '?'

/-- An MS-DOS date and time, none for no date or an impossible one. -/
def dosTime (date time : Nat) : Option Text :=
  let year := 1980 + date >>> 9
  let month := (date >>> 5) &&& 0xf
  let day := date &&& 0x1f
  let hour := time >>> 11
  let minute := (time >>> 5) &&& 0x3f
  let second := (time &&& 0x1f) * 2
  if (1 ≤ month ∧ month ≤ 12) ∧ 1 ≤ day ∧ hour < 24 ∧ minute < 60 ∧ second < 60 then
    some (padded 4 year ++ ['-'] ++ padded 2 month ++ ['-'] ++ padded 2 day ++ [' '] ++
      padded 2 hour ++ [':'] ++ padded 2 minute ++ [':'] ++ padded 2 second)
  else none

/-- The entry at `at_` of the directory, and where the next begins. -/
def entryAt (dir : List UInt8) (at_ : Nat) : Checked ZipError (ZipEntry × Nat) := do
  if u32At dir at_ ≠ some entrySig then fail .damaged
  else do
    let short (offset : Nat) : Checked ZipError Nat := do
      let place ← add at_ offset
      need (u16At dir place)
    let long (offset : Nat) : Checked ZipError Nat := do
      let place ← add at_ offset
      need (u32At dir place)
    let flags ← short 8
    let time ← short 12
    let date ← short 14
    let compressed ← long 20
    let size ← long 24
    let nameLen ← short 28
    let extraLen ← short 30
    let commentLen ← short 32
    let nameAt ← add at_ entryLen
    let nameEnd ← add nameAt nameLen
    let name ← need (getSlice dir nameAt nameEnd)
    let extraEnd ← add nameEnd extraLen
    let extra ← need (getSlice dir nameEnd extraEnd)
    let zip64 ← zip64Sizes extra
    let (size, zip64) ← lift (widen size zip64)
    let (compressed, _) ← lift (widen compressed zip64)
    let next ← add extraEnd commentLen
    .ok ({ name := nameOf flags name, size, compressed, modified := dosTime date time }, next)

/-- The next `count` entries. -/
def entriesFrom (dir : List UInt8) : Nat → Nat → Checked ZipError (List ZipEntry)
  | 0, _ => .ok []
  | count + 1, at_ => do
    let (entry, next) ← entryAt dir at_
    let list ← entriesFrom dir count next
    .ok (entry :: list)

def entries (dir : List UInt8) (count : Nat) : Checked ZipError (List ZipEntry) := entriesFrom dir count 0

end Hyperfetch.Zip
