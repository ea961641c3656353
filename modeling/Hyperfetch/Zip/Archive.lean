import Hyperfetch.Zip.Written

/-!
# Reading undoes writing

An archive ends with its directory and the records that say where that is: for
ZIP64 a record and a locator of it, then the end record and the archive's
comment. Reading finds the directory from any tail of the file with those
records in it (`listing_written`), if nothing that looks like a fitting end
record stands behind the real one's start, and nothing that looks like a
locator right before the end record of an archive without ZIP64.
-/

namespace Hyperfetch.Zip

open Weft Weft.Checked

/-! ## The last end record -/

theorem endAt_drop {bytes : List UInt8} {skipped : Nat} (h : skipped ≤ bytes.length) (at_ : Nat) :
    endAt (bytes.drop skipped) at_ = endAt bytes (skipped + at_) := by
  have hfits (comment : Nat) : at_ + endLen + comment ≤ (bytes.drop skipped).length ↔
      skipped + at_ + endLen + comment ≤ bytes.length := by
    rw [List.length_drop]
    omega
  have hsig : u32At (bytes.drop skipped) at_ = u32At bytes (skipped + at_) := wordAt_drop 4 bytes h at_
  have hcomment : u16At (bytes.drop skipped) (at_ + 20) = u16At bytes (skipped + at_ + 20) := by
    rw [Nat.add_assoc]
    exact wordAt_drop 2 bytes h (at_ + 20)
  rw [endAt, endAt, hsig, hcomment]
  simp only [hfits]

/-- The fields of an end record. -/
def endFields (entries size offset comment : Nat) : List (Nat × Nat) :=
  [(4, endSig), (2, 0), (2, 0), (2, entries), (2, entries), (4, size), (4, offset), (2, comment)]

section

variable {tail front comment : List UInt8} {entries size offset : Nat}

theorem endAt_written (h : tail = front ++ (layout (endFields entries size offset comment.length) ++ comment))
    (hcomment : comment.length < 2 ^ 16) : endAt tail front.length = true := by
  have hdrop : tail.drop front.length = layout (endFields entries size offset comment.length) ++ comment := by
    rw [h, List.drop_left]
  have hlen : tail.length = front.length + 22 + comment.length := by
    rw [h, List.length_append, List.length_append, length_layout]
    simp [endFields, widths]
    omega
  have hsig : u32At tail (front.length + 0) = some endSig :=
    wordAt_layout (i := 0) hdrop (by omega) rfl rfl (by decide)
  have hlast : u16At tail (front.length + 20) = some comment.length :=
    wordAt_layout (i := 7) hdrop (by omega) rfl (by simp [endFields, widths]) hcomment
  rw [Nat.add_zero] at hsig
  rw [endAt, hsig, hlast, beq_self_eq_true, Bool.true_and, Option.any_some, decide_eq_true_eq]
  unfold endLen
  omega

/-- What the end record says, once it is found. -/
theorem endOfDirectory_written (h : tail = front ++ (layout (endFields entries size offset comment.length) ++ comment))
    (hlen : tail.length < 2 ^ 63) (hcomment : comment.length < 2 ^ 16)
    (hlast : ∀ later, front.length < later → endAt tail later = false)
    (hentries : entries < 2 ^ 16) (hsize : size < 2 ^ 32) (hoffset : offset < 2 ^ 32) :
    endOfDirectory tail =
      if zip64LocatorLen ≤ front.length ∧ u32At tail (front.length - zip64LocatorLen) = some zip64LocatorSig then
        need (u64At tail (front.length - zip64LocatorLen + 8)) >>= fun place => .ok (.zip64At place)
      else if entries = 0xFFFF ∨ size = 0xFFFFFFFF ∨ offset = 0xFFFFFFFF then fail .damaged
      else .ok (.directory { offset, size, entries }) := by
  have hdrop : tail.drop front.length = layout (endFields entries size offset comment.length) ++ comment := by
    rw [h, List.drop_left]
  have hall : tail.length = front.length + 22 + comment.length := by
    rw [h, List.length_append, List.length_append, length_layout]
    simp [endFields, widths]
    omega
  have hread (i : Nat) {width n place : Nat}
      (hget : (endFields entries size offset comment.length)[i]? = some (width, n))
      (hplace : widths ((endFields entries size offset comment.length).take i) = place) (hn : n < 256 ^ width) :
      wordAt width tail (front.length + place) = some n := wordAt_layout hdrop (by omega) hget hplace hn
  have hdisk : u16At tail (front.length + 4) = some 0 := hread 1 rfl (by simp [endFields, widths]) (by decide)
  have hstart : u16At tail (front.length + 6) = some 0 := hread 2 rfl (by simp [endFields, widths]) (by decide)
  have hcount : u16At tail (front.length + 10) = some entries := hread 4 rfl (by simp [endFields, widths]) hentries
  have hbytes : u32At tail (front.length + 12) = some size := hread 5 rfl (by simp [endFields, widths]) hsize
  have hplace : u32At tail (front.length + 16) = some offset := hread 6 rfl (by simp [endFields, widths]) hoffset
  have hfind : findEnd tail (tail.length - endLen + 1) = .ok front.length :=
    findEnd_eq hlen (by unfold endLen; omega) (by unfold endLen; omega) (endAt_written h hcomment) hlast
  have hneed {α : Type} (word : α) : need (some word) = .ok word := rfl
  have hadd (place : Nat) (hplace : place ≤ 22) : (add front.length place : Checked ZipError Nat) = .ok (front.length + place) :=
    add_eq (by unfold wordMax; omega)
  have hback : (add (front.length - zip64LocatorLen) 8 : Checked ZipError Nat) = .ok (front.length - zip64LocatorLen + 8) :=
    add_eq (by unfold wordMax; omega)
  rw [endOfDirectory, hfind, ok_bind]
  simp only [hadd 4 (by decide), hadd 6 (by decide), hadd 10 (by decide), hadd 12 (by decide), hadd 16 (by decide), hback,
    ok_bind, hdisk, hstart, hcount, hbytes, hplace, hneed, ne_eq, not_true_eq_false, or_self, if_false]

end

/-! ## Archives -/

/-- What the ZIP64 end record holds besides where the directory is. -/
structure Zip64 where
  made : Nat
  needed : Nat
  sector : List UInt8

structure Archive where
  /-- What stands before the directory. -/
  body : List UInt8
  items : List Item
  zip64 : Option Zip64
  comment : List UInt8

namespace Archive

variable (a : Archive)

def directory : List UInt8 := itemBytes a.items

def recordAt : Nat := a.body.length + a.directory.length

def recordFields (z : Zip64) : List (Nat × Nat) :=
  [(4, zip64EndSig), (8, 44 + z.sector.length), (2, z.made), (2, z.needed), (4, 0), (4, 0), (8, a.items.length),
    (8, a.items.length), (8, a.directory.length), (8, a.body.length)]

def locatorFields : List (Nat × Nat) := [(4, zip64LocatorSig), (4, 0), (8, a.recordAt), (4, 1)]

/-- What stands before the end record: for ZIP64 a record, and a locator of it. -/
def beforeEnd : List UInt8 :=
  match a.zip64 with
  | none => []
  | some z => layout (a.recordFields z) ++ (z.sector ++ layout a.locatorFields)

/-- A count too large for its field is saturated there. -/
def ending : List UInt8 :=
  layout (endFields (min a.items.length 0xFFFF) (narrow a.directory.length) (narrow a.body.length) a.comment.length) ++
    a.comment

def bytes : List UInt8 := a.body ++ (a.directory ++ (a.beforeEnd ++ a.ending))

def endStart : Nat := a.recordAt + a.beforeEnd.length

/-- Every number fits where it is written; ZIP64 is there where it is needed. -/
structure Fits : Prop where
  items : ∀ item ∈ a.items, item.Fits
  comment : a.comment.length < 2 ^ 16
  directory : a.directory.length < 2 ^ 63
  length : a.bytes.length < 2 ^ 64
  narrow : a.zip64 = none → a.items.length < 0xFFFF ∧ a.directory.length < 0xFFFFFFFF ∧ a.body.length < 0xFFFFFFFF

/-- Nothing else is taken for the end record, nor for a locator. -/
structure Plain : Prop where
  last : ∀ later, a.endStart < later → endAt a.bytes later = false
  locator : a.zip64 = none → zip64LocatorLen ≤ a.endStart → u32At a.bytes (a.endStart - zip64LocatorLen) ≠ some zip64LocatorSig

/-- A tail from `skipped` on holds the end record, and the locator of ZIP64. -/
def Holds (skipped : Nat) : Prop :=
  (if a.zip64.isSome then skipped + zip64LocatorLen ≤ a.endStart else skipped ≤ a.endStart) ∧
    (a.bytes.drop skipped).length < 2 ^ 63

end Archive

/-- The entries of a file whose tail from `skipped` on is read first. -/
def listing (bytes : List UInt8) (skipped : Nat) : Checked ZipError (List ZipEntry) := do
  let dir ← match ← endOfDirectory (bytes.drop skipped) with
    | .directory dir => .ok dir
    | .zip64At place => lift (zip64End (bytes.extract place (place + zip64EndLen)))
  entries (bytes.extract dir.offset (dir.offset + dir.size)) dir.entries

namespace Archive

variable {a : Archive} {skipped : Nat}

theorem length_directory_le (a : Archive) : a.items.length ≤ a.directory.length := by
  unfold directory itemBytes
  induction a.items with
  | nil => exact Nat.le_refl _
  | cons item items ih =>
    have hentry : entryLen = 46 := rfl
    rw [List.length_cons, List.flatMap_cons, List.length_append, item.length_bytes]
    omega

/-- The bytes up to the end record. -/
theorem bytes_split (a : Archive) : a.bytes = (a.body ++ (a.directory ++ a.beforeEnd)) ++ a.ending := by
  rw [bytes]
  simp only [List.append_assoc]

theorem length_front (a : Archive) : (a.body ++ (a.directory ++ a.beforeEnd)).length = a.endStart := by
  rw [List.length_append, List.length_append, endStart, recordAt, Nat.add_assoc]

theorem endStart_le (a : Archive) : a.endStart ≤ a.bytes.length := by
  rw [bytes_split, List.length_append, length_front]
  exact Nat.le_add_right _ _

theorem tail_split (h : skipped ≤ a.endStart) :
    a.bytes.drop skipped = (a.body ++ (a.directory ++ a.beforeEnd)).drop skipped ++ a.ending := by
  rw [bytes_split, List.drop_append_of_le_length]
  rw [length_front]
  exact h

theorem length_tail_front (a : Archive) (skipped : Nat) :
    ((a.body ++ (a.directory ++ a.beforeEnd)).drop skipped).length = a.endStart - skipped := by
  rw [List.length_drop, length_front]

theorem Holds.le (h : a.Holds skipped) : skipped ≤ a.endStart := by
  have hle := h.1
  split at hle
  · exact Nat.le_of_add_right_le hle
  · exact hle

/-- The tail says where the directory is. -/
theorem endOfDirectory_tail (hfits : a.Fits) (hplain : a.Plain) (hholds : a.Holds skipped) :
    endOfDirectory (a.bytes.drop skipped) =
      if zip64LocatorLen ≤ a.endStart - skipped ∧ u32At a.bytes (a.endStart - zip64LocatorLen) = some zip64LocatorSig then
        need (u64At a.bytes (a.endStart - zip64LocatorLen + 8)) >>= fun place => .ok (.zip64At place)
      else if min a.items.length 0xFFFF = 0xFFFF ∨ Zip.narrow a.directory.length = 0xFFFFFFFF ∨
          Zip.narrow a.body.length = 0xFFFFFFFF then fail .damaged
      else .ok (.directory
        { offset := Zip.narrow a.body.length, size := Zip.narrow a.directory.length, entries := min a.items.length 0xFFFF }) := by
  have hle := hholds.le
  have hskipped := hle.trans a.endStart_le
  have hlast : ∀ later, ((a.body ++ (a.directory ++ a.beforeEnd)).drop skipped).length < later →
      endAt (a.bytes.drop skipped) later = false := by
    intro later hlater
    rw [length_tail_front] at hlater
    rw [endAt_drop hskipped]
    exact hplain.last _ (by omega)
  have htells := endOfDirectory_written (tail_split hle) hholds.2 hfits.comment hlast (by omega) (narrow_lt _) (narrow_lt _)
  rw [htells, length_tail_front]
  by_cases hroom : zip64LocatorLen ≤ a.endStart - skipped
  · have hword (width place : Nat) : wordAt width (a.bytes.drop skipped) (a.endStart - skipped - zip64LocatorLen + place) =
        wordAt width a.bytes (a.endStart - zip64LocatorLen + place) := by
      rw [wordAt_drop width a.bytes hskipped]
      congr 1
      omega
    have hsig : u32At (a.bytes.drop skipped) (a.endStart - skipped - zip64LocatorLen) =
        u32At a.bytes (a.endStart - zip64LocatorLen) := hword 4 0
    have hplace : u64At (a.bytes.drop skipped) (a.endStart - skipped - zip64LocatorLen + 8) =
        u64At a.bytes (a.endStart - zip64LocatorLen + 8) := hword 8 8
    rw [hsig, hplace]
  · have hno (p : Prop) : ¬ (zip64LocatorLen ≤ a.endStart - skipped ∧ p) := fun h => hroom h.1
    rw [if_neg (hno _), if_neg (hno _)]

theorem located_plain (hfits : a.Fits) (hplain : a.Plain) (hholds : a.Holds skipped) (hnone : a.zip64 = none) :
    endOfDirectory (a.bytes.drop skipped) =
      .ok (.directory { offset := a.body.length, size := a.directory.length, entries := a.items.length }) := by
  obtain ⟨hentries, hsize, hoffset⟩ := hfits.narrow hnone
  have hno : ¬ (zip64LocatorLen ≤ a.endStart - skipped ∧
      u32At a.bytes (a.endStart - zip64LocatorLen) = some zip64LocatorSig) := fun h =>
    hplain.locator hnone (h.1.trans (Nat.sub_le _ _)) h.2
  have hnarrow {n : Nat} (hn : n < 0xFFFFFFFF) : Zip.narrow n = n := Nat.min_eq_left (Nat.le_of_lt hn)
  rw [endOfDirectory_tail hfits hplain hholds, if_neg hno, hnarrow hsize, hnarrow hoffset,
    Nat.min_eq_left (Nat.le_of_lt hentries), if_neg (by omega)]

theorem located_zip64 (hfits : a.Fits) (hplain : a.Plain) (hholds : a.Holds skipped) {z : Zip64} (hz : a.zip64 = some z) :
    endOfDirectory (a.bytes.drop skipped) = .ok (.zip64At a.recordAt) ∧
      zip64End (a.bytes.extract a.recordAt (a.recordAt + zip64EndLen)) =
        .ok { offset := a.body.length, size := a.directory.length, entries := a.items.length } := by
  have hbefore : a.beforeEnd = layout (a.recordFields z) ++ (z.sector ++ layout a.locatorFields) := by
    rw [beforeEnd, hz]
  have hlocatorLen : (layout a.locatorFields).length = zip64LocatorLen := by
    rw [length_layout]
    simp [locatorFields, widths, zip64LocatorLen]
  have hrecordLen : (layout (a.recordFields z)).length = zip64EndLen := by
    rw [length_layout]
    simp [recordFields, widths, zip64EndLen]
  have hlength := hfits.length
  have hrecordAt : a.recordAt ≤ a.bytes.length := by
    rw [bytes, List.length_append, List.length_append, recordAt]
    omega
  constructor
  · have hbehind : a.endStart = a.recordAt + zip64EndLen + z.sector.length + zip64LocatorLen := by
      rw [endStart, hbefore, List.length_append, List.length_append, hlocatorLen, hrecordLen]
      omega
    have hdrop : a.bytes.drop (a.endStart - zip64LocatorLen) = layout a.locatorFields ++ a.ending := by
      have hsplit : a.bytes = (a.body ++ (a.directory ++ (layout (a.recordFields z) ++ z.sector))) ++
          (layout a.locatorFields ++ a.ending) := by
        rw [bytes, hbefore]
        simp only [List.append_assoc]
      have hfront : (a.body ++ (a.directory ++ (layout (a.recordFields z) ++ z.sector))).length =
          a.endStart - zip64LocatorLen := by
        rw [List.length_append, List.length_append, List.length_append, hrecordLen, hbehind, recordAt]
        omega
      rw [← hfront, hsplit, List.drop_left]
    have hin : a.endStart - zip64LocatorLen ≤ a.bytes.length := (Nat.sub_le _ _).trans a.endStart_le
    have hsig : u32At a.bytes (a.endStart - zip64LocatorLen + 0) = some zip64LocatorSig :=
      wordAt_layout (i := 0) hdrop hin rfl rfl (by decide)
    have hplace : u64At a.bytes (a.endStart - zip64LocatorLen + 8) = some a.recordAt :=
      wordAt_layout (i := 2) hdrop hin rfl (by simp [locatorFields, widths]) (by omega)
    have hroom : zip64LocatorLen ≤ a.endStart - skipped := by
      have hle := hholds.1
      rw [hz, Option.isSome_some, if_pos rfl] at hle
      omega
    rw [Nat.add_zero] at hsig
    rw [endOfDirectory_tail hfits hplain hholds, if_pos ⟨hroom, hsig⟩, hplace]
    rfl
  · have hdrop : a.bytes.drop a.recordAt = layout (a.recordFields z) ++ (z.sector ++ (layout a.locatorFields ++ a.ending)) := by
      have hsplit : a.bytes = (a.body ++ a.directory) ++
          (layout (a.recordFields z) ++ (z.sector ++ (layout a.locatorFields ++ a.ending))) := by
        rw [bytes, hbefore]
        simp only [List.append_assoc]
      rw [hsplit, recordAt, ← List.length_append, List.drop_left]
    have hrecord := extract_front hdrop
    rw [hrecordLen] at hrecord
    have hcount := a.length_directory_le
    have hwhole : (layout (a.recordFields z)).drop 0 = layout (a.recordFields z) ++ [] := by
      rw [List.drop_zero, List.append_nil]
    have hread (i : Nat) {width n place : Nat} (hget : (a.recordFields z)[i]? = some (width, n))
        (hplace : widths ((a.recordFields z).take i) = place) (hn : n < 256 ^ width) :
        wordAt width (layout (a.recordFields z)) place = some n := by
      have hword := wordAt_layout hwhole (Nat.zero_le _) hget hplace hn
      rwa [Nat.zero_add] at hword
    have hsig : u32At (layout (a.recordFields z)) 0 = some zip64EndSig := hread 0 rfl rfl (by decide)
    have hdisk : u32At (layout (a.recordFields z)) 16 = some 0 := hread 4 rfl (by simp [recordFields, widths]) (by decide)
    have hstart : u32At (layout (a.recordFields z)) 20 = some 0 := hread 5 rfl (by simp [recordFields, widths]) (by decide)
    have hentries : u64At (layout (a.recordFields z)) 32 = some a.items.length :=
      hread 7 rfl (by simp [recordFields, widths]) (by have := hfits.directory; omega)
    have hsize : u64At (layout (a.recordFields z)) 40 = some a.directory.length :=
      hread 8 rfl (by simp [recordFields, widths]) (by unfold recordAt at hrecordAt; omega)
    have hoffset : u64At (layout (a.recordFields z)) 48 = some a.body.length :=
      hread 9 rfl (by simp [recordFields, widths]) (by unfold recordAt at hrecordAt; omega)
    rw [hrecord, zip64End, if_neg (not_not.mpr hsig), hdisk, hstart, if_neg (by simp), hentries, hsize, hoffset]
    rfl

/-- Reading an archive gives what was written, from any tail that holds its
end. -/
theorem listing_written (hfits : a.Fits) (hplain : a.Plain) (hholds : a.Holds skipped) :
    listing a.bytes skipped = .ok (a.items.map Item.listed) := by
  have hread : entries (a.bytes.extract a.body.length (a.body.length + a.directory.length)) a.items.length =
      .ok (a.items.map Item.listed) := by
    have hdrop : a.bytes.drop a.body.length = a.directory ++ (a.beforeEnd ++ a.ending) := by
      rw [bytes, List.drop_left]
    have hwhole : a.directory.drop 0 = itemBytes a.items ++ [] := by
      rw [List.drop_zero, List.append_nil]
      rfl
    rw [extract_front hdrop]
    exact entriesFrom_written hfits.items hfits.directory (Nat.zero_le _) hwhole
  rw [listing]
  cases hz : a.zip64 with
  | none =>
    rw [located_plain hfits hplain hholds hz, ok_bind]
    exact hread
  | some z =>
    obtain ⟨hat, hrecord⟩ := located_zip64 hfits hplain hholds hz
    rw [hat, ok_bind]
    dsimp only
    rw [hrecord, lift_ok, ok_bind]
    exact hread

/-- A directory is read back as it was written. So is an archive's, from any
tail that holds its end, where nothing else is taken for its records. And for
any bytes reading ends without a fault, with as many entries as asked for, each
of which stands in them. -/
theorem reading_undoes_writing {a : Archive} (hfits : a.Fits) :
    entries a.directory a.items.length = .ok (a.items.map Item.listed) ∧
      (a.Plain → ∀ skipped, a.Holds skipped → listing a.bytes skipped = .ok (a.items.map Item.listed)) ∧
      ∀ (dir : Slice) (count : Nat), entries dir.bytes count ≠ fault ∧
        ∀ list, entries dir.bytes count = .ok list → list.length = count ∧ Stand dir.bytes 0 list := by
  refine ⟨?_, fun hplain skipped hholds => listing_written hfits hplain hholds, fun dir count => ?_⟩
  · have hwhole : a.directory.drop 0 = itemBytes a.items ++ [] := by
      rw [List.drop_zero, List.append_nil]
      rfl
    exact entriesFrom_written hfits.items hfits.directory (Nat.zero_le _) hwhole
  · exact entriesFrom_safe dir (Nat.zero_le _)

/-! ## One entry, and what is taken for another record -/

/-- A file named `a`, of more bytes than a field of four holds. -/
def small (comment : List UInt8) : Item where
  name := .dos ['a']
  flags := 0
  date := 0x58B1
  time := 0x6DAF
  size := 2 ^ 64 - 1
  compressed := 5
  offset := 0
  disk := 0
  made := 20
  needed := 45
  method := 0
  crc := 0
  internal := 0
  external := 0
  before := [⟨0x5455, [1], by decide, by decide, by decide⟩]
  after := []
  comment

theorem small_fits {comment : List UInt8} (hcomment : comment.length < 2 ^ 16) : (small comment).Fits where
  name :=
    { flags := by simp [small]
      dos := by
        intro text htext c hc
        cases htext
        rw [List.mem_singleton] at hc
        subst hc
        exact .inl (by decide)
      length := (by decide : (small []).name.bytes.length < 2 ^ 16) }
  flags := (by decide : 0 < 2 ^ 16)
  date := (by decide : 0x58B1 < 2 ^ 16)
  time := (by decide : 0x6DAF < 2 ^ 16)
  size := (by decide : 2 ^ 64 - 1 < 2 ^ 64)
  compressed := (by decide : 5 < 2 ^ 64)
  offset := (by decide : 0 < 2 ^ 64)
  extra := (by decide : (small []).extra.length < 2 ^ 16)
  comment := hcomment

/-- One entry, under comments of its own and of the archive. -/
def single (comment archived : List UInt8) : Archive where
  body := []
  items := [small comment]
  zip64 := none
  comment := archived

theorem single_fits : (single [] []).Fits where
  items item hitem := by
    rw [single, List.mem_singleton] at hitem
    subst hitem
    exact small_fits (by decide)
  comment := by decide
  directory := by decide +kernel
  length := by decide +kernel
  narrow _ := by decide +kernel

theorem single_plain : (single [] []).Plain where
  last later hlater := by
    -- a record needs more bytes than are left
    have hstart : (single [] []).endStart = 64 := by decide +kernel
    have hall : (single [] []).bytes.length = 86 := by decide +kernel
    rw [hstart] at hlater
    cases hat : endAt (single [] []).bytes later with
    | false => rfl
    | true =>
      have hle := le_of_endAt hat
      unfold endLen at hle
      omega
  locator _ _ := by decide +kernel

/-- The entry is listed. -/
theorem reading_undoes_writing_one :
    listing (single [] []).bytes 0 = .ok [{ name := ['a'], size := 2 ^ 64 - 1, compressed := 5, modified := some "2024-05-17 13:45:30".toList }] := by
  have hlisted : [small []].map Item.listed =
      [{ name := ['a'], size := 2 ^ 64 - 1, compressed := 5, modified := some "2024-05-17 13:45:30".toList }] := by
    decide +kernel
  rw [← hlisted]
  refine (reading_undoes_writing single_fits).2.1 single_plain 0 ⟨?_, ?_⟩
  · exact Nat.zero_le _
  · decide +kernel

/-- An end record in the archive's comment is taken for the archive's, and a
locator at the end of the last entry's comment makes it one of ZIP64: neither
archive is listed. -/
theorem taken_for_another_record :
    listing (single [] (layout (endFields 0 0 0 0))).bytes 0 = .ok [] ∧
      listing (single (layout [(4, zip64LocatorSig), (4, 0), (8, 0), (4, 1)]) []).bytes 0 = fail .damaged := by
  refine ⟨?_, ?_⟩ <;> decide +kernel

end Archive

end Hyperfetch.Zip
