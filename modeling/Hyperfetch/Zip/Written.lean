import Hyperfetch.Zip.Bounds

/-!
# A directory as it is written

A central directory by the ZIP specification: for each entry a header, its
name, extra fields and comment. Sizes, an offset or a disk number too large for
their fields are saturated there and stand, in this order, in an extra field of
their own. `entries` reads such a directory back.
-/

namespace Hyperfetch.Zip

open Weft Weft.Checked Weft.Utf8

/-! ## Names -/

/-- A name in UTF-8, which a flag says, or in code page 437. -/
inductive Name
  | utf8 (text : Text)
  | dos (text : Text)
  deriving DecidableEq

def cp437Byte (c : Char) : UInt8 :=
  if c.toNat < 0x80 then UInt8.ofNat c.toNat else UInt8.ofNat (0x80 + cp437High.idxOf c)

namespace Name

def text : Name → Text
  | utf8 text | dos text => text

def bytes : Name → List UInt8
  | utf8 text => encode text
  | dos text => text.map cp437Byte

/-- Written in the name's own encoding; `flags` tells which. -/
structure Fits (name : Name) (flags : Nat) : Prop where
  flags : flags &&& 0x800 ≠ 0 ↔ ∃ text, name = utf8 text
  dos : ∀ text, name = dos text → ∀ c ∈ text, c.toNat < 0x80 ∨ c ∈ cp437High
  length : name.bytes.length < 2 ^ 16

set_option maxRecDepth 2000 in
theorem length_cp437High : cp437High.length = 128 := rfl

theorem cp437_cp437Byte {c : Char} (h : c.toNat < 0x80 ∨ c ∈ cp437High) :
    (if (cp437Byte c).toNat < 0x80 then Char.ofNat (cp437Byte c).toNat
      else cp437High.getD ((cp437Byte c).toNat - 0x80) '?') = c := by
  rw [cp437Byte]
  by_cases hlow : c.toNat < 0x80
  · rw [if_pos hlow, UInt8.toNat_ofNat_of_lt' (Nat.lt_trans hlow (by decide)), if_pos hlow, Char.ofNat_toNat]
  · have hmem : c ∈ cp437High := h.resolve_left hlow
    have hidx : cp437High.idxOf c < cp437High.length := List.idxOf_lt_length_of_mem hmem
    have hbyte : (UInt8.ofNat (0x80 + cp437High.idxOf c)).toNat = 0x80 + cp437High.idxOf c := by
      rw [length_cp437High] at hidx
      exact UInt8.toNat_ofNat_of_lt' (show _ < 256 by omega)
    have hget : cp437High.getD (cp437High.idxOf c) '?' = c := by
      rw [← List.getElem_eq_getD (h := hidx), List.getElem_idxOf]
    rw [if_neg hlow, hbyte, if_neg (by omega), Nat.add_sub_cancel_left, hget]

theorem nameOf_bytes {name : Name} {flags : Nat} (h : name.Fits flags) : nameOf flags name.bytes = name.text := by
  cases name with
  | utf8 text =>
    have hflag : flags &&& 0x800 ≠ 0 := h.flags.mpr ⟨text, rfl⟩
    have hread := lossy_encode text []
    rw [List.append_nil, lossy_nil, List.append_nil] at hread
    rw [nameOf, if_pos hflag]
    exact hread
  | dos text =>
    have hflag : ¬ flags &&& 0x800 ≠ 0 := fun hset => by
      obtain ⟨_, heq⟩ := h.flags.mp hset
      cases heq
    rw [nameOf, if_neg hflag]
    show (text.map cp437Byte).map _ = text
    rw [List.map_map]
    refine (List.map_congr_left fun c hc => ?_).trans (List.map_id text)
    exact cp437_cp437Byte (h.dos text rfl c hc)

end Name

/-! ## Extra fields -/

/-- An extra field of another kind than ZIP64's. -/
structure Field where
  id : Nat
  data : List UInt8
  id_lt : id < 2 ^ 16
  id_ne : id ≠ 1
  data_lt : data.length < 2 ^ 16

def Field.bytes (field : Field) : List UInt8 := layout [(2, field.id), (2, field.data.length)] ++ field.data

def fieldBytes (fields : List Field) : List UInt8 := fields.flatMap Field.bytes

/-- The largest number of a field is written for what does not fit it. -/
def narrow (n : Nat) : Nat := min n 0xFFFFFFFF

/-- What stands in the ZIP64 field for a number. -/
def wide (n : Nat) : List (Nat × Nat) := if 0xFFFFFFFF ≤ n then [(8, n)] else []

theorem length_fieldBytes_pos (field : Field) : 4 + field.data.length = field.bytes.length := by
  rw [Field.bytes, List.length_append, length_layout]
  rfl

section

variable {extra : List UInt8} {turns at_ : Nat} {rest : List UInt8}

/-- A field of an id is read, and passed if it is not ZIP64's. -/
theorem zip64From_field (hlen : extra.length < 2 ^ 63) {id : Nat} {data : List UInt8} (hid : id < 2 ^ 16)
    (hdata : data.length < 2 ^ 16) (hat : at_ ≤ extra.length)
    (h : extra.drop at_ = layout [(2, id), (2, data.length)] ++ (data ++ rest)) :
    zip64From extra (turns + 1) at_ =
      if id = 1 then .ok (longs data) else zip64From extra turns (at_ + 4 + data.length) := by
  have hid' : u16At extra at_ = some id := wordAt_layout (i := 0) h hat rfl rfl hid
  have hsize : u16At extra (at_ + 2) = some data.length := wordAt_layout (i := 1) h hat rfl rfl hdata
  have hback : extra.drop (at_ + 4) = data ++ rest := drop_behind h
  have hin : at_ + 4 ≤ extra.length := length_at h hat
  have hget := getSlice_at hback hin
  obtain ⟨_, hstop, _⟩ := getSlice_eq_some.mp hget
  rw [zip64From, add_eq (by unfold wordMax; omega), ok_bind, hid', hsize]
  dsimp only
  rw [add_eq (by unfold wordMax; omega), ok_bind, add_eq (by unfold wordMax; omega), ok_bind, hget]
  rfl

/-- Fields of other kinds are passed. -/
theorem zip64From_fields (hlen : extra.length < 2 ^ 63) {fields : List Field} (hat : at_ ≤ extra.length)
    (hturns : extra.length < turns + at_) (h : extra.drop at_ = fieldBytes fields ++ rest) :
    ∃ more, extra.length < more + (at_ + (fieldBytes fields).length) ∧
      zip64From extra turns at_ = zip64From extra more (at_ + (fieldBytes fields).length) := by
  induction fields generalizing turns at_ with
  | nil => exact ⟨turns, hturns, rfl⟩
  | cons field fields ih =>
    obtain ⟨turns, rfl⟩ : ∃ n, turns = n + 1 := ⟨turns - 1, by omega⟩
    have hfront : fieldBytes (field :: fields) = field.bytes ++ fieldBytes fields := List.flatMap_cons
    rw [hfront, List.append_assoc] at h
    have hsize := length_fieldBytes_pos field
    have hback := drop_behind h
    have hin := length_at h hat
    have hstep : zip64From extra (turns + 1) at_ = zip64From extra turns (at_ + field.bytes.length) := by
      rw [Field.bytes, List.append_assoc] at h
      rw [zip64From_field hlen field.id_lt field.data_lt hat h, if_neg field.id_ne, ← hsize, Nat.add_assoc]
    have hmeasure : extra.length < turns + (at_ + field.bytes.length) := by omega
    obtain ⟨more, hmore, hrest⟩ := ih hin hmeasure hback
    rw [hfront, List.length_append, ← Nat.add_assoc]
    exact ⟨more, hmore, hstep.trans hrest⟩

theorem zip64From_end {turns : Nat} (hlen : extra.length < 2 ^ 63) (hturns : 0 < turns) :
    zip64From extra turns extra.length = .ok [] := by
  obtain ⟨turns, rfl⟩ : ∃ n, turns = n + 1 := ⟨turns - 1, by omega⟩
  have hnone : u16At extra extra.length = none := by
    cases hget : u16At extra extra.length with
    | none => rfl
    | some n =>
      have := (wordAt_lt hget).2
      omega
  rw [zip64From, add_eq (by unfold wordMax; omega), ok_bind, hnone]

end

/-! ## Numbers too large for their fields -/

theorem longs_long {n : Nat} (hn : n < 2 ^ 64) (rest : List UInt8) : longs (leBytes 8 n ++ rest) = n :: longs rest := by
  have hcount : (leBytes 8 n ++ rest).length / 8 = rest.length / 8 + 1 := by
    rw [List.length_append, length_leBytes]
    omega
  have hfirst : (leBytes 8 n ++ rest).extract 0 8 = leBytes 8 n := by
    rw [List.extract_eq_take_drop, List.drop_zero]
    exact List.take_left' (length_leBytes 8 n)
  have hmore (i : Nat) : (leBytes 8 n ++ rest).extract (8 * (i + 1)) (8 * (i + 1) + 8) = rest.extract (8 * i) (8 * i + 8) := by
    have hdrop : (leBytes 8 n ++ rest).drop (8 * (i + 1)) = rest.drop (8 * i) := by
      rw [Nat.mul_succ, Nat.add_comm, ← List.drop_drop, List.drop_left' (length_leBytes 8 n)]
    rw [List.extract_eq_take_drop, List.extract_eq_take_drop, hdrop, Nat.add_sub_cancel_left, Nat.add_sub_cancel_left]
  rw [longs, hcount, List.range_succ_eq_map, List.map_cons, List.map_map, longs]
  refine List.cons_eq_cons.mpr ⟨?_, List.map_congr_left fun i _ => congrArg leValue (hmore i)⟩
  rw [hfirst, leValue_leBytes hn]

theorem longs_short {data : List UInt8} (h : data.length < 8) : longs data = [] := by
  rw [longs, Nat.div_eq_of_lt h]
  rfl

/-- The numbers a ZIP64 field holds, in order. -/
def wideOf (n : Nat) : List Nat := if 0xFFFFFFFF ≤ n then [n] else []

theorem longs_wide {n : Nat} (hn : n < 2 ^ 64) (fields : List (Nat × Nat)) :
    longs (layout (wide n ++ fields)) = wideOf n ++ longs (layout fields) := by
  unfold wide wideOf
  split
  · exact longs_long hn _
  · rfl

/-- A number is the narrow field's, or the next of the ZIP64 field. -/
theorem widen_narrow (n : Nat) (more : List Nat) : widen (narrow n) (wideOf n ++ more) = .ok (n, more) := by
  unfold widen narrow wideOf
  by_cases hwide : 0xFFFFFFFF ≤ n
  · rw [if_pos (Nat.min_eq_right hwide), if_pos hwide]
    rfl
  · rw [if_neg (by omega), if_neg hwide, Nat.min_eq_left (by omega)]
    rfl

theorem narrow_lt (n : Nat) : narrow n < 2 ^ 32 := by
  unfold narrow
  omega

/-! ## Entries -/

/-- An entry to be written. Of the numbers nobody reads back only the bytes
that fit their fields are written. -/
structure Item where
  name : Name
  flags : Nat
  date : Nat
  time : Nat
  size : Nat
  compressed : Nat
  offset : Nat
  disk : Nat
  /-- Version made by, version needed, method, checksum, attributes. -/
  made : Nat
  needed : Nat
  method : Nat
  crc : Nat
  internal : Nat
  external : Nat
  before : List Field
  after : List Field
  comment : List UInt8

namespace Item

variable (item : Item)

def wides : List (Nat × Nat) :=
  wide item.size ++ (wide item.compressed ++ (wide item.offset ++ if 0xFFFF ≤ item.disk then [(4, item.disk)] else []))

/-- The ZIP64 field, where a number needs it. -/
def zip64 : List UInt8 :=
  if item.wides = [] then [] else layout [(2, 1), (2, (layout item.wides).length)] ++ layout item.wides

def extra : List UInt8 := fieldBytes item.before ++ (item.zip64 ++ fieldBytes item.after)

def header : List (Nat × Nat) :=
  [(4, entrySig), (2, item.made), (2, item.needed), (2, item.flags), (2, item.method), (2, item.time), (2, item.date),
    (4, item.crc), (4, narrow item.compressed), (4, narrow item.size), (2, item.name.bytes.length),
    (2, item.extra.length), (2, item.comment.length), (2, min item.disk 0xFFFF), (2, item.internal),
    (4, item.external), (4, narrow item.offset)]

def bytes : List UInt8 := layout item.header ++ (item.name.bytes ++ (item.extra ++ item.comment))

/-- What is listed of it. -/
def listed : ZipEntry where
  name := item.name.text
  size := item.size
  compressed := item.compressed
  modified := dosTime item.date item.time

/-- Every number and text fits where it is written. -/
structure Fits : Prop where
  name : item.name.Fits item.flags
  flags : item.flags < 2 ^ 16
  date : item.date < 2 ^ 16
  time : item.time < 2 ^ 16
  size : item.size < 2 ^ 64
  compressed : item.compressed < 2 ^ 64
  offset : item.offset < 2 ^ 64
  extra : item.extra.length < 2 ^ 16
  comment : item.comment.length < 2 ^ 16

theorem length_wides_lt : (layout item.wides).length < 2 ^ 16 := by
  rw [length_layout]
  unfold wides wide
  split <;> split <;> split <;> split <;> simp [widths]

theorem longs_wides {item : Item} (h : item.Fits) : longs (layout item.wides) =
    wideOf item.size ++ (wideOf item.compressed ++ wideOf item.offset) := by
  have hdisk : longs (layout (if 0xFFFF ≤ item.disk then [(4, item.disk)] else [])) = [] := by
    refine longs_short ?_
    split <;> simp [widths]
  rw [wides, longs_wide h.size, longs_wide h.compressed, longs_wide h.offset, hdisk, List.append_nil]

/-- The ZIP64 field is found among the other ones. -/
theorem zip64Sizes_extra {item : Item} (h : item.Fits) : zip64Sizes item.extra = .ok (longs (layout item.wides)) := by
  have hextra := h.extra
  have hlen : item.extra.length < 2 ^ 63 := by omega
  have hfront : item.extra.drop 0 = fieldBytes item.before ++ (item.zip64 ++ fieldBytes item.after) := rfl
  have hturns : item.extra.length < item.extra.length + 1 + 0 := Nat.lt_succ_self _
  obtain ⟨more, hmore, hskip⟩ := zip64From_fields hlen (Nat.zero_le _) hturns hfront
  have hin := length_at hfront (Nat.zero_le _)
  have hback := drop_behind hfront
  rw [zip64Sizes, hskip]
  by_cases hnone : item.wides = []
  · rw [zip64, if_pos hnone, List.nil_append, ← List.append_nil (fieldBytes item.after)] at hback
    obtain ⟨last, hlast, hend⟩ := zip64From_fields hlen hin hmore hback
    have hstop := length_at hback hin
    have hall : 0 + (fieldBytes item.before).length + (fieldBytes item.after).length = item.extra.length := by
      have hlength : item.extra.length = (fieldBytes item.before ++ (item.zip64 ++ fieldBytes item.after)).length := rfl
      rw [zip64, if_pos hnone, List.nil_append, List.length_append] at hlength
      omega
    rw [hend, hall, zip64From_end hlen (by omega), hnone]
    rfl
  · rw [zip64, if_neg hnone, List.append_assoc] at hback
    obtain ⟨more, rfl⟩ : ∃ n, more = n + 1 := ⟨more - 1, by omega⟩
    rw [zip64From_field hlen (by decide) item.length_wides_lt hin hback, if_pos rfl]

theorem length_layout_header : (layout item.header).length = entryLen := by
  rw [length_layout]
  simp [header, widths, entryLen]

theorem length_bytes : item.bytes.length =
    entryLen + item.name.bytes.length + item.extra.length + item.comment.length := by
  rw [bytes, List.length_append, length_layout_header, List.length_append, List.length_append]
  omega

/-- An entry is read where it is written, whatever follows. -/
theorem entryAt_written {item : Item} (hfits : item.Fits) {dir rest : List UInt8} {at_ : Nat} (hlen : dir.length < 2 ^ 63)
    (hat : at_ ≤ dir.length) (h : dir.drop at_ = item.bytes ++ rest) :
    entryAt dir at_ = .ok (item.listed, at_ + item.bytes.length) := by
  have hsplit : dir.drop at_ = layout item.header ++ (item.name.bytes ++ (item.extra ++ (item.comment ++ rest))) := by
    rw [h, bytes]
    simp only [List.append_assoc]
  have hheader := item.length_layout_header
  have hentry : entryLen = 46 := rfl
  have hin := length_at h hat
  rw [item.length_bytes] at hin
  have hplace (offset : Nat) (hoffset : offset ≤ 46) : (add at_ offset : Checked ZipError Nat) = .ok (at_ + offset) :=
    add_eq (by unfold wordMax; omega)
  have hread (i : Nat) {width n offset : Nat} (hget : item.header[i]? = some (width, n))
      (hoffset : widths (item.header.take i) = offset) (hn : n < 256 ^ width) :
      wordAt width dir (at_ + offset) = some n := wordAt_layout hsplit hat hget hoffset hn
  have hsig : u32At dir (at_ + 0) = some entrySig := hread 0 rfl rfl (by decide)
  have hflags : u16At dir (at_ + 8) = some item.flags := hread 3 rfl (by simp [header, widths]) hfits.flags
  have htime : u16At dir (at_ + 12) = some item.time := hread 5 rfl (by simp [header, widths]) hfits.time
  have hdate : u16At dir (at_ + 14) = some item.date := hread 6 rfl (by simp [header, widths]) hfits.date
  have hcompressed : u32At dir (at_ + 20) = some (narrow item.compressed) :=
    hread 8 rfl (by simp [header, widths]) (narrow_lt _)
  have hsize : u32At dir (at_ + 24) = some (narrow item.size) := hread 9 rfl (by simp [header, widths]) (narrow_lt _)
  have hnameLen : u16At dir (at_ + 28) = some item.name.bytes.length :=
    hread 10 rfl (by simp [header, widths]) hfits.name.length
  have hextraLen : u16At dir (at_ + 30) = some item.extra.length := hread 11 rfl (by simp [header, widths]) hfits.extra
  have hcommentLen : u16At dir (at_ + 32) = some item.comment.length :=
    hread 12 rfl (by simp [header, widths]) hfits.comment
  have hbehind := drop_behind hsplit
  rw [hheader] at hbehind
  have hname := getSlice_at hbehind (by omega)
  have hextra := getSlice_at (drop_behind hbehind) (by omega)
  have hneed {α : Type} (word : α) : need (some word) = .ok word := rfl
  rw [Nat.add_zero] at hsig
  rw [entryAt, if_neg (not_not.mpr hsig)]
  simp only [hplace 8 (by decide), hplace 12 (by decide), hplace 14 (by decide), hplace 20 (by decide),
    hplace 24 (by decide), hplace 28 (by decide), hplace 30 (by decide), hplace 32 (by decide),
    hplace entryLen (by decide), ok_bind, hflags, htime, hdate, hcompressed, hsize, hnameLen, hextraLen, hcommentLen,
    hneed]
  rw [add_eq (by unfold wordMax; omega), ok_bind, hname, hneed, ok_bind, add_eq (by unfold wordMax; omega), ok_bind,
    hextra, hneed, ok_bind, zip64Sizes_extra hfits, ok_bind, longs_wides hfits, widen_narrow, lift_ok, ok_bind]
  dsimp only
  rw [widen_narrow, lift_ok, ok_bind]
  dsimp only
  have hnext : at_ + entryLen + item.name.bytes.length + item.extra.length + item.comment.length =
      at_ + item.bytes.length := by
    rw [item.length_bytes]
    omega
  rw [add_eq (by unfold wordMax; omega), ok_bind, Name.nameOf_bytes hfits.name, hnext, listed]

end Item

/-! ## Directories -/

def itemBytes (items : List Item) : List UInt8 := items.flatMap Item.bytes

/-- A written directory is read back, wherever it stands. -/
theorem entriesFrom_written {items : List Item} (hfits : ∀ item ∈ items, item.Fits) {dir rest : List UInt8} {at_ : Nat}
    (hlen : dir.length < 2 ^ 63) (hat : at_ ≤ dir.length) (h : dir.drop at_ = itemBytes items ++ rest) :
    entriesFrom dir items.length at_ = .ok (items.map Item.listed) := by
  induction items generalizing at_ with
  | nil => rfl
  | cons item items ih =>
    rw [itemBytes, List.flatMap_cons, List.append_assoc] at h
    have hmore := ih (fun i hi => hfits i (List.mem_cons_of_mem item hi)) (length_at h hat) (drop_behind h)
    rw [List.length_cons, entriesFrom, Item.entryAt_written (hfits item List.mem_cons_self) hlen hat h, ok_bind]
    dsimp only
    rw [hmore]
    rfl

end Hyperfetch.Zip
