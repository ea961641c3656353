import Hyperfetch.Torrent.Bencode
import Hyperfetch.Weft.Checked

/-!
# Bencode by slices

`decode_bencode` again, with every slice, index and sum where the source has
it, each of which faults out of bounds; so does a loop that runs longer than
there are bytes. It computes what `decodeBencode` does (`decodeIn_eq`), so
nothing faults.
-/

namespace Hyperfetch.Torrent

open Weft Weft.Checked

/-- Where `byte` comes first in `data[pos..]`, from the front of `data`. -/
def positionIn (missing : BencodeError) (byte : UInt8) (data : List UInt8) (pos : Nat) : Checked BencodeError Nat := do
  let rest ← slice data pos data.length
  let found ← lift (okOr missing (rest.findIdx? (· == byte)))
  add found pos

def decodeIntegerIn (data : List UInt8) (tag : Nat) : Checked BencodeError (BValue × Nat) := do
  let pos ← add tag 1
  let stop ← positionIn .unterminatedInteger 0x65 data pos
  let text ← slice data pos stop
  let num ← lift (okOr .notANumber (parseI64 (asciiText text)))
  let next ← add stop 1
  .ok (.int num, next)

def decodeStringIn (data : List UInt8) (pos : Nat) : Checked BencodeError (BValue × Nat) := do
  let colon ← positionIn .missingColon 0x3A data pos
  let text ← slice data pos colon
  let len ← lift (okOr .notANumber (readDecimal u64Max (asciiText text)))
  let start ← add colon 1
  if start + len ≤ u64Max ∧ start + len ≤ data.length then do
    let bytes ← slice data start (start + len)
    .ok (.bytes bytes, start + len)
  else fail .lengthExceedsData

/-- `while pos < data.len() && data[pos] != b'e'`, and what comes after. -/
def itemsIn {α : Type} (unterminated : BencodeError) (item : Nat → Checked BencodeError (α × Nat)) (data : List UInt8) :
    Nat → Nat → Checked BencodeError (List α × Nat)
  | 0, _ => fault
  | turns + 1, pos =>
    if pos < data.length then do
      let b ← index data pos
      if b = 0x65 then do
        let next ← add pos 1
        .ok ([], next)
      else do
        let (value, next) ← item pos
        let (more, stop) ← itemsIn unterminated item data turns next
        .ok (value :: more, stop)
    else fail unterminated

def decodeEntryIn (decode : Nat → Checked BencodeError (BValue × Nat)) (pos : Nat) :
    Checked BencodeError ((List UInt8 × BValue) × Nat) := do
  let (key, next) ← decode pos
  match key with
  | .bytes k =>
    let (value, stop) ← decode next
    .ok ((k, value), stop)
  | _ => fail .keyNotAString

def decodeIn (data : List UInt8) : Nat → Nat → Checked BencodeError (BValue × Nat)
  | 0, _ => fail .tooDeep
  | left + 1, pos =>
    match data[pos]? with
    | none => fail .unexpectedEnd
    | some tag =>
      if tag = 0x69 then decodeIntegerIn data pos
      else if tag = 0x6C then do
        let first ← add pos 1
        let (list, stop) ← itemsIn .unterminatedList (decodeIn data left) data (data.length + 1) first
        .ok (.list list, stop)
      else if tag = 0x64 then do
        let first ← add pos 1
        let (dict, stop) ← itemsIn .unterminatedDictionary (decodeEntryIn (decodeIn data left)) data
          (data.length + 1) first
        .ok (.dict dict, stop)
      else if 0x30 ≤ tag ∧ tag ≤ 0x39 then decodeStringIn data pos
      else fail (.unexpectedByte pos tag)

/-! ## Nothing faults -/

/-- Reading from within the bytes, `checked` does what `item` does, and stays
within them. -/
structure Agrees {α : Type} (data : List UInt8) (checked : Nat → Checked BencodeError (α × Nat))
    (item : Nat → Except BencodeError (α × Nat)) : Prop where
  eq_lift : ∀ pos ≤ data.length, checked pos = lift (item pos)
  le : ∀ pos ≤ data.length, ∀ value next, item pos = .ok (value, next) → next ≤ data.length

section

variable {data : Slice} {pos : Nat}

theorem position_lt {byte : UInt8} {bytes : List UInt8} {pos found : Nat} (h : position byte bytes pos = some found) :
    found < bytes.length := by
  obtain ⟨i, hi, rfl⟩ := Option.map_eq_some_iff.mp h
  have hlt := (List.findIdx?_eq_some_iff_getElem.mp hi).1
  rw [List.length_drop] at hlt
  omega

theorem positionIn_eq (missing : BencodeError) (byte : UInt8) (hpos : pos ≤ data.bytes.length) :
    positionIn missing byte data.bytes pos = lift (okOr missing (position byte data.bytes pos)) := by
  have hrest : data.bytes.extract pos data.bytes.length = data.bytes.drop pos := by
    rw [List.extract_eq_take_drop, List.take_of_length_le (Nat.le_of_eq (List.length_drop))]
  rw [positionIn, slice_eq hpos (Nat.le_refl _), ok_bind, hrest, position]
  cases hfound : (data.bytes.drop pos).findIdx? (· == byte) with
  | none => rfl
  | some i =>
    have hlt := (List.findIdx?_eq_some_iff_getElem.mp hfound).1
    rw [List.length_drop] at hlt
    exact data.add_eq (by omega)

theorem decodeIntegerIn_eq (hpos : pos < data.bytes.length) :
    decodeIntegerIn data.bytes pos = lift (decodeInteger data.bytes pos) := by
  rw [decodeIntegerIn, decodeInteger, data.add_eq (by omega), ok_bind, positionIn_eq _ _ hpos, lift_bind]
  refine bind_congr_lift fun stop hstop => ?_
  have hlt := position_lt (okOr_eq_ok.mp hstop)
  have hle := position_le (okOr_eq_ok.mp hstop)
  rw [slice_eq hle (by omega), ok_bind, lift_bind]
  refine bind_congr_lift fun num _ => ?_
  rw [data.add_eq (by omega)]
  rfl

theorem decodeStringIn_eq (hpos : pos ≤ data.bytes.length) :
    decodeStringIn data.bytes pos = lift (decodeString data.bytes pos) := by
  rw [decodeStringIn, decodeString, positionIn_eq _ _ hpos, lift_bind]
  refine bind_congr_lift fun colon hcolon => ?_
  have hlt := position_lt (okOr_eq_ok.mp hcolon)
  have hle := position_le (okOr_eq_ok.mp hcolon)
  rw [slice_eq hle (by omega), ok_bind, lift_bind]
  refine bind_congr_lift fun len _ => ?_
  rw [data.add_eq (by omega), ok_bind]
  dsimp only
  split
  · rename_i hfits
    rw [slice_eq (Nat.le_add_right _ _) hfits.2]
    rfl
  · rfl

theorem decodeInteger_le {value : BValue} {next : Nat} (h : decodeInteger data.bytes pos = .ok (value, next)) :
    next ≤ data.bytes.length := by
  obtain ⟨stop, hstop, h⟩ := bind_eq_ok.mp h
  obtain ⟨num, _, h⟩ := bind_eq_ok.mp h
  cases h
  exact position_lt (okOr_eq_ok.mp hstop)

theorem decodeString_le {value : BValue} {next : Nat} (h : decodeString data.bytes pos = .ok (value, next)) :
    next ≤ data.bytes.length := by
  obtain ⟨colon, _, h⟩ := bind_eq_ok.mp h
  obtain ⟨len, _, h⟩ := bind_eq_ok.mp h
  dsimp only at h
  split at h
  · rename_i hfits
    cases h
    exact hfits.2
  · cases h

end

section Items

variable {α : Type} {data : Slice} {checked : Nat → Checked BencodeError (α × Nat)}
  {item : Nat → Except BencodeError (α × Nat)} {unterminated : BencodeError}

/-- The loop reads what `items` does, and has turns enough. -/
theorem itemsIn_eq (hitem : Agrees data.bytes checked item) (hadvances : Advances item) {turns pos : Nat}
    (hturns : data.bytes.length < turns + pos) (hpos : pos ≤ data.bytes.length) :
    itemsIn unterminated checked data.bytes turns pos = lift (items unterminated item data.bytes turns pos) := by
  induction turns generalizing pos with
  | zero => omega
  | succ turns ih =>
    rw [itemsIn, items]
    by_cases hlt : pos < data.bytes.length
    · obtain ⟨b, hb⟩ : ∃ b, data.bytes[pos]? = some b := ⟨_, List.getElem?_eq_getElem hlt⟩
      rw [if_pos hlt, index_eq hb, ok_bind, hb]
      dsimp only
      split
      · rw [data.add_eq (by omega)]
        rfl
      · rw [hitem.eq_lift pos hpos, lift_bind]
        refine bind_congr_lift fun p hread => ?_
        obtain ⟨value, next⟩ := p
        have hnext := hadvances pos value next hread
        dsimp only
        rw [ih (by omega) (hitem.le pos hpos value next hread), lift_bind]
        rfl
    · rw [if_neg hlt, List.getElem?_eq_none (by omega)]
      rfl

theorem items_le (hitem : Agrees data.bytes checked item) {turns pos stop : Nat} {values : List α}
    (hpos : pos ≤ data.bytes.length) (h : items unterminated item data.bytes turns pos = .ok (values, stop)) :
    stop ≤ data.bytes.length := by
  induction turns generalizing pos values stop with
  | zero => cases h
  | succ turns ih =>
    rw [items] at h
    cases hget : data.bytes[pos]? with
    | none =>
      rw [hget] at h
      cases h
    | some b =>
      have hlt := (List.getElem?_eq_some_iff.mp hget).1
      rw [hget] at h
      dsimp only at h
      split at h
      · cases h
        exact hlt
      · obtain ⟨⟨value, next⟩, hread, h⟩ := bind_eq_ok.mp h
        obtain ⟨⟨more, last⟩, hmore, h⟩ := bind_eq_ok.mp h
        cases h
        exact ih (hitem.le pos hpos value next hread) hmore

end Items

section

variable {data : Slice} {checked : Nat → Checked BencodeError (BValue × Nat)}
  {decode : Nat → Except BencodeError (BValue × Nat)}

theorem Agrees.entry (h : Agrees data.bytes checked decode) :
    Agrees data.bytes (decodeEntryIn checked) (decodeEntry decode) where
  eq_lift pos hpos := by
    rw [decodeEntryIn, decodeEntry, h.eq_lift pos hpos, lift_bind]
    refine bind_congr_lift fun p hread => ?_
    obtain ⟨key, next⟩ := p
    cases key with
    | bytes k =>
      dsimp only
      rw [h.eq_lift next (h.le pos hpos _ next hread), lift_bind]
      rfl
    | int => rfl
    | list => rfl
    | dict => rfl
  le pos hpos value stop hread := by
    obtain ⟨⟨key, middle⟩, hkey, hread⟩ := bind_eq_ok.mp hread
    cases key with
    | bytes k =>
      obtain ⟨⟨v, last⟩, hv, hread⟩ := bind_eq_ok.mp hread
      cases hread
      exact h.le middle (h.le pos hpos _ middle hkey) v _ hv
    | int => cases hread
    | list => cases hread
    | dict => cases hread

end

/-- The decoder by slices is the decoder. -/
theorem decodeIn_agrees (data : Slice) (left : Nat) :
    Agrees data.bytes (decodeIn data.bytes left) (decodeBencode data.bytes left) := by
  induction left with
  | zero => exact ⟨fun _ _ => rfl, fun pos _ value next h => by cases h⟩
  | succ left ih =>
    have hadvances := decodeBencode_advances data.bytes left
    constructor
    · intro pos hpos
      rw [decodeIn, decodeBencode]
      cases hget : data.bytes[pos]? with
      | none => rfl
      | some tag =>
        have hlt := (List.getElem?_eq_some_iff.mp hget).1
        dsimp only
        split
        · exact decodeIntegerIn_eq hlt
        · split
          · rw [data.add_eq (by omega), ok_bind, itemsIn_eq ih hadvances (by omega) hlt, lift_bind]
            rfl
          · split
            · rw [data.add_eq (by omega), ok_bind,
                itemsIn_eq ih.entry (decodeEntry_advances hadvances) (by omega) hlt, lift_bind]
              rfl
            · split
              · exact decodeStringIn_eq hpos
              · rfl
    · intro pos hpos value next h
      rw [decodeBencode] at h
      cases hget : data.bytes[pos]? with
      | none =>
        rw [hget] at h
        cases h
      | some tag =>
        have hlt := (List.getElem?_eq_some_iff.mp hget).1
        rw [hget] at h
        dsimp only at h
        split at h
        · exact decodeInteger_le h
        · split at h
          · obtain ⟨⟨list, stop⟩, hitems, h⟩ := bind_eq_ok.mp h
            cases h
            exact items_le ih hlt hitems
          · split at h
            · obtain ⟨⟨dict, stop⟩, hitems, h⟩ := bind_eq_ok.mp h
              cases h
              exact items_le ih.entry hlt hitems
            · split at h
              · exact decodeString_le h
              · cases h

end Hyperfetch.Torrent
