import Hyperfetch.Range
import Hyperfetch.Text
import Hyperfetch.Weft.Fields

/-!
# Bencode (`decode_bencode`)

The values a .torrent is made of, read from its bytes by position. Values nested
deeper than `MAX_BENCODE_DEPTH` are refused, so the depth left bounds the
recursion; the loops over a list's or a dictionary's items are bounded by the
bytes there are, which is bound enough (`items_enough`): every value read moves
the position on (`decodeBencode_advances`).
-/

namespace Hyperfetch.Torrent

open Weft

/-- `MAX_BENCODE_DEPTH`. -/
def maxBencodeDepth : Nat := 64

inductive BValue
  | int (value : Int)
  | bytes (value : List UInt8)
  | list (items : List BValue)
  | dict (entries : List (List UInt8 × BValue))

inductive BencodeError
  | tooDeep
  | unexpectedEnd
  | unterminatedInteger
  /-- What `parse` says of a number. -/
  | notANumber
  | unterminatedList
  | keyNotAString
  | unterminatedDictionary
  | missingColon
  | lengthExceedsData
  | unexpectedByte (offset : Nat) (byte : UInt8)
  deriving DecidableEq, Repr

def asciiText (bytes : List UInt8) : List Char := bytes.map fun b => Char.ofNat b.toNat

/-- `parse::<i64>`: a sign or none, then digits. -/
def parseI64 (text : List Char) : Option Int :=
  match text with
  | '-' :: digits => (readDecimal (2 ^ 63) digits).map fun n => -(n : Int)
  | '+' :: digits => (readDecimal (2 ^ 63 - 1) digits).map Int.ofNat
  | digits => (readDecimal (2 ^ 63 - 1) digits).map Int.ofNat

/-- Where `byte` comes next. -/
def position (byte : UInt8) (data : List UInt8) (pos : Nat) : Option Nat :=
  ((data.drop pos).findIdx? (· == byte)).map (· + pos)

/-- The items up to the `e` that ends them, and what is behind it. -/
def items {α : Type} (unterminated : BencodeError) (item : Nat → Except BencodeError (α × Nat)) (data : List UInt8) :
    Nat → Nat → Except BencodeError (List α × Nat)
  | 0, _ => .error unterminated
  | fuel + 1, pos =>
    match data[pos]? with
    | none => .error unterminated
    | some b =>
      if b = 0x65 then .ok ([], pos + 1)
      else do
        let (value, next) ← item pos
        let (more, stop) ← items unterminated item data fuel next
        .ok (value :: more, stop)

def decodeInteger (data : List UInt8) (pos : Nat) : Except BencodeError (BValue × Nat) := do
  let stop ← okOr .unterminatedInteger (position 0x65 data (pos + 1))
  let num ← okOr .notANumber (parseI64 (asciiText (data.extract (pos + 1) stop)))
  .ok (.int num, stop + 1)

def decodeString (data : List UInt8) (pos : Nat) : Except BencodeError (BValue × Nat) := do
  let colon ← okOr .missingColon (position 0x3A data pos)
  let len ← okOr .notANumber (readDecimal u64Max (asciiText (data.extract pos colon)))
  let start := colon + 1
  -- `checked_add`, then no further than the data
  if start + len ≤ u64Max ∧ start + len ≤ data.length then
    .ok (.bytes (data.extract start (start + len)), start + len)
  else .error .lengthExceedsData

/-- A key and its value. -/
def decodeEntry (decode : Nat → Except BencodeError (BValue × Nat)) (pos : Nat) :
    Except BencodeError ((List UInt8 × BValue) × Nat) := do
  let (key, next) ← decode pos
  match key with
  | .bytes k =>
    let (value, stop) ← decode next
    .ok ((k, value), stop)
  | _ => .error .keyNotAString

/-- A value at `pos`; `left` more levels may be nested. -/
def decodeBencode (data : List UInt8) : Nat → Nat → Except BencodeError (BValue × Nat)
  | 0, _ => .error .tooDeep
  | left + 1, pos =>
    match data[pos]? with
    | none => .error .unexpectedEnd
    | some tag =>
      if tag = 0x69 then decodeInteger data pos
      else if tag = 0x6C then do
        let (list, stop) ← items .unterminatedList (decodeBencode data left) data (data.length + 1) (pos + 1)
        .ok (.list list, stop)
      else if tag = 0x64 then do
        let (dict, stop) ← items .unterminatedDictionary (decodeEntry (decodeBencode data left)) data
          (data.length + 1) (pos + 1)
        .ok (.dict dict, stop)
      else if 0x30 ≤ tag ∧ tag ≤ 0x39 then decodeString data pos
      else .error (.unexpectedByte pos tag)

/-- The first value under `key`. -/
def dictGet (dict : List (List UInt8 × BValue)) (key : List UInt8) : Option BValue :=
  (dict.find? fun entry => entry.1 == key).map (·.2)

/-! ## The bound on the loops -/

/-- Every value read is behind where it begins. -/
def Advances {α : Type} (item : Nat → Except BencodeError (α × Nat)) : Prop :=
  ∀ pos value next, item pos = .ok (value, next) → pos < next

section Items

variable {α : Type} {unterminated : BencodeError} {item : Nat → Except BencodeError (α × Nat)} {data : List UInt8}

/-- Any bound beyond the bytes there are reads the same. -/
theorem items_enough (hitem : Advances item) {fuel more pos : Nat} (hfuel : data.length < fuel + pos)
    (hmore : data.length < more + pos) :
    items unterminated item data fuel pos = items unterminated item data more pos := by
  induction fuel generalizing more pos with
  | zero =>
    have hnone : data[pos]? = none := List.getElem?_eq_none (by omega)
    cases more with
    | zero => rfl
    | succ more =>
      rw [items, items, hnone]
  | succ fuel ih =>
    cases more with
    | zero =>
      have hnone : data[pos]? = none := List.getElem?_eq_none (by omega)
      rw [items, items, hnone]
    | succ more =>
      rw [items, items]
      cases data[pos]? with
      | none => rfl
      | some b =>
        dsimp only
        split
        · rfl
        · cases hread : item pos with
          | error e => rfl
          | ok p =>
            obtain ⟨value, next⟩ := p
            have hnext := hitem pos value next hread
            show (items unterminated item data fuel next >>= _) = (items unterminated item data more next >>= _)
            rw [@ih more next (by omega) (by omega)]

theorem items_advance {fuel pos stop : Nat} {values : List α} (hitem : Advances item)
    (h : items unterminated item data fuel pos = .ok (values, stop)) : pos < stop := by
  induction fuel generalizing pos values stop with
  | zero => cases h
  | succ fuel ih =>
    rw [items] at h
    cases hget : data[pos]? with
    | none =>
      rw [hget] at h
      cases h
    | some b =>
      rw [hget] at h
      dsimp only at h
      split at h
      · cases h
        exact Nat.lt_succ_self pos
      · obtain ⟨⟨value, next⟩, hread, h⟩ := bind_eq_ok.mp h
        obtain ⟨⟨more, last⟩, hmore, h⟩ := bind_eq_ok.mp h
        cases h
        exact Nat.lt_trans (hitem pos value next hread) (ih hmore)

end Items

theorem position_le {byte : UInt8} {data : List UInt8} {pos found : Nat} (h : position byte data pos = some found) :
    pos ≤ found := by
  obtain ⟨i, _, rfl⟩ := Option.map_eq_some_iff.mp h
  exact Nat.le_add_left pos i

theorem decodeEntry_advances {decode : Nat → Except BencodeError (BValue × Nat)} (hdecode : Advances decode) :
    Advances (decodeEntry decode) := by
  intro pos value next h
  obtain ⟨⟨key, middle⟩, hkey, h⟩ := bind_eq_ok.mp h
  cases key with
  | bytes k =>
    obtain ⟨⟨v, stop⟩, hv, h⟩ := bind_eq_ok.mp h
    cases h
    exact Nat.lt_trans (hdecode pos _ middle hkey) (hdecode middle v _ hv)
  | int => cases h
  | list => cases h
  | dict => cases h

theorem decodeBencode_advances (data : List UInt8) (left : Nat) : Advances (decodeBencode data left) := by
  induction left with
  | zero =>
    intro pos value next h
    cases h
  | succ left ih =>
    intro pos value next h
    rw [decodeBencode] at h
    cases hget : data[pos]? with
    | none =>
      rw [hget] at h
      cases h
    | some tag =>
      rw [hget] at h
      dsimp only at h
      split at h
      · obtain ⟨stop, hstop, h⟩ := bind_eq_ok.mp h
        obtain ⟨num, _, h⟩ := bind_eq_ok.mp h
        have hle := position_le (okOr_eq_ok.mp hstop)
        cases h
        omega
      · split at h
        · obtain ⟨⟨list, stop⟩, hitems, h⟩ := bind_eq_ok.mp h
          have hlt := items_advance ih hitems
          cases h
          omega
        · split at h
          · obtain ⟨⟨dict, stop⟩, hitems, h⟩ := bind_eq_ok.mp h
            have hlt := items_advance (decodeEntry_advances ih) hitems
            cases h
            omega
          · split at h
            · obtain ⟨colon, hcolon, h⟩ := bind_eq_ok.mp h
              obtain ⟨len, _, h⟩ := bind_eq_ok.mp h
              have hle := position_le (okOr_eq_ok.mp hcolon)
              dsimp only at h
              split at h
              · cases h
                omega
              · cases h
            · cases h

end Hyperfetch.Torrent
