import Hyperfetch.Torrent.Slices
import Hyperfetch.Weft.Words

/-!
# Decoding undoes encoding

`encode` writes a value as bencode does. Where a value's encoding stands in
the bytes, `decodeBencode` reads that value and ends right behind it, whatever
follows, if the value is nested no deeper than the levels left and its integers
are `i64`s. The keys of a dictionary may come in any order.
-/

namespace Hyperfetch.Torrent

open Weft

/-! ## The encoding -/

def asciiBytes (text : List Char) : List UInt8 := text.map fun c => UInt8.ofNat c.toNat

/-- A number's digits, a sign before a negative one's. -/
def signedDigits : Int → List Char
  | .ofNat n => Nat.toDigits 10 n
  | .negSucc n => '-' :: Nat.toDigits 10 (n + 1)

def encodeBytes (bytes : List UInt8) : List UInt8 := asciiBytes (Nat.toDigits 10 bytes.length) ++ 0x3A :: bytes

mutual

def encode : BValue → List UInt8
  | .int value => 0x69 :: (asciiBytes (signedDigits value) ++ [0x65])
  | .bytes value => encodeBytes value
  | .list items => 0x6C :: (encodeItems items ++ [0x65])
  | .dict entries => 0x64 :: (encodeEntries entries ++ [0x65])

def encodeItems : List BValue → List UInt8
  | [] => []
  | item :: more => encode item ++ encodeItems more

def encodeEntries : List (List UInt8 × BValue) → List UInt8
  | [] => []
  | (key, value) :: more => encodeBytes key ++ (encode value ++ encodeEntries more)

end

/-- Nested at most `left` levels deep, with integers of `i64`. -/
def Fits : Nat → BValue → Prop
  | 0, _ => False
  | _ + 1, .int value => -2 ^ 63 ≤ value ∧ value < 2 ^ 63
  | _ + 1, .bytes _ => True
  | left + 1, .list items => ∀ item ∈ items, Fits left item
  | left + 1, .dict entries => ∀ entry ∈ entries, Fits left entry.2

theorem encodeItems_eq (items : List BValue) : encodeItems items = items.flatMap encode := by
  induction items with
  | nil => rfl
  | cons item more ih => rw [encodeItems, ih, List.flatMap_cons]

theorem encodeEntries_eq (entries : List (List UInt8 × BValue)) :
    encodeEntries entries = entries.flatMap fun entry => encodeBytes entry.1 ++ encode entry.2 := by
  induction entries with
  | nil => rfl
  | cons entry more ih => rw [encodeEntries, ih, List.flatMap_cons, List.append_assoc]

/-! ## Digits as bytes -/

theorem toNat_of_isDigit {c : Char} (h : c.isDigit = true) : 0x30 ≤ c.toNat ∧ c.toNat ≤ 0x39 := by
  rw [Char.isDigit, Bool.and_eq_true, decide_eq_true_eq, decide_eq_true_eq] at h
  exact ⟨UInt32.le_iff_toNat_le.mp h.1, UInt32.le_iff_toNat_le.mp h.2⟩

theorem asciiText_asciiBytes {text : List Char} (h : ∀ c ∈ text, c.toNat < 256) : asciiText (asciiBytes text) = text := by
  induction text with
  | nil => rfl
  | cons c text ih =>
    have hc : c.toNat < 256 := h c List.mem_cons_self
    have hback : Char.ofNat (UInt8.ofNat c.toNat).toNat = c := by
      rw [UInt8.toNat_ofNat_of_lt' hc, Char.ofNat_toNat]
    show Char.ofNat (UInt8.ofNat c.toNat).toNat :: asciiText (asciiBytes text) = c :: text
    rw [hback, ih fun d hd => h d (List.mem_cons_of_mem c hd)]

/-- A byte that is none of a text's characters is none of its bytes. -/
theorem not_mem_asciiBytes {text : List Char} {byte : UInt8} (h : ∀ c ∈ text, c.toNat < 256 ∧ c.toNat ≠ byte.toNat) :
    byte ∉ asciiBytes text := by
  intro hin
  obtain ⟨c, hc, rfl⟩ := List.mem_map.mp hin
  obtain ⟨hlt, hne⟩ := h c hc
  rw [UInt8.toNat_ofNat_of_lt' hlt] at hne
  exact hne rfl

theorem toNat_of_mem_toDigits {n : Nat} {c : Char} (h : c ∈ Nat.toDigits 10 n) : 0x30 ≤ c.toNat ∧ c.toNat ≤ 0x39 :=
  toNat_of_isDigit ((decimal_toDigits n).all c h)

theorem toNat_of_mem_signedDigits {value : Int} {c : Char} (h : c ∈ signedDigits value) :
    0x2D ≤ c.toNat ∧ c.toNat ≤ 0x39 := by
  cases value with
  | ofNat n =>
    have := toNat_of_mem_toDigits h
    omega
  | negSucc n =>
    rcases List.mem_cons.mp h with rfl | h
    · decide
    · have := toNat_of_mem_toDigits h
      omega

theorem readDecimal_toDigits {n top : Nat} (h : n ≤ top) : readDecimal top (Nat.toDigits 10 n) = some n :=
  readDecimal_eq_some.mpr ⟨decimal_toDigits n, h⟩

/-- Every `i64` is read back from its digits. -/
theorem parseI64_signedDigits {value : Int} (hlow : -2 ^ 63 ≤ value) (hhigh : value < 2 ^ 63) :
    parseI64 (signedDigits value) = some value := by
  cases value with
  | ofNat n =>
    have hn : (n : Int) < 2 ^ 63 := hhigh
    have hread : readDecimal (2 ^ 63 - 1) (Nat.toDigits 10 n) = some n := readDecimal_toDigits (by omega)
    have hplain : parseI64 (Nat.toDigits 10 n) = (readDecimal (2 ^ 63 - 1) (Nat.toDigits 10 n)).map Int.ofNat := by
      -- a sign is no digit
      unfold parseI64
      split
      · rename_i heq
        have hdigit := (decimal_toDigits n).all '-' (by rw [heq]; exact List.mem_cons_self)
        cases hdigit
      · rename_i heq
        have hdigit := (decimal_toDigits n).all '+' (by rw [heq]; exact List.mem_cons_self)
        cases hdigit
      · rfl
    show parseI64 (Nat.toDigits 10 n) = _
    rw [hplain, hread]
    rfl
  | negSucc n =>
    show (readDecimal (2 ^ 63) (Nat.toDigits 10 (n + 1))).map (fun n => -(n : Int)) = _
    rw [readDecimal_toDigits (by omega)]
    rfl

/-! ## What stands at a position -/

section

variable {data : List UInt8} {pos : Nat} {front rest : List UInt8}

theorem getElem?_at {byte : UInt8} (h : data.drop pos = byte :: rest) : data[pos]? = some byte := by
  rw [← Nat.add_zero pos, ← List.getElem?_drop, h]
  rfl

theorem position_at {byte : UInt8} (h : data.drop pos = front ++ byte :: rest) (hnot : byte ∉ front) :
    position byte data pos = some (pos + front.length) := by
  have hfind : (front ++ byte :: rest).findIdx? (· == byte) = some front.length := by
    have hnone : front.findIdx? (· == byte) = none := by
      rw [List.findIdx?_eq_none_iff]
      intro b hb
      refine beq_false_of_ne ?_
      rintro rfl
      exact hnot hb
    rw [List.findIdx?_append, hnone, List.findIdx?_cons, if_pos (beq_self_eq_true byte)]
    rw [Option.map_some, Nat.zero_add]
    rfl
  rw [position, h, hfind, Option.map_some, Nat.add_comm]

end

/-! ## Reading back -/

section

variable {data : List UInt8} {pos : Nat} {rest : List UInt8}

theorem decodeInteger_encoded {value : Int} (hlow : -2 ^ 63 ≤ value) (hhigh : value < 2 ^ 63)
    (h : data.drop pos = encode (.int value) ++ rest) :
    decodeInteger data pos = .ok (.int value, pos + (encode (.int value)).length) := by
  have htext : data.drop (pos + 1) = asciiBytes (signedDigits value) ++ 0x65 :: rest := by
    have hdigits : encode (.int value) ++ rest = [0x69] ++ (asciiBytes (signedDigits value) ++ 0x65 :: rest) := by
      simp [encode]
    exact drop_behind (h.trans hdigits)
  have hsmall : ∀ c ∈ signedDigits value, c.toNat < 256 := fun c hc => by
    have := toNat_of_mem_signedDigits hc
    omega
  have hstop : position 0x65 data (pos + 1) = some (pos + 1 + (asciiBytes (signedDigits value)).length) := by
    refine position_at htext (not_mem_asciiBytes fun c hc => ⟨hsmall c hc, ?_⟩)
    have := toNat_of_mem_signedDigits hc
    show c.toNat ≠ 0x65
    omega
  rw [decodeInteger, hstop]
  show (do
    let num ← okOr .notANumber (parseI64 (asciiText (data.extract (pos + 1) _)))
    .ok (BValue.int num, _ + 1) : Except BencodeError (BValue × Nat)) = _
  rw [extract_front htext, asciiText_asciiBytes hsmall, parseI64_signedDigits hlow hhigh]
  show Except.ok (BValue.int value, _) = _
  congr 2
  rw [encode, List.length_cons, List.length_append, List.length_singleton]
  omega

/-- A byte string is read wherever it stands. -/
theorem decodeString_encoded {bytes : List UInt8} (hlen : data.length < 2 ^ 63)
    (h : data.drop pos = encodeBytes bytes ++ rest) :
    decodeString data pos = .ok (.bytes bytes, pos + (encodeBytes bytes).length) := by
  have htext : data.drop pos = asciiBytes (Nat.toDigits 10 bytes.length) ++ 0x3A :: (bytes ++ rest) := by
    rw [h, encodeBytes, List.append_assoc, List.cons_append]
  have hsmall : ∀ c ∈ Nat.toDigits 10 bytes.length, c.toNat < 256 := fun c hc => by
    have := toNat_of_mem_toDigits hc
    omega
  have hcolon : position 0x3A data pos = some (pos + (asciiBytes (Nat.toDigits 10 bytes.length)).length) := by
    refine position_at htext (not_mem_asciiBytes fun c hc => ⟨hsmall c hc, ?_⟩)
    have := toNat_of_mem_toDigits hc
    show c.toNat ≠ 0x3A
    omega
  have hin : pos + (encodeBytes bytes).length ≤ data.length :=
    length_at h (Nat.le_of_lt (lt_of_drop h (by simp [encodeBytes])))
  have hwhole : (encodeBytes bytes).length = (asciiBytes (Nat.toDigits 10 bytes.length)).length + 1 + bytes.length := by
    rw [encodeBytes, List.length_append, List.length_cons]
    omega
  have hread : readDecimal u64Max (Nat.toDigits 10 bytes.length) = some bytes.length := by
    refine readDecimal_toDigits ?_
    unfold u64Max
    omega
  have hbytes : data.drop (pos + (asciiBytes (Nat.toDigits 10 bytes.length)).length + 1) = bytes ++ rest := by
    have hsplit : data.drop pos = (asciiBytes (Nat.toDigits 10 bytes.length) ++ [0x3A]) ++ (bytes ++ rest) := by
      rw [htext, List.append_assoc, List.singleton_append]
    have hback := drop_behind hsplit
    rwa [List.length_append, List.length_singleton, ← Nat.add_assoc] at hback
  rw [decodeString, hcolon]
  show (do
    let len ← okOr .notANumber (readDecimal u64Max (asciiText (data.extract pos _)))
    _ : Except BencodeError (BValue × Nat)) = _
  rw [extract_front htext, asciiText_asciiBytes hsmall, hread]
  show (if _ then _ else _ : Except BencodeError (BValue × Nat)) = _
  rw [if_pos ⟨by unfold u64Max; omega, by omega⟩, extract_front hbytes]
  congr 2
  omega

/-- A list of items is read one by one up to the `e`. -/
theorem items_encoded {α : Type} {unterminated : BencodeError} {item : Nat → Except BencodeError (α × Nat)}
    {enc : α → List UInt8} {values : List α}
    (hitem : ∀ value ∈ values, ∀ pos rest, data.drop pos = enc value ++ rest →
      item pos = .ok (value, pos + (enc value).length))
    (hhead : ∀ value ∈ values, ∃ tag more, enc value = tag :: more ∧ tag ≠ 0x65)
    (h : data.drop pos = values.flatMap enc ++ 0x65 :: rest) {fuel : Nat} (hfuel : values.length < fuel) :
    items unterminated item data fuel pos = .ok (values, pos + (values.flatMap enc).length + 1) := by
  induction values generalizing pos fuel with
  | nil =>
    obtain ⟨fuel, rfl⟩ := Nat.exists_eq_add_of_lt hfuel
    rw [items, getElem?_at h]
    rfl
  | cons value values ih =>
    obtain ⟨fuel, rfl⟩ : ∃ n, fuel = n + 1 := ⟨fuel - 1, by omega⟩
    obtain ⟨tag, more, htag, hne⟩ := hhead value List.mem_cons_self
    rw [List.flatMap_cons, List.append_assoc] at h
    have hget : data[pos]? = some tag := by
      rw [htag] at h
      exact getElem?_at h
    rw [items, hget]
    dsimp only
    rw [if_neg hne, hitem value List.mem_cons_self pos _ h]
    have hmore := ih (fun v hv => hitem v (List.mem_cons_of_mem value hv))
      (fun v hv => hhead v (List.mem_cons_of_mem value hv)) (drop_behind h)
      (Nat.lt_of_succ_lt_succ hfuel)
    show (items unterminated item data fuel (pos + (enc value).length) >>= fun p => _) = _
    rw [hmore]
    show Except.ok (value :: values, _) = _
    congr 2
    rw [List.flatMap_cons, List.length_append]
    omega

end

/-- A byte string's encoding begins with a digit. -/
theorem encodeBytes_head (bytes : List UInt8) :
    ∃ tag more, encodeBytes bytes = tag :: more ∧ 0x30 ≤ tag.toNat ∧ tag.toNat ≤ 0x39 := by
  cases hdigits : Nat.toDigits 10 bytes.length with
  | nil => exact absurd hdigits Nat.toDigits_ne_nil
  | cons c digits =>
    have hc := toNat_of_mem_toDigits (n := bytes.length) (c := c) (by rw [hdigits]; exact List.mem_cons_self)
    refine ⟨UInt8.ofNat c.toNat, asciiBytes digits ++ 0x3A :: bytes, ?_, ?_⟩
    · rw [encodeBytes, hdigits]
      rfl
    · rw [UInt8.toNat_ofNat_of_lt' (by omega : c.toNat < 256)]
      exact hc

/-- No value's encoding begins with the `e` that ends a list. -/
theorem encode_head (value : BValue) : ∃ tag more, encode value = tag :: more ∧ tag ≠ 0x65 := by
  cases value with
  | int value => exact ⟨_, _, by rw [encode], by decide⟩
  | list items => exact ⟨_, _, by rw [encode], by decide⟩
  | dict entries => exact ⟨_, _, by rw [encode], by decide⟩
  | bytes bytes =>
    obtain ⟨tag, more, heq, _, hhigh⟩ := encodeBytes_head bytes
    refine ⟨tag, more, by rw [encode, heq], ?_⟩
    rintro rfl
    revert hhigh
    decide

theorem length_le_flatMap {α : Type} {enc : α → List UInt8} {values : List α} (h : ∀ value ∈ values, enc value ≠ []) :
    values.length ≤ (values.flatMap enc).length := by
  induction values with
  | nil => exact Nat.le_refl _
  | cons value values ih =>
    have hpos := List.length_pos_of_ne_nil (h value List.mem_cons_self)
    have hmore := ih fun v hv => h v (List.mem_cons_of_mem value hv)
    rw [List.length_cons, List.flatMap_cons, List.length_append]
    omega

/-- A level left for a value is left for its key. -/
theorem Fits.key {left : Nat} {value : BValue} (h : Fits left value) (key : List UInt8) : Fits left (.bytes key) := by
  cases left with
  | zero => exact h.elim
  | succ left => trivial

theorem decodeEntry_encoded {data : List UInt8} {left : Nat} {key : List UInt8} {value : BValue} {pos : Nat}
    {rest : List UInt8}
    (hread : ∀ v, Fits left v → ∀ pos rest, data.drop pos = encode v ++ rest →
      decodeBencode data left pos = .ok (v, pos + (encode v).length))
    (hfits : Fits left value) (h : data.drop pos = (encodeBytes key ++ encode value) ++ rest) :
    decodeEntry (decodeBencode data left) pos =
      .ok ((key, value), pos + (encodeBytes key ++ encode value).length) := by
  rw [List.append_assoc] at h
  have hkey := hread (.bytes key) (hfits.key key) pos _ (by rw [encode]; exact h)
  rw [encode] at hkey
  have hvalue := hread value hfits _ rest (drop_behind h)
  rw [decodeEntry, hkey]
  show (decodeBencode data left (pos + (encodeBytes key).length) >>= fun p => _) = _
  rw [hvalue, List.length_append, ← Nat.add_assoc]
  rfl

/-- A value that fits is read wherever its encoding stands. -/
theorem decodeBencode_encoded {data : List UInt8} (hlen : data.length < 2 ^ 63) {left : Nat} {value : BValue}
    (hfits : Fits left value) {pos : Nat} {rest : List UInt8} (h : data.drop pos = encode value ++ rest) :
    decodeBencode data left pos = .ok (value, pos + (encode value).length) := by
  induction left generalizing value pos rest with
  | zero => exact hfits.elim
  | succ left ih =>
    have hinside {front back : List UInt8} (hsplit : data.drop (pos + 1) = front ++ 0x65 :: back) :
        front.length < data.length + 1 := by
      have := congrArg List.length hsplit
      rw [List.length_drop, List.length_append, List.length_cons] at this
      omega
    cases value with
    | int value =>
      have hread := decodeInteger_encoded hfits.1 hfits.2 h
      rw [encode] at h
      rw [decodeBencode, getElem?_at h]
      exact hread
    | bytes bytes =>
      rw [encode] at h ⊢
      have hread := decodeString_encoded hlen h
      obtain ⟨tag, more, heq, hlow, hhigh⟩ := encodeBytes_head bytes
      rw [heq] at h
      rw [decodeBencode, getElem?_at h]
      have hne (byte : UInt8) (hbyte : 0x39 < byte.toNat) : tag ≠ byte := by
        rintro rfl
        omega
      dsimp only
      rw [if_neg (hne 0x69 (by decide)), if_neg (hne 0x6C (by decide)), if_neg (hne 0x64 (by decide)),
        if_pos ⟨UInt8.le_iff_toNat_le.mpr hlow, UInt8.le_iff_toNat_le.mpr hhigh⟩]
      exact hread
    | list values =>
      have hitems : data.drop (pos + 1) = values.flatMap encode ++ 0x65 :: rest := by
        have hsplit : data.drop pos = [0x6C] ++ (values.flatMap encode ++ 0x65 :: rest) := by
          rw [h, encode, encodeItems_eq]
          simp
        exact drop_behind hsplit
      have hfuel : values.length < data.length + 1 :=
        Nat.lt_of_le_of_lt (length_le_flatMap fun value _ => by
          obtain ⟨tag, more, heq, _⟩ := encode_head value
          simp [heq]) (hinside hitems)
      have hread : items .unterminatedList (decodeBencode data left) data (data.length + 1) (pos + 1) = _ :=
        items_encoded (fun value hvalue pos rest hat => ih (hfits value hvalue) hat)
          (fun value _ => encode_head value) hitems hfuel
      rw [encode] at h
      rw [decodeBencode, getElem?_at h]
      show (items .unterminatedList (decodeBencode data left) data (data.length + 1) (pos + 1) >>= fun p => _) = _
      rw [hread]
      show Except.ok (BValue.list values, _) = _
      rw [encode, encodeItems_eq, List.length_cons, List.length_append, List.length_singleton]
      congr 2
      omega
    | dict entries =>
      set enc := fun entry : List UInt8 × BValue => encodeBytes entry.1 ++ encode entry.2 with henc
      have hhead (entry : List UInt8 × BValue) : ∃ tag more, enc entry = tag :: more ∧ tag ≠ 0x65 := by
        obtain ⟨tag, more, heq, _, hhigh⟩ := encodeBytes_head entry.1
        refine ⟨tag, more ++ encode entry.2, by rw [henc]; simp [heq], ?_⟩
        rintro rfl
        revert hhigh
        decide
      have hitems : data.drop (pos + 1) = entries.flatMap enc ++ 0x65 :: rest := by
        have hsplit : data.drop pos = [0x64] ++ (entries.flatMap enc ++ 0x65 :: rest) := by
          rw [h, encode, encodeEntries_eq]
          simp [henc]
        exact drop_behind hsplit
      have hfuel : entries.length < data.length + 1 :=
        Nat.lt_of_le_of_lt (length_le_flatMap fun entry _ => by
          obtain ⟨tag, more, heq, _⟩ := hhead entry
          simp [heq]) (hinside hitems)
      have hread : items .unterminatedDictionary (decodeEntry (decodeBencode data left)) data (data.length + 1)
          (pos + 1) = _ :=
        items_encoded (fun entry hentry pos rest hat =>
          decodeEntry_encoded (fun v hv pos rest hat => ih hv hat) (hfits entry hentry) hat)
          (fun entry _ => hhead entry) hitems hfuel
      rw [encode] at h
      rw [decodeBencode, getElem?_at h]
      show (items .unterminatedDictionary (decodeEntry (decodeBencode data left)) data (data.length + 1) (pos + 1) >>=
        fun p => _) = _
      rw [hread]
      show Except.ok (BValue.dict entries, _) = _
      rw [encode, encodeEntries_eq, List.length_cons, List.length_append, List.length_singleton]
      congr 2
      omega

/-- Where a value's encoding stands, the decoder reads that value and leaves
what is behind it, if it is nested within the limit; and from anywhere within
any bytes, at any depth, it ends without a fault. -/
theorem decoding_undoes_encoding (data : Checked.Slice) :
    (∀ pos value rest, data.bytes.drop pos = encode value ++ rest → Fits (maxBencodeDepth + 1) value →
      ∃ next, decodeIn data.bytes (maxBencodeDepth + 1) pos = .ok (value, next) ∧
        next = pos + (encode value).length ∧ data.bytes.drop next = rest) ∧
    ∀ left pos, pos ≤ data.bytes.length → decodeIn data.bytes left pos ≠ Checked.fault := by
  constructor
  · intro pos value rest h hfits
    have hread := decodeBencode_encoded data.length_le hfits h
    have hpos : pos ≤ data.bytes.length := by
      obtain ⟨tag, more, heq, _⟩ := encode_head value
      exact Nat.le_of_lt (lt_of_drop h (by simp [heq]))
    refine ⟨_, ?_, rfl, drop_behind h⟩
    rw [(decodeIn_agrees data _).eq_lift pos hpos, hread]
    rfl
  · intro left pos hpos
    rw [(decodeIn_agrees data left).eq_lift pos hpos]
    exact Checked.lift_ne_fault _

example : encode (.dict [([0x61], .int (-3)), ([0x62], .list [.bytes [0x78], .bytes []])]) =
    asciiBytes "d1:ai-3e1:bl1:x0:ee".toList := by decide

end Hyperfetch.Torrent
