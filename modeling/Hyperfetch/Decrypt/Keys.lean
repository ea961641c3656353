import Hyperfetch.Text
import Hyperfetch.Weft.Base64
import Hyperfetch.Weft.Text

/-!
# Keys as text (`decrypt.rs`)

`parse_hex_or_base64` guesses how a key is spelled. The engines of the base64 crate
and the disk are not here: an engine reads an encoding with its padding and nothing
else (`Base64.Reads`), and the disk may hold anything. A key in hexadecimal is read
(`parse_hex`); one in base64 only if it needs no padding, as the padding is taken off
before engines that want it, and if it has no `-`, which goes as a separator does
(`parse_base64_iff`).
-/

namespace Hyperfetch

namespace Decrypt

open Weft

/-- The engines `STANDARD` and `URL_SAFE`, and `fs::read`. -/
structure Outside where
  standard : Text → Option (List UInt8)
  urlSafe : Text → Option (List UInt8)
  read : Text → Option (List UInt8)

/-- `char::to_digit(16)`. -/
def hexDigit (c : Char) : Option Nat :=
  if '0' ≤ c ∧ c ≤ '9' then some (c.toNat - 48)
  else if 'a' ≤ c ∧ c ≤ 'f' then some (c.toNat - 87)
  else if 'A' ≤ c ∧ c ≤ 'F' then some (c.toNat - 55)
  else none

/-- `is_ascii_hexdigit`. -/
def isHexDigit (c : Char) : Bool := (hexDigit c).isSome

/-- Two digits a byte. -/
def hexDecode : Text → Option (List UInt8)
  | [] => some []
  | [_] => none
  | x :: y :: rest =>
    match hexDigit x, hexDigit y with
    | some high, some low => (hexDecode rest).map (UInt8.ofNat (16 * high + low) :: ·)
    | _, _ => none

/-- Without the white space around it, and without separators. -/
def cleaned (s : Text) : Text := (trim s).filter (· != '-')

def cannotParse (s : Text) : Text := "cannot parse key or IV from '".toList ++ s ++ "'".toList

/-- Parses a string which may be hex or base64, or name a file. -/
def parseHexOrBase64 (o : Outside) (s : Text) : Except Text (List UInt8) :=
  let clean := cleaned s
  let hex := if clean.all isHexDigit && byteLen clean % 2 == 0 then hexDecode clean else none
  let bare := clean.rdropWhile (· == '=')
  okOr (cannotParse s) (((hex.or (o.standard bare)).or (o.urlSafe bare)).or (o.read s))

/-! ## How a key is spelled -/

/-- Two digits for each byte, of either case. -/
inductive HexDigits : List UInt8 → Text → Prop
  | nil : HexDigits [] []
  | cons {b : UInt8} {x y : Char} {key : List UInt8} {text : Text} :
      hexDigit x = some (b.toNat / 16) → hexDigit y = some (b.toNat % 16) → HexDigits key text →
        HexDigits (b :: key) (x :: y :: text)

/-- In hexadecimal: digits, with a `-` anywhere between them, and white space around. -/
def HexSpelling (key : List UInt8) (text : Text) : Prop :=
  ∃ before body after, text = before ++ (body ++ after) ∧ (∀ c ∈ before, isWhite c = true) ∧
    (∀ c ∈ after, isWhite c = true) ∧ HexDigits key (body.filter (· != '-'))

/-- In base64, of either alphabet, with its padding or without. -/
def Base64Spelling (key : List UInt8) (text : Text) : Prop :=
  text = Base64.encode Base64.standard key ∨ text = Base64.bare Base64.standard key ∨
    text = Base64.encode Base64.urlSafe key ∨ text = Base64.bare Base64.urlSafe key

/-! ## Hexadecimal -/

theorem hexDigit_lt {c : Char} {n : Nat} (h : hexDigit c = some n) : c.toNat < 128 ∧ n < 16 := by
  unfold hexDigit at h
  have hle (a b : Char) : a ≤ b ↔ a.toNat ≤ b.toNat := Iff.rfl
  simp only [hle, show '9'.toNat = 57 from rfl, show '0'.toNat = 48 from rfl, show 'a'.toNat = 97 from rfl,
    show 'f'.toNat = 102 from rfl, show 'A'.toNat = 65 from rfl, show 'F'.toNat = 70 from rfl] at h
  split at h
  · cases h
    omega
  · split at h
    · cases h
      omega
    · split at h
      · cases h
        omega
      · cases h

theorem HexDigits.decode {key : List UInt8} {text : Text} (h : HexDigits key text) : hexDecode text = some key := by
  induction h with
  | nil => rfl
  | @cons b x y key text hx hy _ ih =>
    rw [hexDecode, hx, hy]
    simp only [ih, Option.map_some]
    rw [Nat.div_add_mod, UInt8.ofNat_toNat]

theorem HexDigits.all {key : List UInt8} {text : Text} (h : HexDigits key text) : text.all isHexDigit = true := by
  induction h with
  | nil => rfl
  | cons hx hy _ ih => simp [isHexDigit, hx, hy, ih]

theorem HexDigits.length {key : List UInt8} {text : Text} (h : HexDigits key text) : text.length = 2 * key.length := by
  induction h with
  | nil => rfl
  | cons hx hy _ ih =>
    simp only [List.length_cons, ih]
    omega

/-- Hexadecimal digits are a byte each. -/
theorem byteLen_of_hex {text : Text} (h : text.all isHexDigit = true) : byteLen text = text.length := by
  induction text with
  | nil => rfl
  | cons c text ih =>
    rw [List.all_cons, Bool.and_eq_true, isHexDigit, Option.isSome_iff_exists] at h
    obtain ⟨⟨n, hn⟩, hrest⟩ := h
    have hone : c.utf8Size = 1 := Char.utf8Size_eq_one_iff.mpr (Nat.le_of_lt_succ (hexDigit_lt hn).1)
    show c.utf8Size + byteLen text = text.length + 1
    rw [hone, ih hrest, Nat.add_comm]

/-- An even number of digits spells a key. -/
theorem exists_hexDigits {text : Text} (hall : text.all isHexDigit = true) (heven : text.length % 2 = 0) :
    ∃ key, HexDigits key text := by
  induction text using hexDecode.induct with
  | case1 => exact ⟨[], .nil⟩
  | case2 c => cases heven
  | case3 x y rest high low hy hx ih =>
    simp only [List.all_cons, Bool.and_eq_true] at hall
    obtain ⟨key, hkey⟩ := ih hall.2.2 (by simp only [List.length_cons] at heven; omega)
    have hhigh := (hexDigit_lt hx).2
    have hlow := (hexDigit_lt hy).2
    refine ⟨UInt8.ofNat (16 * high + low) :: key, .cons ?_ ?_ hkey⟩
    · rw [hx, UInt8.toNat_ofNat']
      congr 1
      omega
    · rw [hy, UInt8.toNat_ofNat']
      congr 1
      omega
  | case4 x y rest hnot =>
    simp only [List.all_cons, Bool.and_eq_true, isHexDigit, Option.isSome_iff_exists] at hall
    obtain ⟨⟨high, hx⟩, ⟨low, hy⟩, _⟩ := hall
    exact absurd hy (hnot high low hx)

theorem not_white_of_hex {c : Char} (h : isHexDigit c = true) : isWhite c = false := by
  unfold isHexDigit hexDigit at h
  have hle (a b : Char) : a ≤ b ↔ a.toNat ≤ b.toNat := Iff.rfl
  simp only [hle, show '9'.toNat = 57 from rfl, show '0'.toNat = 48 from rfl, show 'a'.toNat = 97 from rfl,
    show 'f'.toNat = 102 from rfl, show 'A'.toNat = 65 from rfl, show 'F'.toNat = 70 from rfl] at h
  have hrange : 48 ≤ c.toNat ∧ c.toNat ≤ 102 := by
    split at h
    · omega
    · split at h
      · omega
      · split at h
        · omega
        · cases h
  simp [isWhite]
  omega

/-- What holds no white space is all that is left when the white space around it goes. -/
theorem trim_around {before body after : Text} (hbefore : ∀ c ∈ before, isWhite c = true)
    (hbody : ∀ c ∈ body, isWhite c = false) (hafter : ∀ c ∈ after, isWhite c = true) :
    trim (before ++ (body ++ after)) = body := by
  refine strip_eq hbefore ?_ hafter
  constructor
  · intro c hc
    exact hbody c (List.mem_of_head? hc)
  · intro c hc
    exact hbody c (List.mem_of_getLast? hc)

theorem HexSpelling.cleaned {key : List UInt8} {text : Text} (h : HexSpelling key text) :
    HexDigits key (cleaned text) := by
  obtain ⟨before, body, after, rfl, hbefore, hafter, hdigits⟩ := h
  have hbody : ∀ c ∈ body, isWhite c = false := by
    intro c hc
    by_cases hdash : c = '-'
    · subst hdash
      rfl
    · have hin : c ∈ body.filter (· != '-') := List.mem_filter.mpr ⟨hc, by simpa using hdash⟩
      exact not_white_of_hex (List.all_eq_true.mp hdigits.all c hin)
  rw [Decrypt.cleaned, trim_around hbefore hbody hafter]
  exact hdigits

/-- What the code takes for hexadecimal is. -/
theorem exists_hexSpelling {text : Text} (hall : (cleaned text).all isHexDigit = true)
    (heven : byteLen (cleaned text) % 2 = 0) : ∃ key, HexSpelling key text := by
  rw [byteLen_of_hex hall] at heven
  obtain ⟨key, hkey⟩ := exists_hexDigits hall heven
  obtain ⟨before, after, heq, hbefore, hafter⟩ := exists_strip isWhite text
  exact ⟨key, before, trim text, after, heq, hbefore, hafter, hkey⟩

theorem parse_hex {key : List UInt8} {text : Text} (h : HexSpelling key text) (o : Outside) :
    parseHexOrBase64 o text = .ok key := by
  have hdigits := h.cleaned
  have heven : byteLen (cleaned text) % 2 = 0 := by
    rw [byteLen_of_hex hdigits.all, hdigits.length]
    omega
  unfold parseHexOrBase64
  simp [hdigits.all, heven, hdigits.decode]

/-! ## Base64 -/

theorem dash_ne_pad : '-' ≠ Base64.pad := by decide

/-- A spelling is digits of one alphabet, and padding or none. -/
theorem Base64Spelling.exists_bare {key : List UInt8} {text : Text} (h : Base64Spelling key text) :
    ∃ a, (a = Base64.standard ∨ a = Base64.urlSafe) ∧ ∃ n, text = Base64.bare a key ++ List.replicate n Base64.pad := by
  rcases h with rfl | rfl | rfl | rfl
  · exact ⟨_, Or.inl rfl, _, rfl⟩
  · exact ⟨_, Or.inl rfl, 0, (List.append_nil _).symm⟩
  · exact ⟨_, Or.inr rfl, _, rfl⟩
  · exact ⟨_, Or.inr rfl, 0, (List.append_nil _).symm⟩

theorem not_white_of_digit {a : Base64.Alphabet} (ha : a = Base64.standard ∨ a = Base64.urlSafe) :
    ∀ v < 64, isWhite (a.digit v) = false := by
  rcases ha with rfl | rfl
  · decide +kernel
  · decide +kernel

/-- The code gives its engines the digits of a key, without any `-` among them. -/
theorem bare_cleaned {a : Base64.Alphabet} (ha : a = Base64.standard ∨ a = Base64.urlSafe) (key : List UInt8) (n : Nat) :
    (cleaned (Base64.bare a key ++ List.replicate n Base64.pad)).rdropWhile (· == '=') =
      (Base64.bare a key).filter (· != '-') := by
  have htrim : trim (Base64.bare a key ++ List.replicate n Base64.pad) =
      Base64.bare a key ++ List.replicate n Base64.pad := by
    have h := @trim_around [] (Base64.bare a key ++ List.replicate n Base64.pad) [] (by simp)
      (fun c hc => by
        rcases List.mem_append.mp hc with hc | hc
        · obtain ⟨v, hv, rfl⟩ := Base64.mem_bare hc
          exact not_white_of_digit ha v hv
        · rw [List.eq_of_mem_replicate hc]
          rfl) (by simp)
    simpa using h
  have hpads : (List.replicate n Base64.pad).filter (· != '-') = List.replicate n Base64.pad := by
    rw [List.filter_eq_self]
    intro c hc
    rw [List.eq_of_mem_replicate hc]
    rfl
  rw [cleaned, htrim, List.filter_append, hpads]
  apply rdropWhile_append
  · intro c hc
    have hin := (List.mem_filter.mp (List.mem_of_getLast? hc)).1
    have hne : c ≠ '=' := by
      rintro rfl
      exact Base64.pad_not_mem_bare hin
    simpa using hne
  · intro c hc
    rw [List.eq_of_mem_replicate hc]
    rfl

section Engines

variable {standard urlSafe : Text → Option (List UInt8)} (hstandard : Base64.Reads Base64.standard standard)
  (hurlSafe : Base64.Reads Base64.urlSafe urlSafe)

include hstandard hurlSafe

/-- Between them the engines read the digits of whole triples of bytes. -/
theorem engines_read {a : Base64.Alphabet} (ha : a = Base64.standard ∨ a = Base64.urlSafe) {key : List UInt8}
    (h : 3 ∣ key.length) :
    (standard (Base64.bare a key)).or (urlSafe (Base64.bare a key)) = some key := by
  rw [← Base64.encode_of_dvd h]
  rcases ha with rfl | rfl
  · rw [(hstandard _ key).mpr rfl, Option.some_or]
  · cases hread : standard (Base64.encode Base64.urlSafe key) with
    | none => rw [Option.none_or, (hurlSafe _ key).mpr rfl]
    | some other =>
      -- a spelling that is one of either alphabet
      have heq := (hstandard _ other).mp hread
      rw [Option.some_or, Base64.encode_inj Base64.standard_urlSafe heq.symm]

/-- What an engine reads of the digits it is given is `key` only if nothing went. -/
theorem dvd_of_engines_read {a : Base64.Alphabet} {key : List UInt8}
    (h : (standard ((Base64.bare a key).filter (· != '-'))).or (urlSafe ((Base64.bare a key).filter (· != '-'))) =
      some key) :
    3 ∣ key.length ∧ '-' ∉ Base64.bare a key := by
  have hread : ∃ b, (Base64.bare a key).filter (· != '-') = Base64.encode b key := by
    rcases Option.or_eq_some_iff.mp h with h | ⟨_, h⟩
    · exact ⟨_, (hstandard _ key).mp h⟩
    · exact ⟨_, (hurlSafe _ key).mp h⟩
  obtain ⟨b, hread⟩ := hread
  have hle := List.length_filter_le (· != '-') (Base64.bare a key)
  have hge := Base64.length_bare_le a b key
  rw [hread] at hle
  refine ⟨Base64.length_encode_eq_bare.mp (Nat.le_antisymm hle hge), ?_⟩
  intro hdash
  have hall := List.length_filter_eq_length_iff.mp (by rw [hread]; exact Nat.le_antisymm hle hge) '-' hdash
  exact absurd hall (by decide)

/-- Whatever the disk holds, a key's base64 is read as that key exactly if it needs
no padding and has no `-`. -/
theorem parse_base64_iff {key : List UInt8} {text : Text} (hspelling : Base64Spelling key text)
    (hnot : ∀ other, ¬ HexSpelling other text) :
    (∀ read, parseHexOrBase64 ⟨standard, urlSafe, read⟩ text = .ok key) ↔ 3 ∣ key.length ∧ '-' ∉ text := by
  have hhex : (if (cleaned text).all isHexDigit && byteLen (cleaned text) % 2 == 0 then hexDecode (cleaned text)
      else none) = none := by
    rw [if_neg]
    intro h
    rw [Bool.and_eq_true, beq_iff_eq] at h
    obtain ⟨other, hother⟩ := exists_hexSpelling h.1 h.2
    exact hnot other hother
  obtain ⟨a, ha, n, rfl⟩ := hspelling.exists_bare
  have hparse (read : Text → Option (List UInt8)) :
      parseHexOrBase64 ⟨standard, urlSafe, read⟩ (Base64.bare a key ++ List.replicate n Base64.pad) = .ok key ↔
        (((standard ((Base64.bare a key).filter (· != '-'))).or (urlSafe ((Base64.bare a key).filter (· != '-')))).or
          (read (Base64.bare a key ++ List.replicate n Base64.pad))) = some key := by
    unfold parseHexOrBase64
    dsimp only
    rw [hhex, bare_cleaned ha, okOr_eq_ok, Option.none_or]
  have hdash : '-' ∉ Base64.bare a key ++ List.replicate n Base64.pad ↔ '-' ∉ Base64.bare a key := by
    rw [List.mem_append]
    constructor
    · intro h hin
      exact h (Or.inl hin)
    · rintro h (hin | hin)
      · exact h hin
      · exact dash_ne_pad (List.eq_of_mem_replicate hin)
  rw [hdash]
  constructor
  · intro h
    -- an empty disk leaves it to the engines
    have hnone := (hparse fun _ => none).mp (h _)
    rw [Option.or_none] at hnone
    exact dvd_of_engines_read hstandard hurlSafe hnone
  · rintro ⟨hdvd, hin⟩ read
    rw [hparse, List.filter_eq_self.mpr, engines_read hstandard hurlSafe ha hdvd, Option.some_or]
    intro c hc
    have hne : c ≠ '-' := by
      rintro rfl
      exact hin hc
    simpa using hne

/-- A key in hexadecimal is always read as itself; one in base64 exactly if its
bytes are whole triples and its spelling has no `-`. -/
theorem spellings_read_iff (key : List UInt8) (text : Text) :
    (HexSpelling key text → ∀ read, parseHexOrBase64 ⟨standard, urlSafe, read⟩ text = .ok key) ∧
      (Base64Spelling key text → (∀ other, ¬ HexSpelling other text) →
        ((∀ read, parseHexOrBase64 ⟨standard, urlSafe, read⟩ text = .ok key) ↔ 3 ∣ key.length ∧ '-' ∉ text)) := by
  constructor
  · intro h read
    exact parse_hex h _
  · intro h hnot
    exact parse_base64_iff hstandard hurlSafe h hnot

end Engines

theorem not_hexSpelling {text : Text} (h : (cleaned text).all isHexDigit = false) (other : List UInt8) :
    ¬ HexSpelling other text := by
  intro hhex
  rw [hhex.cleaned.all] at h
  cases h

/-- Three bytes are read, by engines that read as the alphabets say. -/
theorem spellings_read_man :
    parseHexOrBase64 ⟨Base64.decode Base64.standard, Base64.decode Base64.urlSafe, fun _ => none⟩ "TWFu".toList =
      .ok [0x4D, 0x61, 0x6E] :=
  ((spellings_read_iff (Base64.reads_decode _) (Base64.reads_decode _) [0x4D, 0x61, 0x6E] "TWFu".toList).2
    (Or.inl rfl) (not_hexSpelling rfl)).mpr ⟨⟨1, rfl⟩, by decide⟩ _

def key16 : List UInt8 := (List.range 16).map UInt8.ofNat

/-- The sixteen bytes 0 to 15 in base64 are refused where no file has that name. -/
theorem base64_refused :
    Base64Spelling key16 "AAECAwQFBgcICQoLDA0ODw==".toList ∧
      (∀ other, ¬ HexSpelling other "AAECAwQFBgcICQoLDA0ODw==".toList) ∧
      parseHexOrBase64 ⟨Base64.decode Base64.standard, Base64.decode Base64.urlSafe, fun _ => none⟩
        "AAECAwQFBgcICQoLDA0ODw==".toList = .error (cannotParse "AAECAwQFBgcICQoLDA0ODw==".toList) :=
  ⟨Or.inl rfl, not_hexSpelling rfl, by decide +kernel⟩

end Decrypt

end Hyperfetch
