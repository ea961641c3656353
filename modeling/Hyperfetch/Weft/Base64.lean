import Hyperfetch.Weft.Strip

/-!
# Base64 (RFC 4648)

Three bytes are four digits of an alphabet of 64 characters, and `=` fills up the
last four (`encode`), or is left away (`bare`). Only an encoding is decoded, with
its padding and with no bit set that stands for no byte (`decode_eq_some`). Two
alphabets that agree where they share characters write nothing the same but the
same bytes (`encode_inj`).
-/

namespace Weft

namespace Base64

def pad : Char := '='

/-- 64 characters, none of them the padding. -/
structure Alphabet where
  digit : Nat → Char
  digit_inj : ∀ v < 64, ∀ w < 64, digit v = digit w → v = w
  digit_ne_pad : ∀ v < 64, digit v ≠ pad

namespace Alphabet

variable (a : Alphabet)

/-- What a character stands for. -/
def value (c : Char) : Option Nat := (List.range 64).find? fun v => a.digit v == c

theorem value_eq_some {c : Char} {v : Nat} : a.value c = some v ↔ v < 64 ∧ a.digit v = c := by
  unfold value
  constructor
  · intro h
    have hin := List.mem_of_find?_eq_some h
    have heq : a.digit v = c := by simpa using List.find?_some h
    exact ⟨List.mem_range.mp hin, heq⟩
  · rintro ⟨hlt, rfl⟩
    cases hfind : (List.range 64).find? fun w => a.digit w == a.digit v with
    | none =>
      rw [List.find?_eq_none] at hfind
      exact absurd (beq_self_eq_true _) (hfind v (List.mem_range.mpr hlt))
    | some w =>
      have hin := List.mem_range.mp (List.mem_of_find?_eq_some hfind)
      have heq : a.digit w = a.digit v := by simpa using List.find?_some hfind
      rw [a.digit_inj w hin v hlt heq]

theorem value_digit {v : Nat} (h : v < 64) : a.value (a.digit v) = some v := a.value_eq_some.mpr ⟨h, rfl⟩

end Alphabet

/-! ## Writing -/

/-- The digits of some bytes, without padding. -/
def bare (a : Alphabet) : List UInt8 → List Char
  | [] => []
  | [x] => [a.digit (x.toNat / 4), a.digit (x.toNat % 4 * 16)]
  | [x, y] => [a.digit (x.toNat / 4), a.digit (x.toNat % 4 * 16 + y.toNat / 16), a.digit (y.toNat % 16 * 4)]
  | x :: y :: z :: rest =>
    a.digit (x.toNat / 4) :: a.digit (x.toNat % 4 * 16 + y.toNat / 16) ::
      a.digit (y.toNat % 16 * 4 + z.toNat / 64) :: a.digit (z.toNat % 64) :: bare a rest

/-- What fills up the digits of `n` bytes. -/
def padding (n : Nat) : List Char := List.replicate ((3 - n % 3) % 3) pad

def encode (a : Alphabet) (bytes : List UInt8) : List Char := bare a bytes ++ padding bytes.length

theorem padding_add_three (n : Nat) : padding (n + 1 + 1 + 1) = padding n := by
  have h : (n + 1 + 1 + 1) % 3 = n % 3 := by omega
  rw [padding, padding, h]

theorem encode_cons (a : Alphabet) (x y z : UInt8) (rest : List UInt8) :
    encode a (x :: y :: z :: rest) = a.digit (x.toNat / 4) :: a.digit (x.toNat % 4 * 16 + y.toNat / 16) ::
      a.digit (y.toNat % 16 * 4 + z.toNat / 64) :: a.digit (z.toNat % 64) :: encode a rest := by
  show bare a (x :: y :: z :: rest) ++ padding (rest.length + 1 + 1 + 1) = _
  rw [padding_add_three]
  rfl

theorem length_bare (a : Alphabet) (bytes : List UInt8) : (bare a bytes).length = (4 * bytes.length + 2) / 3 := by
  induction bytes using bare.induct with
  | case1 => simp [bare]
  | case2 x => simp [bare]
  | case3 x y => simp [bare]
  | case4 x y z rest ih =>
    simp only [bare, List.length_cons, ih]
    omega

theorem length_encode (a : Alphabet) (bytes : List UInt8) :
    (encode a bytes).length = (4 * bytes.length + 2) / 3 + (3 - bytes.length % 3) % 3 := by
  rw [encode, padding, List.length_append, List.length_replicate, length_bare]

/-- Nothing is filled up exactly if the bytes are whole triples. -/
theorem length_encode_eq_bare {a b : Alphabet} {bytes : List UInt8} :
    (encode a bytes).length = (bare b bytes).length ↔ 3 ∣ bytes.length := by
  rw [length_encode, length_bare]
  omega

theorem length_bare_le (a b : Alphabet) (bytes : List UInt8) : (bare a bytes).length ≤ (encode b bytes).length := by
  rw [length_encode, length_bare]
  omega

theorem encode_of_dvd {a : Alphabet} {bytes : List UInt8} (h : 3 ∣ bytes.length) : encode a bytes = bare a bytes := by
  have hnone : (3 - bytes.length % 3) % 3 = 0 := by omega
  rw [encode, padding, hnone, List.replicate_zero, List.append_nil]

/-- Bare digits are digits. -/
theorem mem_bare {a : Alphabet} {bytes : List UInt8} {c : Char} (h : c ∈ bare a bytes) : ∃ v < 64, c = a.digit v := by
  have hbyte (x : UInt8) : x.toNat < 256 := x.toNat_lt
  induction bytes using bare.induct with
  | case1 => cases h
  | case2 x =>
    have hx := hbyte x
    simp only [bare, List.mem_cons, List.not_mem_nil, or_false] at h
    rcases h with rfl | rfl
    · exact ⟨_, by omega, rfl⟩
    · exact ⟨_, by omega, rfl⟩
  | case3 x y =>
    have hx := hbyte x
    have hy := hbyte y
    simp only [bare, List.mem_cons, List.not_mem_nil, or_false] at h
    rcases h with rfl | rfl | rfl
    · exact ⟨_, by omega, rfl⟩
    · exact ⟨_, by omega, rfl⟩
    · exact ⟨_, by omega, rfl⟩
  | case4 x y z rest ih =>
    have hx := hbyte x
    have hy := hbyte y
    have hz := hbyte z
    simp only [bare, List.mem_cons] at h
    rcases h with rfl | rfl | rfl | rfl | hrest
    · exact ⟨_, by omega, rfl⟩
    · exact ⟨_, by omega, rfl⟩
    · exact ⟨_, by omega, rfl⟩
    · exact ⟨_, by omega, rfl⟩
    · exact ih hrest

theorem pad_not_mem_bare {a : Alphabet} {bytes : List UInt8} : pad ∉ bare a bytes := by
  intro h
  obtain ⟨v, hv, heq⟩ := mem_bare h
  exact a.digit_ne_pad v hv heq.symm

/-- Taking the padding off leaves the digits. -/
theorem rdropWhile_pad {a : Alphabet} {bytes : List UInt8} (n : Nat) :
    (bare a bytes ++ List.replicate n pad).rdropWhile (· == pad) = bare a bytes := by
  apply rdropWhile_append
  · intro c hc
    have hne : c ≠ pad := by
      rintro rfl
      exact pad_not_mem_bare (List.mem_of_getLast? hc)
    simp [hne]
  · intro c hc
    simp [List.eq_of_mem_replicate hc]

/-! ## One writing, one sequence of bytes -/

/-- The digits of a byte, or of its halves, tell it. -/
theorem byte_ext {x y : UInt8} {n : Nat} (hhigh : x.toNat / n = y.toNat / n)
    (hlow : x.toNat % n = y.toNat % n) : x = y := by
  have heq : x.toNat = y.toNat := by
    rw [← Nat.div_add_mod x.toNat n, hhigh, hlow, Nat.div_add_mod]
  exact UInt8.toNat_inj.mp heq

theorem encode_inj {a b : Alphabet} (hshared : ∀ v < 64, ∀ w < 64, a.digit v = b.digit w → v = w)
    {xs ys : List UInt8} (h : encode a xs = encode b ys) : xs = ys := by
  have hbyte (x : UInt8) : x.toNat < 256 := x.toNat_lt
  have hlen := congrArg List.length h
  rw [length_encode, length_encode] at hlen
  induction xs using bare.induct generalizing ys with
  | case1 =>
    match ys with
    | [] => rfl
    | _ :: _ =>
      simp only [List.length_nil, List.length_cons] at hlen
      omega
  | case2 x =>
    have hx := hbyte x
    match ys with
    | [] => simp at hlen
    | [y] =>
      have hy := hbyte y
      simp only [encode, bare, padding, List.cons_append, List.cons.injEq] at h
      have hhigh := hshared _ (by omega) _ (by omega) h.1
      have hlow := hshared _ (by omega) _ (by omega) h.2.1
      rw [byte_ext (n := 4) hhigh (by omega)]
    | [y, z] =>
      have hz := hbyte z
      simp [encode, bare, padding] at h
      exact absurd h.2.2.symm (b.digit_ne_pad _ (by omega))
    | y :: z :: w :: rest =>
      have hz := hbyte z
      have hw := hbyte w
      simp [encode, bare, padding] at h
      exact absurd h.2.2.1.symm (b.digit_ne_pad _ (by omega))
  | case3 x y =>
    have hx := hbyte x
    have hy := hbyte y
    match ys with
    | [] => simp at hlen
    | [z] =>
      simp [encode, bare, padding] at h
      exact absurd h.2.2 (a.digit_ne_pad _ (by omega))
    | [z, w] =>
      have hz := hbyte z
      have hw := hbyte w
      simp only [encode, bare, padding, List.cons_append, List.cons.injEq] at h
      have hfirst := hshared _ (by omega) _ (by omega) h.1
      have hsecond := hshared _ (by omega) _ (by omega) h.2.1
      have hthird := hshared _ (by omega) _ (by omega) h.2.2.1
      rw [byte_ext (n := 4) hfirst (by omega), byte_ext (n := 16) (x := y) (y := w) (by omega)
        (by omega)]
    | z :: w :: u :: rest =>
      have hu := hbyte u
      simp [encode, bare, padding] at h
      exact absurd h.2.2.2.1.symm (b.digit_ne_pad _ (by omega))
  | case4 x y z rest ih =>
    have hx := hbyte x
    have hy := hbyte y
    have hz := hbyte z
    match ys with
    | [] =>
      simp only [List.length_nil, List.length_cons] at hlen
      omega
    | [u] =>
      simp [encode, bare, padding] at h
      exact absurd h.2.2.1 (a.digit_ne_pad _ (by omega))
    | [u, v] =>
      simp [encode, bare, padding] at h
      exact absurd h.2.2.2.1 (a.digit_ne_pad _ (by omega))
    | u :: v :: w :: more =>
      have hu := hbyte u
      have hv := hbyte v
      have hw := hbyte w
      rw [encode_cons, encode_cons] at h
      simp only [List.cons.injEq] at h
      have hfirst := hshared _ (by omega) _ (by omega) h.1
      have hsecond := hshared _ (by omega) _ (by omega) h.2.1
      have hthird := hshared _ (by omega) _ (by omega) h.2.2.1
      have hfourth := hshared _ (by omega) _ (by omega) h.2.2.2.1
      have hrest := ih h.2.2.2.2 (by simpa [length_encode] using congrArg List.length h.2.2.2.2)
      rw [byte_ext (n := 4) hfirst (by omega), byte_ext (n := 16) (x := y) (y := v) (by omega)
        (by omega), byte_ext (n := 64) (x := z) (y := w) (by omega) (by omega), hrest]

/-! ## Reading -/

def decode (a : Alphabet) : List Char → Option (List UInt8)
  | [] => some []
  | c :: d :: e :: f :: rest =>
    match a.value c, a.value d, a.value e, a.value f with
    | some v, some w, some u, some t => (decode a rest).map fun bytes =>
      UInt8.ofNat (v * 4 + w / 16) :: UInt8.ofNat (w % 16 * 16 + u / 4) :: UInt8.ofNat (u % 4 * 64 + t) :: bytes
    | some v, some w, some u, none =>
      if f = pad ∧ rest = [] ∧ u % 4 = 0 then
        some [UInt8.ofNat (v * 4 + w / 16), UInt8.ofNat (w % 16 * 16 + u / 4)]
      else none
    | some v, some w, none, none =>
      if e = pad ∧ f = pad ∧ rest = [] ∧ w % 16 = 0 then some [UInt8.ofNat (v * 4 + w / 16)] else none
    | _, _, _, _ => none
  | _ => none

theorem Alphabet.value_pad (a : Alphabet) : a.value pad = none := by
  rw [Option.eq_none_iff_forall_ne_some]
  intro v h
  obtain ⟨hlt, heq⟩ := a.value_eq_some.mp h
  exact a.digit_ne_pad v hlt heq

theorem ofNat_byte {x : UInt8} {n : Nat} (h : n = x.toNat) : UInt8.ofNat n = x := by
  rw [h, UInt8.ofNat_toNat]

theorem decode_encode (a : Alphabet) (bytes : List UInt8) : decode a (encode a bytes) = some bytes := by
  have hbyte (x : UInt8) : x.toNat < 256 := x.toNat_lt
  induction bytes using bare.induct with
  | case1 => rfl
  | case2 x =>
    have hx := hbyte x
    show decode a [a.digit (x.toNat / 4), a.digit (x.toNat % 4 * 16), pad, pad] = _
    rw [decode, a.value_digit (by omega), a.value_digit (by omega), a.value_pad]
    simp only [true_and]
    rw [if_pos (by omega), ofNat_byte (x := x) (by omega)]
  | case3 x y =>
    have hx := hbyte x
    have hy := hbyte y
    show decode a [a.digit (x.toNat / 4), a.digit (x.toNat % 4 * 16 + y.toNat / 16), a.digit (y.toNat % 16 * 4), pad] = _
    rw [decode, a.value_digit (by omega), a.value_digit (by omega), a.value_digit (by omega), a.value_pad]
    simp only [true_and]
    rw [if_pos (by omega), ofNat_byte (x := x) (by omega), ofNat_byte (x := y) (by omega)]
  | case4 x y z rest ih =>
    have hx := hbyte x
    have hy := hbyte y
    have hz := hbyte z
    rw [encode_cons, decode, a.value_digit (by omega), a.value_digit (by omega), a.value_digit (by omega),
      a.value_digit (by omega)]
    simp only [ih, Option.map_some]
    rw [ofNat_byte (x := x) (by omega), ofNat_byte (x := y) (by omega), ofNat_byte (x := z) (by omega)]

/-- Nothing but an encoding is decoded. -/
theorem encode_of_decode {a : Alphabet} {text : List Char} {bytes : List UInt8} (h : decode a text = some bytes) :
    text = encode a bytes := by
  induction text using decode.induct a generalizing bytes with
  | case1 =>
    cases h
    rfl
  | case2 c d e f rest v w u t ht hu hw hv ih =>
    rw [decode, hv, hw, hu, ht] at h
    obtain ⟨more, hmore, rfl⟩ := Option.map_eq_some_iff.mp h
    obtain ⟨hvlt, rfl⟩ := a.value_eq_some.mp hv
    obtain ⟨hwlt, rfl⟩ := a.value_eq_some.mp hw
    obtain ⟨hult, rfl⟩ := a.value_eq_some.mp hu
    obtain ⟨htlt, rfl⟩ := a.value_eq_some.mp ht
    rw [encode_cons, ← ih hmore]
    simp only [UInt8.toNat_ofNat']
    have hfirst : (v * 4 + w / 16) % 2 ^ 8 / 4 = v := by omega
    have hsecond : (v * 4 + w / 16) % 2 ^ 8 % 4 * 16 + (w % 16 * 16 + u / 4) % 2 ^ 8 / 16 = w := by omega
    have hthird : (w % 16 * 16 + u / 4) % 2 ^ 8 % 16 * 4 + (u % 4 * 64 + t) % 2 ^ 8 / 64 = u := by omega
    have hfourth : (u % 4 * 64 + t) % 2 ^ 8 % 64 = t := by omega
    rw [hfirst, hsecond, hthird, hfourth]
  | case3 c d e f rest v w u hf hu hw hv hlast =>
    rw [decode, hv, hw, hu, hf] at h
    simp only [if_pos hlast, Option.some_inj] at h
    obtain ⟨hvlt, rfl⟩ := a.value_eq_some.mp hv
    obtain ⟨hwlt, rfl⟩ := a.value_eq_some.mp hw
    obtain ⟨hult, rfl⟩ := a.value_eq_some.mp hu
    obtain ⟨rfl, rfl, hzero⟩ := hlast
    rw [← h]
    show _ = [a.digit _, a.digit _, a.digit _, pad]
    simp only [UInt8.toNat_ofNat']
    have hfirst : (v * 4 + w / 16) % 2 ^ 8 / 4 = v := by omega
    have hsecond : (v * 4 + w / 16) % 2 ^ 8 % 4 * 16 + (w % 16 * 16 + u / 4) % 2 ^ 8 / 16 = w := by omega
    have hthird : (w % 16 * 16 + u / 4) % 2 ^ 8 % 16 * 4 = u := by omega
    rw [hfirst, hsecond, hthird]
  | case4 c d e f rest v w u hf hu hw hv hlast =>
    rw [decode, hv, hw, hu, hf] at h
    simp only [if_neg hlast] at h
    cases h
  | case5 c d e f rest v w hf he hw hv hlast =>
    rw [decode, hv, hw, he, hf] at h
    simp only [if_pos hlast, Option.some_inj] at h
    obtain ⟨hvlt, rfl⟩ := a.value_eq_some.mp hv
    obtain ⟨hwlt, rfl⟩ := a.value_eq_some.mp hw
    obtain ⟨rfl, rfl, rfl, hzero⟩ := hlast
    rw [← h]
    show _ = [a.digit _, a.digit _, pad, pad]
    simp only [UInt8.toNat_ofNat']
    have hfirst : (v * 4 + w / 16) % 2 ^ 8 / 4 = v := by omega
    have hsecond : (v * 4 + w / 16) % 2 ^ 8 % 4 * 16 = w := by omega
    rw [hfirst, hsecond]
  | case6 c d e f rest v w hf he hw hv hlast =>
    rw [decode, hv, hw, he, hf] at h
    simp only [if_neg hlast] at h
    cases h
  | case7 c d e f rest hfour hthree htwo =>
    rw [decode] at h
    split at h
    · rename_i hv hw hu ht
      exact absurd ht (hfour _ _ _ _ hv hw hu)
    · rename_i hv hw hu hf
      exact absurd hf (hthree _ _ _ hv hw hu)
    · rename_i hv hw he hf
      exact absurd hf (htwo _ _ hv hw he)
    · cases h
  | case8 text hnil hcons =>
    rw [decode] at h
    · cases h
    · exact hnil
    · exact hcons

/-- What a reader of an alphabet does that wants the padding: it reads what was
written, and nothing else. -/
def Reads (a : Alphabet) (read : List Char → Option (List UInt8)) : Prop :=
  ∀ text bytes, read text = some bytes ↔ text = encode a bytes

theorem reads_decode (a : Alphabet) : Reads a (decode a) := by
  intro text bytes
  constructor
  · exact encode_of_decode
  · rintro rfl
    exact decode_encode a bytes

/-! ## The two alphabets -/

/-- Letters, digits and two marks. -/
def digit (plus slash : Char) (v : Nat) : Char :=
  if v < 26 then Char.ofNat (0x41 + v)
  else if v < 52 then Char.ofNat (0x47 + v)
  else if v < 62 then Char.ofNat (v - 4)
  else if v = 62 then plus
  else slash

/-- The place of a character in either alphabet. -/
def place (c : Char) : Nat :=
  if c.isUpper then c.toNat - 0x41
  else if c.isLower then c.toNat - 0x47
  else if c.isDigit then c.toNat + 4
  else if c = '+' ∨ c = '-' then 62
  else 63

theorem place_standard : ∀ v < 64, place (digit '+' '/' v) = v := by decide +kernel

theorem place_urlSafe : ∀ v < 64, place (digit '-' '_' v) = v := by decide +kernel

def standard : Alphabet where
  digit := digit '+' '/'
  digit_inj v hv w hw h := by rw [← place_standard v hv, h, place_standard w hw]
  digit_ne_pad := by decide +kernel

def urlSafe : Alphabet where
  digit := digit '-' '_'
  digit_inj v hv w hw h := by rw [← place_urlSafe v hv, h, place_urlSafe w hw]
  digit_ne_pad := by decide +kernel

/-- A character of both alphabets stands for the same in both. -/
theorem standard_urlSafe (v : Nat) (hv : v < 64) (w : Nat) (hw : w < 64) (h : standard.digit v = urlSafe.digit w) :
    v = w := by
  have hplace : place (digit '+' '/' v) = place (digit '-' '_' w) := congrArg place h
  rwa [place_standard v hv, place_urlSafe w hw] at hplace

end Base64

end Weft
