import Hyperfetch.Weft.Strip
import Hyperfetch.Weft.Text

/-!
# The ASCII front of a text

What a decoded text starts with, as far as it is ASCII, its bytes start with, and
the other way round (`lossy_eq_cons`): no cut or damaged sequence looks like an ASCII
character. `cutBytes` cuts a text by its bytes.
-/

namespace Weft

namespace Utf8

theorem toNat_ofNat_of_ne_zero {n : Nat} (h : (Char.ofNat n).toNat ≠ 0) : (Char.ofNat n).toNat = n := by
  unfold Char.ofNat at h ⊢
  split
  next => rfl
  next hnot =>
    rw [dif_neg hnot] at h
    exact absurd rfl h

theorem lossy_cons {b : UInt8} (hb : b.toNat < 0x80) (rest : List UInt8) :
    lossy (b :: rest) = Char.ofNat b.toNat :: lossy rest := by
  show (first b.toNat).1 ++ lossyFrom (first b.toNat).2 rest = _
  rw [first, if_pos hb]
  rfl

/-- A sequence on its way becomes no ASCII character. -/
theorem head?_lossyFrom_ne {c : Char} (hpos : c.toNat ≠ 0) (hlt : c.toNat < 0x80) {o : Open} (ho : Wide (some o))
    (bytes : List UInt8) : (lossyFrom (some o) bytes).head? ≠ some c := by
  have hreplacement : some replacement ≠ some c := by
    rintro h
    rw [← Option.some.inj h] at hlt
    exact absurd hlt (by decide)
  induction bytes generalizing o with
  | nil => exact hreplacement
  | cons b bytes ih =>
    obtain ⟨hbits, hlast⟩ := ho
    have hge := o.low_goesOn
    show ((step (some o) b.toNat).1 ++ lossyFrom (step (some o) b.toNat).2 bytes).head? ≠ some c
    rw [step]
    split
    next hgoesOn =>
      split
      next hmore =>
        intro h
        have hc : Char.ofNat (o.bits * 64 + (b.toNat - 0x80)) = c := Option.some.inj h
        have hvalue : c.toNat = o.bits * 64 + (b.toNat - 0x80) := by
          rw [← hc] at hpos ⊢
          exact toNat_ofNat_of_ne_zero hpos
        have hwide := hlast hmore
        omega
      next hmore =>
        refine ih ⟨?_, fun _ => ?_⟩
        · show 2 ≤ (o.bits * 64 + (b.toNat - 0x80)) * 64 + (0x80 - 0x80)
          omega
        · show 2 ≤ o.bits * 64 + (b.toNat - 0x80)
          omega
    next => exact hreplacement

theorem first_of_ge {b : Nat} (hb : 0x80 ≤ b) :
    (∃ o, first b = ([], some o)) ∨ first b = ([replacement], none) := by
  rw [first, if_neg (Nat.not_lt.mpr hb)]
  iterate 7
    split
    · exact .inl ⟨_, rfl⟩
  exact .inr rfl

/-- A byte that is not ASCII starts no ASCII character. -/
theorem head?_lossy_ne {c : Char} (hpos : c.toNat ≠ 0) (hlt : c.toNat < 0x80) {b : UInt8} (hb : 0x80 ≤ b.toNat)
    (rest : List UInt8) : (lossy (b :: rest)).head? ≠ some c := by
  have hwide := (wide_first (b := b.toNat) (by omega)).2
  show ((first b.toNat).1 ++ lossyFrom (first b.toNat).2 rest).head? ≠ some c
  rcases first_of_ge hb with ⟨o, hfirst⟩ | hfirst
  · rw [hfirst] at hwide ⊢
    exact head?_lossyFrom_ne hpos hlt hwide rest
  · rw [hfirst]
    intro h
    have hc : replacement = c := Option.some.inj h
    rw [← hc] at hlt
    exact absurd hlt (by decide)

/-- A decoded text starts with an ASCII character where its bytes do. -/
theorem lossy_eq_cons {c : Char} (hpos : c.toNat ≠ 0) (hlt : c.toNat < 0x80) {bytes : List UInt8} {more : List Char} :
    lossy bytes = c :: more ↔ ∃ rest, bytes = UInt8.ofNat c.toNat :: rest ∧ lossy rest = more := by
  constructor
  · intro h
    cases bytes with
    | nil => cases h
    | cons b rest =>
      by_cases hb : b.toNat < 0x80
      · rw [lossy_cons hb] at h
        obtain ⟨hc, hmore⟩ := List.cons.inj h
        refine ⟨rest, ?_, hmore⟩
        have hvalue : c.toNat = b.toNat := by
          rw [← hc] at hpos ⊢
          exact toNat_ofNat_of_ne_zero hpos
        rw [hvalue, UInt8.ofNat_toNat]
      · refine absurd ?_ (head?_lossy_ne hpos hlt (Nat.le_of_not_lt hb) rest)
        rw [h, List.head?_cons]
  · rintro ⟨rest, rfl, rfl⟩
    have hbyte : (UInt8.ofNat c.toNat).toNat = c.toNat := UInt8.toNat_ofNat_of_lt' (Nat.lt_trans hlt (by decide))
    rw [lossy_cons (by omega), hbyte, Char.ofNat_toNat]

theorem encode_ascii {c : Char} (hlt : c.toNat < 0x80) (text : List Char) :
    encode (c :: text) = UInt8.ofNat c.toNat :: encode text := by
  have hval : c.val ≤ 0x7F := by
    rw [UInt32.le_iff_toNat_le]
    exact Nat.le_of_lt_succ hlt
  rw [encode_cons, String.utf8EncodeChar_eq_singleton (Char.utf8Size_eq_one_iff.mpr hval)]
  rfl

/-- An encoded text starts with an ASCII byte where it starts with that character. -/
theorem head?_encode {c : Char} (hpos : c.toNat ≠ 0) (hlt : c.toNat < 0x80) {text : List Char} :
    (encode text).head? = some (UInt8.ofNat c.toNat) ↔ text.head? = some c := by
  constructor
  · intro h
    obtain ⟨rest, hrest⟩ := List.head?_eq_some_iff.mp h
    have hread := lossy_encode text []
    rw [List.append_nil, lossy_nil, List.append_nil] at hread
    rw [← hread, (lossy_eq_cons hpos hlt).mpr ⟨rest, hrest, rfl⟩]
    rfl
  · intro h
    obtain ⟨rest, rfl⟩ := List.head?_eq_some_iff.mp h
    rw [encode_ascii hlt]
    rfl

end Utf8

/-- A text cut after so many bytes; `none` inside a character or past the end. -/
def cutBytes : Nat → List Char → Option (List Char × List Char)
  | 0, text => some ([], text)
  | _ + 1, [] => none
  | n + 1, c :: text =>
    if c.utf8Size ≤ n + 1 then (cutBytes (n + 1 - c.utf8Size) text).map fun cut => (c :: cut.1, cut.2) else none

theorem cutBytes_eq_some {n : Nat} {text front back : List Char} :
    cutBytes n text = some (front, back) ↔ text = front ++ back ∧ byteLen front = n := by
  induction text generalizing n front with
  | nil =>
    cases n with
    | zero =>
      rw [cutBytes]
      constructor
      · intro h
        cases h
        exact ⟨rfl, rfl⟩
      · rintro ⟨happend, hlen⟩
        obtain ⟨rfl, rfl⟩ := List.append_eq_nil_iff.mp happend.symm
        rfl
    | succ n =>
      rw [cutBytes]
      constructor
      · intro h
        cases h
      · rintro ⟨happend, hlen⟩
        obtain ⟨rfl, rfl⟩ := List.append_eq_nil_iff.mp happend.symm
        cases hlen
  | cons c text ih =>
    have hsize := c.utf8Size_pos
    cases n with
    | zero =>
      rw [cutBytes]
      constructor
      · intro h
        cases h
        exact ⟨rfl, rfl⟩
      · rintro ⟨happend, hlen⟩
        cases front with
        | nil =>
          rw [happend]
          rfl
        | cons d front =>
          rw [byteLen_cons] at hlen
          have hd := d.utf8Size_pos
          omega
    | succ n =>
      rw [cutBytes]
      constructor
      · intro h
        split at h
        next hfits =>
          obtain ⟨⟨front', back'⟩, hrest, hcut⟩ := Option.map_eq_some_iff.mp h
          obtain ⟨rfl, rfl⟩ := Prod.mk.inj hcut
          obtain ⟨rfl, hlen⟩ := ih.mp hrest
          refine ⟨rfl, ?_⟩
          show byteLen (c :: front') = n + 1
          rw [byteLen_cons]
          omega
        next => cases h
      · rintro ⟨happend, hlen⟩
        cases front with
        | nil => cases hlen
        | cons d front =>
          rw [List.cons_append] at happend
          obtain ⟨rfl, rfl⟩ := List.cons.inj happend
          rw [byteLen_cons] at hlen
          rw [if_pos (by omega), ih.mpr ⟨rfl, by omega⟩]
          rfl

end Weft
