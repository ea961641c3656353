import Hyperfetch.Zip.Directory

/-!
# Nothing out of bounds, and nothing invented

Whatever the bytes are, finding the directory in a tail and reading its
entries end without a fault. Each entry stands in the bytes (`StandsAt`): a
header with the signature, then the name and the extra fields the header
measures, and the entry is what they say. The comment behind the last one may
be cut short.
-/

namespace Hyperfetch.Zip

open Weft Weft.Checked

/-- What a header and the name and extra fields behind it say. -/
structure Says (header name extra : List UInt8) (entry : ZipEntry) : Prop where
  signature : u32At header 0 = some entrySig
  nameLen : u16At header 28 = some name.length
  extraLen : u16At header 30 = some extra.length
  name : ∃ flags, u16At header 8 = some flags ∧ entry.name = nameOf flags name
  modified : ∃ time date, u16At header 12 = some time ∧ u16At header 14 = some date ∧ entry.modified = dosTime date time
  sizes : ∃ compressed size zip64 rest last, u32At header 20 = some compressed ∧ u32At header 24 = some size ∧
    zip64Sizes extra = .ok zip64 ∧ widen size zip64 = .ok (entry.size, rest) ∧ widen compressed rest = .ok (entry.compressed, last)

/-- An entry at `at_`, its comment left out. -/
def StandsAt (dir : List UInt8) (at_ : Nat) (entry : ZipEntry) : Prop :=
  ∃ header name extra rest, dir.drop at_ = header ++ (name ++ (extra ++ rest)) ∧ header.length = entryLen ∧
    Says header name extra entry

/-- Where the entry behind the one at `at_` begins. -/
def nextOf (dir : List UInt8) (at_ : Nat) : Nat :=
  at_ + entryLen + (u16At dir (at_ + 28)).getD 0 + (u16At dir (at_ + 30)).getD 0 + (u16At dir (at_ + 32)).getD 0

theorem meets_need {α : Type} (word : Option α) : Meets (need word) fun a => word = some a :=
  (meets_lift _).imp fun _ h => okOr_eq_ok.mp h

theorem zip64From_safe {extra : List UInt8} (hlen : extra.length < 2 ^ 63) {turns at_ : Nat} (hturns : 0 < turns)
    (hmore : extra.length < turns + at_) (hat : at_ ≤ extra.length + 2 ^ 17) :
    Meets (zip64From extra turns at_) fun _ => True := by
  induction turns generalizing at_ with
  | zero => omega
  | succ turns ih =>
    rw [zip64From, add_eq (by unfold wordMax; omega), ok_bind]
    cases hid : u16At extra at_ with
    | none => exact meets_ok trivial
    | some id =>
      cases hsize : u16At extra (at_ + 2) with
      | none => exact meets_ok trivial
      | some len =>
        obtain ⟨hsmall, hin⟩ := wordAt_lt hsize
        dsimp only
        rw [add_eq (by unfold wordMax; omega), ok_bind, add_eq (by unfold wordMax; omega), ok_bind]
        split
        · exact meets_ok trivial
        · exact ih (by omega) (by omega) (by omega)

theorem zip64Sizes_safe {extra : List UInt8} (hlen : extra.length < 2 ^ 63) :
    Meets (zip64Sizes extra) fun zip64 => zip64Sizes extra = .ok zip64 :=
  ⟨(zip64From_safe hlen (Nat.succ_pos _) (by omega) (Nat.zero_le _)).1, fun _ h => h⟩

/-- Reading one entry ends without a fault, with an entry that stands there. -/
theorem entryAt_safe (dir : Slice) {at_ : Nat} (hat : at_ ≤ dir.bytes.length + 2 ^ 17) :
    Meets (entryAt dir.bytes at_) fun p =>
      StandsAt dir.bytes at_ p.1 ∧ p.2 = nextOf dir.bytes at_ ∧ p.2 ≤ dir.bytes.length + 2 ^ 17 := by
  have hdir := dir.length_le
  have hplace (offset : Nat) (hoffset : offset ≤ 46) : (add at_ offset : Checked ZipError Nat) = .ok (at_ + offset) :=
    add_eq (by unfold wordMax; omega)
  rw [entryAt]
  split
  · exact meets_fail
  · rename_i hsig
    rw [not_not] at hsig
    simp only [hplace 8 (by decide), hplace 12 (by decide), hplace 14 (by decide), hplace 20 (by decide),
      hplace 24 (by decide), hplace 28 (by decide), hplace 30 (by decide), hplace 32 (by decide),
      hplace entryLen (by decide), ok_bind]
    refine (meets_need _).bind fun flags hflags => ?_
    refine (meets_need _).bind fun time htime => ?_
    refine (meets_need _).bind fun date hdate => ?_
    refine (meets_need _).bind fun compressed hcompressed => ?_
    refine (meets_need _).bind fun size hsize => ?_
    refine (meets_need _).bind fun nameLen hnameLen => ?_
    refine (meets_need _).bind fun extraLen hextraLen => ?_
    refine (meets_need _).bind fun commentLen hcommentLen => ?_
    obtain ⟨hcommentLt, _⟩ := wordAt_lt hcommentLen
    obtain ⟨hnameLt, _⟩ := wordAt_lt hnameLen
    obtain ⟨hextraLt, hin⟩ := wordAt_lt hextraLen
    have hentry : entryLen = 46 := rfl
    refine (meets_add (by unfold wordMax; omega)).bind fun nameEnd hnameEnd => ?_
    refine (meets_need _).bind fun name hnameBytes => ?_
    refine (meets_add (by unfold wordMax; omega)).bind fun extraEnd hextraEnd => ?_
    refine (meets_need _).bind fun extra hextraBytes => ?_
    subst hnameEnd
    subst hextraEnd
    obtain ⟨_, _, hname⟩ := getSlice_eq_some.mp hnameBytes
    obtain ⟨_, hextraIn, hextra⟩ := getSlice_eq_some.mp hextraBytes
    have hnameLength : name.length = nameLen := by
      rw [hname, length_extract (by omega)]
      omega
    have hextraLength : extra.length = extraLen := by
      rw [hextra, length_extract hextraIn]
      omega
    refine (zip64Sizes_safe (by omega)).bind fun zip64 hzip64 => ?_
    refine (meets_lift _).bind fun first hfirst => ?_
    refine (meets_lift _).bind fun second hsecond => ?_
    refine (meets_add (by unfold wordMax; omega)).bind fun next hnext => meets_ok ?_
    subst hnext
    refine ⟨?_, ?_, by omega⟩
    · have hsplit : dir.bytes.drop at_ = dir.bytes.extract at_ (at_ + entryLen) ++
          (name ++ (extra ++ dir.bytes.drop (at_ + entryLen + nameLen + extraLen))) := by
        rw [hname, hextra, ← drop_eq_extract_append (by omega), ← drop_eq_extract_append (by omega),
          ← drop_eq_extract_append (by omega)]
      have hheader : (dir.bytes.extract at_ (at_ + entryLen)).length = entryLen := by
        rw [length_extract (by omega)]
        omega
      have hword {width offset n : Nat} (hget : wordAt width dir.bytes (at_ + offset) = some n)
          (hoffset : offset + width ≤ entryLen) : wordAt width (dir.bytes.extract at_ (at_ + entryLen)) offset = some n := by
        rw [← wordAt_front hsplit (by omega) (by omega)]
        exact hget
      refine ⟨_, name, extra, _, hsplit, hheader, ?_⟩
      exact
        { signature := hword hsig (by decide)
          nameLen := hnameLength ▸ hword hnameLen (by decide)
          extraLen := hextraLength ▸ hword hextraLen (by decide)
          name := ⟨flags, hword hflags (by decide), rfl⟩
          modified := ⟨time, date, hword htime (by decide), hword hdate (by decide), rfl⟩
          sizes := ⟨compressed, size, zip64, first.2, second.2, hword hcompressed (by decide), hword hsize (by decide),
            hzip64, hfirst, hsecond⟩ }
    · rw [nextOf, hnameLen, hextraLen, hcommentLen]
      rfl

/-- Each entry stands behind the one before it, the first at `at_`. -/
def Stand (dir : List UInt8) : Nat → List ZipEntry → Prop
  | _, [] => True
  | at_, entry :: list => StandsAt dir at_ entry ∧ Stand dir (nextOf dir at_) list

theorem entriesFrom_safe (dir : Slice) {count at_ : Nat} (hat : at_ ≤ dir.bytes.length + 2 ^ 17) :
    Meets (entriesFrom dir.bytes count at_) fun list => list.length = count ∧ Stand dir.bytes at_ list := by
  induction count generalizing at_ with
  | zero => exact meets_ok ⟨rfl, trivial⟩
  | succ count ih =>
    rw [entriesFrom]
    refine (entryAt_safe dir hat).bind fun p hp => ?_
    obtain ⟨hstands, hnext, hle⟩ := hp
    refine (ih hle).bind fun list hlist => meets_ok ⟨?_, hstands, ?_⟩
    · rw [List.length_cons, hlist.1]
    · rw [← hnext]
      exact hlist.2

/-! ## The end of the file -/

/-- An end record stands at `at_`, and its comment fits. -/
def endAt (bytes : List UInt8) (at_ : Nat) : Bool :=
  u32At bytes at_ == some endSig &&
    (u16At bytes (at_ + 20)).any fun comment => decide (at_ + endLen + comment ≤ bytes.length)

theorem le_of_endAt {bytes : List UInt8} {at_ : Nat} (h : endAt bytes at_ = true) : at_ + endLen ≤ bytes.length := by
  rw [endAt, Bool.and_eq_true] at h
  cases hcomment : u16At bytes (at_ + 20) with
  | none =>
    rw [hcomment] at h
    cases h.2
  | some comment => exact (wordAt_lt hcomment).2

theorem endFits_eq {tail : List UInt8} (hlen : tail.length < 2 ^ 63) {at_ : Nat} (hat : at_ ≤ tail.length) :
    endFits tail at_ = .ok (endAt tail at_) := by
  rw [endFits, endAt]
  by_cases hsig : u32At tail at_ = some endSig
  · rw [if_pos hsig, add_eq (by unfold wordMax; omega), ok_bind, hsig, beq_self_eq_true, Bool.true_and]
    cases hcomment : u16At tail (at_ + 20) with
    | none => rfl
    | some comment =>
      obtain ⟨hlt, _⟩ := wordAt_lt hcomment
      dsimp only
      rw [add_eq (by unfold wordMax endLen; omega), ok_bind, add_eq (by unfold wordMax endLen; omega)]
      rfl
  · rw [if_neg hsig, beq_false_of_ne hsig, Bool.false_and]

theorem findEnd_eq {tail : List UInt8} (hlen : tail.length < 2 ^ 63) {place places : Nat}
    (hplaces : places ≤ tail.length + 1) (hplace : place < places) (hat : endAt tail place = true)
    (hlast : ∀ later, place < later → endAt tail later = false) : findEnd tail places = .ok place := by
  induction places with
  | zero => omega
  | succ places ih =>
    rw [findEnd, endFits_eq hlen (by omega), ok_bind]
    rcases Nat.lt_or_eq_of_le (Nat.le_of_lt_succ hplace) with hlt | heq
    · rw [hlast places hlt]
      exact ih (by omega) hlt
    · rw [← heq, hat]
      rfl

theorem findEnd_safe {tail : List UInt8} (hlen : tail.length < 2 ^ 63) {places : Nat} (hplaces : places ≤ tail.length + 1) :
    Meets (findEnd tail places) fun at_ => at_ < places := by
  induction places with
  | zero => exact meets_fail
  | succ places ih =>
    rw [findEnd, endFits_eq hlen (by omega), ok_bind]
    split
    · exact meets_ok (Nat.lt_succ_self places)
    · exact (ih (by omega)).imp fun at_ hat => Nat.lt_succ_of_lt hat

/-- Finding the directory ends without a fault, whatever the tail is. -/
theorem endOfDirectory_safe (tail : Slice) : Meets (endOfDirectory tail.bytes) fun _ => True := by
  have htail := tail.length_le
  refine (findEnd_safe htail (by unfold endLen; omega)).bind fun at_ hat => ?_
  have hplace (offset : Nat) (hoffset : offset ≤ 20) : (add at_ offset : Checked ZipError Nat) = .ok (at_ + offset) :=
    add_eq (by unfold wordMax; omega)
  have hback : (add (at_ - zip64LocatorLen) 8 : Checked ZipError Nat) = .ok (at_ - zip64LocatorLen + 8) :=
    add_eq (by unfold wordMax; omega)
  simp only [hplace 4 (by decide), hplace 6 (by decide), hplace 10 (by decide), hplace 12 (by decide),
    hplace 16 (by decide), hback, ok_bind]
  refine (meets_need _).bind fun disk _ => ?_
  refine (meets_need _).bind fun start _ => ?_
  split
  · exact meets_fail
  · split
    · exact (meets_need _).bind fun place _ => meets_ok trivial
    · refine (meets_need _).bind fun entries _ => ?_
      refine (meets_need _).bind fun size _ => ?_
      refine (meets_need _).bind fun offset _ => ?_
      split
      · exact meets_fail
      · exact meets_ok trivial

/-- The last end record whose comment fits stands at `at_`. -/
structure EndsAt (tail : List UInt8) (at_ : Nat) : Prop where
  fits : endAt tail at_ = true
  last : ∀ later, at_ < later → endAt tail later = false

theorem endsAt_of_findEnd {tail : List UInt8} (hlen : tail.length < 2 ^ 63) {place places : Nat}
    (hplaces : places ≤ tail.length + 1) (hbeyond : ∀ later, places ≤ later → endAt tail later = false)
    (h : findEnd tail places = .ok place) : EndsAt tail place := by
  induction places with
  | zero => cases h
  | succ places ih =>
    rw [findEnd, endFits_eq hlen (by omega), ok_bind] at h
    cases hat : endAt tail places with
    | true =>
      rw [hat, if_pos rfl] at h
      cases h
      exact ⟨hat, fun later hlater => hbeyond later hlater⟩
    | false =>
      rw [hat, if_neg (by decide)] at h
      refine ih (by omega) (fun later hlater => ?_) h
      rcases Nat.lt_or_eq_of_le hlater with hlt | heq
      · exact hbeyond later hlt
      · rw [← heq, hat]

theorem findEnd_eq_ok {tail : List UInt8} (hlen : tail.length < 2 ^ 63) {place : Nat} :
    findEnd tail (tail.length - endLen + 1) = .ok place ↔ EndsAt tail place := by
  have hlimit : endLen = 22 := rfl
  have hbeyond : ∀ later, tail.length - endLen + 1 ≤ later → endAt tail later = false := by
    intro later hlater
    cases hat : endAt tail later with
    | false => rfl
    | true =>
      have hle := le_of_endAt hat
      omega
  constructor
  · exact endsAt_of_findEnd hlen (by omega) hbeyond
  · intro h
    have hle := le_of_endAt h.fits
    exact findEnd_eq hlen (by omega) (by omega) h.fits h.last

/-- A locator before the tail's end record names the place of a ZIP64 record. -/
def Names (tail : List UInt8) (place : Nat) : Prop :=
  ∃ at_, EndsAt tail at_ ∧ u16At tail (at_ + 4) = some 0 ∧ u16At tail (at_ + 6) = some 0 ∧ zip64LocatorLen ≤ at_ ∧
    u32At tail (at_ - zip64LocatorLen) = some zip64LocatorSig ∧ u64At tail (at_ - zip64LocatorLen + 8) = some place

theorem need_eq_ok {α : Type} {word : Option α} {a : α} : need word = .ok a ↔ word = some a := by
  cases word with
  | none => constructor <;> intro h <;> cases h
  | some b => constructor <;> intro h <;> cases h <;> rfl

theorem endOfDirectory_zip64At (tail : Slice) {place : Nat} :
    endOfDirectory tail.bytes = .ok (.zip64At place) ↔ Names tail.bytes place := by
  have htail := tail.length_le
  have hplace {at_ : Nat} (hat : EndsAt tail.bytes at_) (offset : Nat) (hoffset : offset ≤ 20) :
      (add at_ offset : Checked ZipError Nat) = .ok (at_ + offset) := by
    have hle := le_of_endAt hat.fits
    exact add_eq (by unfold wordMax; omega)
  have hback {at_ : Nat} (hat : EndsAt tail.bytes at_) :
      (add (at_ - zip64LocatorLen) 8 : Checked ZipError Nat) = .ok (at_ - zip64LocatorLen + 8) := by
    have hle := le_of_endAt hat.fits
    exact add_eq (by unfold wordMax; omega)
  constructor
  · intro h
    obtain ⟨at_, hfind, h⟩ := bind_eq_ok.mp h
    have hat := (findEnd_eq_ok htail).mp hfind
    simp only [hplace hat 4 (by decide), hplace hat 6 (by decide), hplace hat 10 (by decide), hplace hat 12 (by decide),
      hplace hat 16 (by decide), hback hat, ok_bind] at h
    obtain ⟨disk, hdisk, h⟩ := bind_eq_ok.mp h
    obtain ⟨start, hstart, h⟩ := bind_eq_ok.mp h
    rw [need_eq_ok] at hdisk hstart
    by_cases hsplit : disk ≠ 0 ∨ start ≠ 0
    · rw [if_pos hsplit] at h
      cases h
    · rw [if_neg hsplit] at h
      rw [not_or, not_not, not_not] at hsplit
      rw [hsplit.1] at hdisk
      rw [hsplit.2] at hstart
      by_cases hlocator : zip64LocatorLen ≤ at_ ∧ u32At tail.bytes (at_ - zip64LocatorLen) = some zip64LocatorSig
      · rw [if_pos hlocator] at h
        obtain ⟨named, hnamed, h⟩ := bind_eq_ok.mp h
        cases h
        exact ⟨at_, hat, hdisk, hstart, hlocator.1, hlocator.2, need_eq_ok.mp hnamed⟩
      · rw [if_neg hlocator] at h
        obtain ⟨entries, _, h⟩ := bind_eq_ok.mp h
        obtain ⟨size, _, h⟩ := bind_eq_ok.mp h
        obtain ⟨offset, _, h⟩ := bind_eq_ok.mp h
        split at h <;> cases h
  · rintro ⟨at_, hat, hdisk, hstart, hroom, hlocator, hnamed⟩
    rw [endOfDirectory, (findEnd_eq_ok htail).mpr hat, ok_bind]
    simp only [hplace hat 4 (by decide), hplace hat 6 (by decide), hback hat, ok_bind]
    rw [hdisk, hstart, need_eq_ok.mpr rfl, ok_bind, ok_bind, if_neg (by simp), if_pos ⟨hroom, hlocator⟩, hnamed,
      need_eq_ok.mpr rfl, ok_bind]

end Hyperfetch.Zip
