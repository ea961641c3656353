import Hyperfetch.Range
import Hyperfetch.Weft.Checked
import Hyperfetch.Weft.Tiling
import Hyperfetch.Weft.Words

/-!
# Segment indexes (`sidx_segments`)

The index is the first `sidx` box; the boxes before it are passed over by their sizes.
What it lists is what the box says (`Says`), one segment behind the other
(`sidxSegments_eq`). Nothing is read out of bounds, and no sum is too large for a word
but behind a box that ends right below the last place there is (`sidxSegments_safe`).
-/

namespace Hyperfetch.Dash

open Weft Checked

/-- A segment or a further index: its bytes in the file, its seconds, which one it is. -/
structure Entry where
  range : ByteRange
  secs : ℚ
  further : Bool
  deriving DecidableEq

/-- `checked_add`. -/
def checkedAdd (a b : Nat) : Option Nat := if a + b ≤ u64Max then some (a + b) else none

/-- `u32_at` and `u64_at`. -/
def uintAt (width : Nat) (bytes : List UInt8) (i : Nat) : OptionT (Checked Empty) Nat := do
  let stop ← liftM (add i width : Checked Empty Nat)
  ask ((getSlice bytes i stop).map beValue)

/-- The header and size of the box at `pos`. -/
def headAt (data : List UInt8) (pos : Nat) : OptionT (Checked Empty) (Nat × Nat) := do
  match ← uintAt 4 data pos with
  | 1 => do
    let large ← liftM (add pos 8 : Checked Empty Nat)
    let size ← uintAt 8 data large
    pure (16, size)
  | 0 => do
    let left ← liftM (sub data.length pos : Checked Empty Nat)
    pure (8, left)
  | size => pure (8, size)

/-- `chunks_exact`. -/
def chunksExact (n : Nat) (bytes : List UInt8) : List (List UInt8) :=
  (List.range (bytes.length / n)).map fun k => bytes.extract (n * k) (n * k + n)

/-- The segment of a reference, if it has a byte. -/
def segmentOf (timescale offset word ticks : Nat) : Option (List Entry) :=
  if 0 < word % 2 ^ 31 then
    (ByteRange.fromLen offset (word % 2 ^ 31)).toOption.map fun range => [⟨range, ticks / timescale, word / 2 ^ 31 = 1⟩]
  else some []

/-- The references of an index, from the byte of the file that the first is at. -/
def listFrom (timescale : Nat) : List (List UInt8) → Nat → OptionT (Checked Empty) (List Entry)
  | [], _ => pure []
  | reference :: more, offset => do
    let word ← uintAt 4 reference 0
    let ticks ← uintAt 4 reference 4
    let listed ← ask (segmentOf timescale offset word ticks)
    let offset ← ask (checkedAdd offset (word % 2 ^ 31))
    let rest ← listFrom timescale more offset
    pure (listed ++ rest)

/-- The first segment's offset behind the index, and the index behind that field: version 0
gives 32-bit times and offsets, version 1 64-bit ones. -/
def firstOffsetIn (body : List UInt8) : OptionT (Checked Empty) (Nat × List UInt8) := do
  let version ← ask body.head?
  if version = 0 then do
    let firstOffset ← uintAt 4 body 16
    let rest ← ask (getSlice body 20 body.length)
    pure (firstOffset, rest)
  else do
    let firstOffset ← uintAt 8 body 20
    let rest ← ask (getSlice body 28 body.length)
    pure (firstOffset, rest)

/-- What the index in `body`, that ends at `stop` of the data from `at_` on, lists. -/
def indexOf (body : List UInt8) (stop at_ : Nat) : OptionT (Checked Empty) (List Entry) := do
  let timescale ← uintAt 4 body 8
  let (firstOffset, rest) ← firstOffsetIn body
  let count ← ask ((getSlice rest 2 4).map beValue)
  let behind ← ask (checkedAdd at_ stop)
  let offset ← ask (checkedAdd behind firstOffset)
  let references ← ask (getSlice rest 4 (4 + 12 * count))
  listFrom (max timescale 1) (chunksExact 12 references) offset

def sidx : List UInt8 := [0x73, 0x69, 0x64, 0x78]

/-- The loop of `sidx_segments`; out of turns it would go on for ever. -/
def sidxFrom (data : List UInt8) (at_ : Nat) : Nat → Nat → OptionT (Checked Empty) (List Entry)
  | 0, _ => liftM (fault : Checked Empty (List Entry))
  | turns + 1, pos => do
    let stop ← liftM (add pos 8 : Checked Empty Nat)
    if data.length < stop then ask none
    else do
      let (header, size) ← headAt data pos
      if size < header then ask none
      else do
        let first ← liftM (add pos 4 : Checked Empty Nat)
        let kind ← liftM (slice data first stop : Checked Empty (List UInt8))
        if kind ≠ sidx then do
          let next ← ask (checkedAdd pos size)
          sidxFrom data at_ turns next
        else do
          let start ← liftM (add pos header : Checked Empty Nat)
          let stop ← ask (checkedAdd pos size)
          let body ← ask (getSlice data start stop)
          indexOf body stop at_

/-- `sidx_segments`. -/
def sidxSegments (data : List UInt8) (at_ : Nat) : OptionT (Checked Empty) (List Entry) :=
  sidxFrom data at_ (data.length + 1) 0

/-! ## The boxes and the index -/

/-- The size of the box at `pos` behind its header, as its first word has it. -/
def sizeAt (data : List UInt8) (pos : Nat) : Option (Nat × Nat) :=
  if beValue (data.extract pos (pos + 4)) = 1 then
    if pos + 16 ≤ data.length then some (16, beValue (data.extract (pos + 8) (pos + 16))) else none
  else if beValue (data.extract pos (pos + 4)) = 0 then some (8, data.length - pos)
  else some (8, beValue (data.extract pos (pos + 4)))

/-- A box at `pos` of this kind, though it may not end in the data. -/
structure Box (data kind : List UInt8) (pos header size : Nat) : Prop where
  within : pos + 8 ≤ data.length
  sized : sizeAt data pos = some (header, size)
  header_le : header ≤ size
  kind_eq : data.extract (pos + 4) (pos + 8) = kind

/-- Boxes of other kinds side by side from `a` to `b`. -/
inductive Passed (data : List UInt8) : Nat → Nat → Prop
  | refl (a : Nat) : Passed data a a
  | step {a b header size : Nat} {kind : List UInt8} : Box data kind a header size → kind ≠ sidx → a + size ≤ u64Max →
      Passed data (a + size) b → Passed data a b

/-- No box before the index ends so far up that another could not start behind. -/
def NoneNearTop (data : List UInt8) : Prop :=
  ∀ pos header size kind, Passed data 0 pos → Box data kind pos header size → kind ≠ sidx →
    pos + size + 8 ≤ u64Max ∨ u64Max < pos + size

/-- The first offset as the version has it, and where the count comes. -/
def FirstOffset (body : List UInt8) (base firstOffset : Nat) : Prop :=
  body.head? = some 0 ∧ base = 20 ∧ firstOffset = beValue (body.extract 16 20) ∨
    (∃ version, body.head? = some version ∧ version ≠ 0) ∧ base = 28 ∧ firstOffset = beValue (body.extract 20 28)

/-- A reference's length, its ticks, and whether it is to a further index. -/
def referenceAt (body : List UInt8) (place : Nat) : Nat × Nat × Bool :=
  (beValue (body.extract place (place + 4)) % 2 ^ 31, beValue (body.extract (place + 4) (place + 8)),
    beValue (body.extract place (place + 4)) / 2 ^ 31 = 1)

/-- What an index box says: the first segment's offset behind the box, its ticks a second,
and its references. -/
structure Says (body : List UInt8) (firstOffset timescale : Nat) (references : List (Nat × Nat × Bool)) : Prop where
  timescale_eq : timescale = max (beValue (body.extract 8 12)) 1
  fields : ∃ base count, FirstOffset body base firstOffset ∧ count = beValue (body.extract (base + 2) (base + 4)) ∧
    base + 4 + 12 * count ≤ body.length ∧ references = (List.range count).map fun k => referenceAt body (base + 4 + 12 * k)

/-- The segments of these references side by side from `offset` on, but for those without
a byte. -/
def laidOut (timescale : Nat) : List (Nat × Nat × Bool) → Nat → List Entry
  | [], _ => []
  | (length, ticks, further) :: more, offset =>
    (if 0 < length then [⟨⟨offset, offset + (length - 1)⟩, ticks / timescale, further⟩] else []) ++
      laidOut timescale more (offset + length)

/-- The bytes of all references. -/
def totalOf (references : List (Nat × Nat × Bool)) : Nat := (references.map Prod.fst).sum

/-! ## What is read -/

variable {data body : List UInt8}

theorem uintAt_run {width i n : Nat} {bytes : List UInt8} (h : i + width ≤ u64Max) :
    (uintAt width bytes i).run = .ok (some n) ↔ i + width ≤ bytes.length ∧ n = beValue (bytes.extract i (i + width)) := by
  rw [uintAt, bind_run]
  simp only [lift_run, add_eq h, Except.ok.injEq, exists_eq_left', ask_run, Option.map_eq_some_iff, getSlice_eq_some]
  constructor
  · rintro ⟨part, ⟨-, hin, rfl⟩, rfl⟩
    exact ⟨hin, rfl⟩
  · rintro ⟨hin, rfl⟩
    exact ⟨_, ⟨Nat.le_add_right i width, hin, rfl⟩, rfl⟩

theorem uintAt_safe {width i : Nat} {bytes : List UInt8} (h : i + width ≤ u64Max) : Finds (uintAt width bytes i) fun _ => True := by
  refine (finds_lift (meets_add h)).bind ?_
  rintro stop rfl
  exact (finds_ask _).imp fun _ _ => trivial

theorem uintAt_eq {width i : Nat} {bytes : List UInt8} (h : i + width ≤ u64Max) :
    uintAt width bytes i = ask ((getSlice bytes i (i + width)).map beValue) := by
  rw [uintAt, add_eq h]
  rfl

theorem ask_some_bind {α β : Type} (a : α) (f : α → OptionT (Checked Empty) β) : (ask (some a) >>= f) = f a := rfl

theorem ask_none_bind {α β : Type} (f : α → OptionT (Checked Empty) β) : (ask none >>= f) = ask none := rfl

theorem getSlice_of_le {bytes : List UInt8} {first stop : Nat} (h : first ≤ stop) (hin : stop ≤ bytes.length) :
    getSlice bytes first stop = some (bytes.extract first stop) := if_pos ⟨h, hin⟩

theorem headAt_eq (data : Slice) {pos : Nat} (hpos : pos + 8 ≤ data.bytes.length) :
    headAt data.bytes pos = ask (sizeAt data.bytes pos) := by
  have hlen := data.length_le
  have hmax : u64Max = 2 ^ 64 - 1 := rfl
  rw [headAt, uintAt_eq (by omega), getSlice_of_le (by omega) (by omega), Option.map_some, ask_some_bind, sizeAt]
  split
  next hone =>
    rw [if_pos hone, add_eq (by unfold wordMax; omega)]
    change (uintAt 8 data.bytes (pos + 8) >>= _) = _
    rw [uintAt_eq (by omega)]
    split
    next hin =>
      rw [getSlice_of_le (by omega) (by omega)]
      rfl
    next hin =>
      have hnone : getSlice data.bytes (pos + 8) (pos + 8 + 8) = none := if_neg (by omega)
      rw [hnone]
      rfl
  next hzero =>
    rw [hzero, if_neg (by decide), if_pos rfl, sub_eq (by omega)]
    rfl
  next hne hne' =>
    rw [if_neg hne, if_neg hne']
    rfl

/-! ## The references -/

/-- What `listFrom` reads of a reference. -/
def readReference (reference : List UInt8) : Nat × Nat × Bool := referenceAt reference 0

theorem checkedAdd_eq_some {a b c : Nat} : checkedAdd a b = some c ↔ a + b ≤ u64Max ∧ c = a + b := by
  unfold checkedAdd
  split
  next h => rw [Option.some_inj, and_iff_right h, eq_comm]
  next h => simp [h]

theorem segmentOf_eq {timescale offset word ticks : Nat} (h : offset + word % 2 ^ 31 ≤ u64Max) :
    segmentOf timescale offset word ticks = some (if 0 < word % 2 ^ 31 then
      [⟨⟨offset, offset + (word % 2 ^ 31 - 1)⟩, ticks / timescale, word / 2 ^ 31 = 1⟩] else []) := by
  rw [segmentOf]
  split
  next hpos =>
    rw [ByteRange.fromLen_eq_ok hpos (by omega)]
    rfl
  next => rfl

theorem listFrom_eq (timescale : Nat) {references : List (List UInt8)} (hsize : ∀ r ∈ references, r.length = 12)
    {offset : Nat} (hoffset : offset ≤ u64Max) :
    listFrom timescale references offset =
      ask (if offset + totalOf (references.map readReference) ≤ u64Max then
        some (laidOut timescale (references.map readReference) offset) else none) := by
  induction references generalizing offset with
  | nil => exact (congrArg ask (if_pos hoffset)).symm
  | cons reference more ih =>
    have hlen := hsize reference List.mem_cons_self
    rw [listFrom, uintAt_eq (by decide), getSlice_of_le (by omega) (by omega), Option.map_some, ask_some_bind,
      uintAt_eq (by decide), getSlice_of_le (by omega) (by omega), Option.map_some, ask_some_bind]
    have htotal : totalOf ((reference :: more).map readReference) =
        beValue (reference.extract 0 (0 + 4)) % 2 ^ 31 + totalOf (more.map readReference) := rfl
    rw [htotal]
    by_cases hfits : offset + beValue (reference.extract 0 (0 + 4)) % 2 ^ 31 ≤ u64Max
    · have hnext : checkedAdd offset (beValue (reference.extract 0 (0 + 4)) % 2 ^ 31) = some _ :=
        checkedAdd_eq_some.mpr ⟨hfits, rfl⟩
      rw [segmentOf_eq hfits, ask_some_bind, hnext, ask_some_bind,
        ih (fun r hr => hsize r (List.mem_cons_of_mem reference hr)) hfits, Nat.add_assoc]
      split <;> rfl
    · have hnext : checkedAdd offset (beValue (reference.extract 0 (0 + 4)) % 2 ^ 31) = none := if_neg hfits
      rw [hnext, if_neg (by omega)]
      cases segmentOf timescale offset (beValue (reference.extract 0 (0 + 4))) (beValue (reference.extract 4 (4 + 4))) <;> rfl

/-! ## The index -/

theorem extract_extract {l : List UInt8} {a b c d : Nat} (h : a + d ≤ b) : (l.extract a b).extract c d = l.extract (a + c) (a + d) := by
  rw [List.extract_eq_take_drop, List.extract_eq_take_drop, List.extract_eq_take_drop, List.drop_take, List.take_take,
    List.drop_drop]
  congr 1
  omega

theorem length_chunksExact {n : Nat} {bytes : List UInt8} : ∀ r ∈ chunksExact n bytes, r.length = n := by
  intro r hr
  obtain ⟨k, hk, rfl⟩ := List.mem_map.mp hr
  have hk := List.mem_range.mp hk
  have hle : n * k + n ≤ bytes.length :=
    (Nat.mul_succ n k).symm.le.trans ((Nat.mul_le_mul_left n hk).trans (Nat.mul_div_le bytes.length n))
  rw [List.extract_eq_take_drop, List.length_take, List.length_drop]
  omega

theorem map_chunksExact {base count : Nat} (hin : base + 4 + 12 * count ≤ body.length) :
    (chunksExact 12 ((body.extract base body.length).extract 4 (4 + 12 * count))).map readReference =
      (List.range count).map fun k => referenceAt body (base + 4 + 12 * k) := by
  rw [extract_extract (by omega)]
  have hlen : (body.extract (base + 4) (base + (4 + 12 * count))).length / 12 = count := by
    rw [List.extract_eq_take_drop, List.length_take, List.length_drop]
    omega
  rw [chunksExact, hlen, List.map_map]
  refine List.map_congr_left fun k hk => ?_
  have hk := List.mem_range.mp hk
  rw [Function.comp_apply, extract_extract (by omega), readReference, referenceAt, referenceAt, extract_extract (by omega),
    extract_extract (by omega)]
  simp only [Nat.add_assoc, Nat.add_zero, Nat.zero_add]

theorem pure_run {α : Type} {a b : α} : (pure a : OptionT (Checked Empty) α).run = .ok (some b) ↔ a = b := ask_run.trans Option.some_inj

/-- A first offset at `place`, and the rest from `base` on. -/
theorem offsetField_run {width place base first : Nat} {rest : List UInt8} (hplace : place + width ≤ base) (hbase : base ≤ u64Max) :
    (do
      let firstOffset ← uintAt width body place
      let rest ← ask (getSlice body base body.length)
      pure (firstOffset, rest) : OptionT (Checked Empty) (Nat × List UInt8)).run = .ok (some (first, rest)) ↔
    first = beValue (body.extract place (place + width)) ∧ base ≤ body.length ∧ rest = body.extract base body.length := by
  rw [bind_run]
  simp only [bind_run, uintAt_run (Nat.le_trans hplace hbase), ask_run, getSlice_eq_some, pure_run, Prod.mk.injEq]
  constructor
  · rintro ⟨_, ⟨-, rfl⟩, _, ⟨hle, -, rfl⟩, rfl, rfl⟩
    exact ⟨rfl, hle, rfl⟩
  · rintro ⟨rfl, hle, rfl⟩
    exact ⟨_, ⟨Nat.le_trans hplace hle, rfl⟩, _, ⟨hle, Nat.le_refl _, rfl⟩, rfl, rfl⟩

theorem firstOffsetIn_run {first : Nat} {rest : List UInt8} :
    (firstOffsetIn body).run = .ok (some (first, rest)) ↔
      ∃ base, FirstOffset body base first ∧ base ≤ body.length ∧ rest = body.extract base body.length := by
  rw [firstOffsetIn, bind_run]
  constructor
  · rintro ⟨version, hversion, h⟩
    rw [ask_run] at hversion
    split at h
    next hzero =>
      rw [hzero] at hversion
      obtain ⟨hfirst, hrest⟩ := (offsetField_run (by decide) (by decide)).mp h
      exact ⟨20, .inl ⟨hversion, rfl, hfirst⟩, hrest⟩
    next hne =>
      obtain ⟨hfirst, hrest⟩ := (offsetField_run (by decide) (by decide)).mp h
      exact ⟨28, .inr ⟨⟨version, hversion, hne⟩, rfl, hfirst⟩, hrest⟩
  · rintro ⟨base, ⟨hversion, rfl, hfirst⟩ | ⟨⟨version, hversion, hne⟩, rfl, hfirst⟩, hrest⟩
    · exact ⟨0, ask_run.mpr hversion, (offsetField_run (by decide) (by decide)).mpr ⟨hfirst, hrest⟩⟩
    · refine ⟨version, ask_run.mpr hversion, ?_⟩
      rw [if_neg hne]
      exact (offsetField_run (by decide) (by decide)).mpr ⟨hfirst, hrest⟩

/-- The index lists what its box says, from its end and its first offset on, unless that is
past the last byte there is. -/
theorem indexOf_run {stop at_ : Nat} {listed : List Entry} :
    (indexOf body stop at_).run = .ok (some listed) ↔
      ∃ firstOffset timescale references, Says body firstOffset timescale references ∧
        at_ + stop + firstOffset + totalOf references ≤ u64Max ∧
          listed = laidOut timescale references (at_ + stop + firstOffset) := by
  rw [indexOf]
  simp only [bind_run, uintAt_run (show 8 + 4 ≤ u64Max by decide), ask_run, Option.map_eq_some_iff, getSlice_eq_some,
    checkedAdd_eq_some, Prod.exists, firstOffsetIn_run]
  constructor
  · rintro ⟨_, ⟨-, rfl⟩, firstOffset, _, ⟨base, hfirst, hbase, rfl⟩, count, ⟨_, ⟨-, hin, rfl⟩, hcount⟩, _, ⟨hbehind, rfl⟩, offset,
      ⟨hoffset, rfl⟩, _, ⟨-, hreferences, rfl⟩, hlist⟩
    rw [List.extract_eq_take_drop, List.length_take, List.length_drop] at hin hreferences
    rw [extract_extract (by omega)] at hcount
    have hfits : base + 4 + 12 * count ≤ body.length := by omega
    rw [listFrom_eq _ length_chunksExact hoffset, map_chunksExact hfits, ask_run] at hlist
    split at hlist
    next htotal =>
      exact ⟨firstOffset, _, _, ⟨rfl, base, count, hfirst, hcount.symm, hfits, rfl⟩, htotal, (Option.some.inj hlist).symm⟩
    next => cases hlist
  · rintro ⟨firstOffset, timescale, references, ⟨rfl, base, count, hfirst, hcount, hfits, rfl⟩, htotal, rfl⟩
    have hlen : (body.extract base body.length).length = body.length - base := by
      rw [List.extract_eq_take_drop, List.length_take, List.length_drop]
      omega
    have hbase : 20 ≤ base := by
      rcases hfirst with ⟨-, rfl, -⟩ | ⟨-, rfl, -⟩ <;> decide
    refine ⟨_, ⟨by omega, rfl⟩, firstOffset, _, ⟨base, hfirst, by omega, rfl⟩, count, ⟨_, ⟨by decide, by omega, rfl⟩, ?_⟩, _,
      ⟨by omega, rfl⟩, _, ⟨by omega, rfl⟩, _, ⟨by omega, by omega, rfl⟩, ?_⟩
    · rw [extract_extract (by omega), hcount]
    · rw [listFrom_eq _ length_chunksExact (by omega), map_chunksExact hfits, if_pos htotal, ask_run]

/-! ## Nothing out of bounds -/

theorem firstOffsetIn_safe (body : List UInt8) : Finds (firstOffsetIn body) fun _ => True := by
  rw [firstOffsetIn]
  refine (finds_ask _).bind fun version _ => ?_
  split
  · refine (uintAt_safe (by decide)).bind fun _ _ => ?_
    exact (finds_ask _).bind fun _ _ => finds_pure trivial
  · refine (uintAt_safe (by decide)).bind fun _ _ => ?_
    exact (finds_ask _).bind fun _ _ => finds_pure trivial

theorem listFrom_safe (timescale : Nat) (references : List (List UInt8)) (offset : Nat) :
    Finds (listFrom timescale references offset) fun _ => True := by
  induction references generalizing offset with
  | nil => exact finds_pure trivial
  | cons reference more ih =>
    rw [listFrom]
    refine (uintAt_safe (by decide)).bind fun _ _ => ?_
    refine (uintAt_safe (by decide)).bind fun _ _ => ?_
    refine (finds_ask _).bind fun _ _ => ?_
    refine (finds_ask _).bind fun offset _ => ?_
    exact (ih offset).bind fun _ _ => finds_pure trivial

theorem indexOf_safe (body : List UInt8) (stop at_ : Nat) : Finds (indexOf body stop at_) fun _ => True := by
  rw [indexOf]
  refine (uintAt_safe (by decide)).bind fun _ _ => ?_
  refine (firstOffsetIn_safe body).bind fun _ _ => ?_
  refine (finds_ask _).bind fun _ _ => ?_
  refine (finds_ask _).bind fun _ _ => ?_
  refine (finds_ask _).bind fun _ _ => ?_
  refine (finds_ask _).bind fun _ _ => ?_
  exact listFrom_safe _ _ _

theorem sizeAt_header {pos header size : Nat} (h : sizeAt data pos = some (header, size)) : 8 ≤ header ∧ header ≤ 16 := by
  unfold sizeAt at h
  split at h
  · split at h
    · obtain ⟨rfl, -⟩ := Prod.mk.inj (Option.some.inj h)
      decide
    · cases h
  · split at h
    · obtain ⟨rfl, -⟩ := Prod.mk.inj (Option.some.inj h)
      decide
    · obtain ⟨rfl, -⟩ := Prod.mk.inj (Option.some.inj h)
      decide

theorem Passed.concat {a b header size : Nat} {kind : List UInt8} (h : Passed data a b) (hbox : Box data kind b header size)
    (hkind : kind ≠ sidx) (hfits : b + size ≤ u64Max) : Passed data a (b + size) := by
  induction h with
  | refl a => exact .step hbox hkind hfits (.refl _)
  | step hbox' hkind' hfits' _ ih => exact .step hbox' hkind' hfits' (ih hbox hfits)

/-- The boxes are passed over without a fault if none ends near the top. -/
theorem sidxFrom_safe (data : Slice) (at_ : Nat) (hnear : NoneNearTop data.bytes) {turns pos : Nat} (hpos : 0 < turns)
    (hturns : data.bytes.length < turns + pos) (hpassed : Passed data.bytes 0 pos) (hfits : pos + 8 ≤ u64Max) :
    Finds (sidxFrom data.bytes at_ turns pos) fun _ => True := by
  have hlen := data.length_le
  have hmax : u64Max = 2 ^ 64 - 1 := rfl
  have hword : wordMax = 2 ^ 64 - 1 := rfl
  induction turns generalizing pos with
  | zero => exact absurd hpos (Nat.lt_irrefl 0)
  | succ turns ih =>
    rw [sidxFrom]
    refine (finds_lift (meets_add hfits)).bind ?_
    rintro stop rfl
    split
    next => exact (finds_ask none).imp fun _ _ => trivial
    next hin =>
      rw [headAt_eq data (by omega)]
      refine (finds_ask _).bind fun found hsize => ?_
      obtain ⟨header, size⟩ := found
      have hheader := sizeAt_header hsize
      change Finds (if size < header then _ else _) _
      split
      next => exact (finds_ask none).imp fun _ _ => trivial
      next hle =>
        refine (finds_lift (meets_add (by omega))).bind ?_
        rintro first rfl
        refine (finds_lift (meets_slice (by omega) (by omega))).bind fun kind hkind => ?_
        have hbox : Box data.bytes kind pos header size := ⟨by omega, hsize, by omega, hkind.symm⟩
        split
        next hne =>
          refine (finds_ask _).bind fun next hnext => ?_
          obtain ⟨hend, rfl⟩ := checkedAdd_eq_some.mp hnext
          have htop := hnear pos header size kind hpassed hbox hne
          exact ih (by omega) (by omega) (hpassed.concat hbox hne hend) (by omega)
        next =>
          refine (finds_lift (meets_add (by omega))).bind fun _ _ => ?_
          refine (finds_ask _).bind fun stop _ => ?_
          refine (finds_ask _).bind fun body _ => ?_
          exact indexOf_safe body stop at_

theorem sidxSegments_safe (data : Slice) (at_ : Nat) (hnear : NoneNearTop data.bytes) :
    Finds (sidxSegments data.bytes at_) fun _ => True :=
  sidxFrom_safe data at_ hnear (Nat.succ_pos _) (by omega) (.refl 0) (by decide)

/-- Behind a box that ends 8 bytes below the top no other box could start. -/
example : (sidxSegments [0, 0, 0, 1, 0x66, 0x72, 0x65, 0x65, 255, 255, 255, 255, 255, 255, 255, 248] 0).run = .error .fault := by
  decide +kernel

/-! ## What is listed -/

/-- The index box at `pos`, whole in the data. -/
structure IndexAt (data : List UInt8) (pos header size : Nat) : Prop where
  passed : Passed data 0 pos
  box : Box data sidx pos header size
  whole : pos + size ≤ data.length

theorem Passed.le {a b : Nat} (h : Passed data a b) : a ≤ b := by
  induction h with
  | refl a => exact Nat.le_refl a
  | step hbox _ _ _ ih => exact Nat.le_trans (Nat.le_add_right _ _) ih

/-- The first index box from a box on is that box, or behind it. -/
theorem passed_from_box {a b header size header' size' : Nat} {kind : List UInt8} (hbox : Box data kind a header size) :
    Passed data a b ∧ Box data sidx b header' size' ↔
      if kind = sidx then b = a ∧ header' = header ∧ size' = size
      else a + size ≤ u64Max ∧ Passed data (a + size) b ∧ Box data sidx b header' size' := by
  constructor
  · rintro ⟨hpassed, hindex⟩
    cases hpassed with
    | refl =>
      rw [if_pos (hbox.kind_eq.symm.trans hindex.kind_eq)]
      obtain ⟨rfl, rfl⟩ := Prod.mk.inj (Option.some.inj (hbox.sized.symm.trans hindex.sized))
      exact ⟨rfl, rfl, rfl⟩
    | step hbox' hkind' hfits hpassed =>
      obtain ⟨rfl, rfl⟩ := Prod.mk.inj (Option.some.inj (hbox.sized.symm.trans hbox'.sized))
      obtain rfl := hbox.kind_eq.symm.trans hbox'.kind_eq
      rw [if_neg hkind']
      exact ⟨hfits, hpassed, hindex⟩
  · split
    next hkind =>
      rintro ⟨rfl, rfl, rfl⟩
      subst hkind
      exact ⟨.refl b, hbox⟩
    next hkind =>
      rintro ⟨hfits, hpassed, hindex⟩
      exact ⟨.step hbox hkind hfits hpassed, hindex⟩

theorem ask_none_run {α : Type} {b : α} : ¬ (ask none : OptionT (Checked Empty) α).run = .ok (some b) := by
  rw [ask_run]
  exact (nomatch ·)

/-- What the walk from `pos` lists is what the first index box from there on lists. -/
theorem sidxFrom_run (data : Slice) {at_ turns pos : Nat} {listed : List Entry} (hpos : 0 < turns)
    (hturns : data.bytes.length < turns + pos) :
    (sidxFrom data.bytes at_ turns pos).run = .ok (some listed) ↔
      ∃ b header size, (Passed data.bytes pos b ∧ Box data.bytes sidx b header size) ∧ b + size ≤ data.bytes.length ∧
        (indexOf (data.bytes.extract (b + header) (b + size)) (b + size) at_).run = .ok (some listed) := by
  have hlen := data.length_le
  have hmax : u64Max = 2 ^ 64 - 1 := rfl
  have hword : wordMax = 2 ^ 64 - 1 := rfl
  induction turns generalizing pos with
  | zero => exact absurd hpos (Nat.lt_irrefl 0)
  | succ turns ih =>
    have hno (hnone : ∀ header size kind, ¬ Box data.bytes kind pos header size) {p : Nat → Nat → Nat → Prop} :
        ¬ ∃ b header size, (Passed data.bytes pos b ∧ Box data.bytes sidx b header size) ∧ p b header size := by
      rintro ⟨b, header, size, ⟨hpassed, hbox⟩, -⟩
      cases hpassed with
      | refl => exact hnone header size sidx hbox
      | step hbox' => exact hnone _ _ _ hbox'
    rw [sidxFrom]
    by_cases hin : pos + 8 ≤ data.bytes.length
    · rw [add_eq (by omega)]
      change ((if data.bytes.length < pos + 8 then _ else _) : OptionT (Checked Empty) (List Entry)).run = _ ↔ _
      rw [if_neg (by omega), headAt_eq data hin]
      cases hsize : sizeAt data.bytes pos with
      | none =>
        refine iff_of_false ask_none_run (hno fun header size kind hbox => ?_)
        cases hsize.symm.trans hbox.sized
      | some found =>
        obtain ⟨header, size⟩ := found
        have hheader := sizeAt_header hsize
        change ((if size < header then _ else _) : OptionT (Checked Empty) (List Entry)).run = _ ↔ _
        split
        next hlt =>
          refine iff_of_false ask_none_run (hno fun header' size' kind hbox => ?_)
          obtain ⟨rfl, rfl⟩ := Prod.mk.inj (Option.some.inj (hsize.symm.trans hbox.sized))
          exact absurd hbox.header_le (Nat.not_le.mpr hlt)
        next hle =>
          rw [add_eq (by omega)]
          change ((liftM (slice data.bytes (pos + 4) (pos + 8) : Checked Empty (List UInt8)) >>= _) :
            OptionT (Checked Empty) (List Entry)).run = _ ↔ _
          rw [slice_eq (by omega) hin]
          change ((if data.bytes.extract (pos + 4) (pos + 8) ≠ sidx then _ else _) : OptionT (Checked Empty) (List Entry)).run = _ ↔ _
          have hbox : Box data.bytes (data.bytes.extract (pos + 4) (pos + 8)) pos header size := ⟨hin, hsize, by omega, rfl⟩
          simp only [passed_from_box hbox]
          split
          next hne =>
            simp only [bind_run, ask_run, checkedAdd_eq_some]
            constructor
            · rintro ⟨_, ⟨hend, rfl⟩, h⟩
              obtain ⟨b, header', size', hindex, hrest⟩ := (ih (by omega) (by omega)).mp h
              exact ⟨b, header', size', ⟨hend, hindex⟩, hrest⟩
            · rintro ⟨b, header', size', ⟨hend, hindex⟩, hrest⟩
              exact ⟨_, ⟨hend, rfl⟩, (ih (by omega) (by omega)).mpr ⟨b, header', size', hindex, hrest⟩⟩
          next hkind =>
            simp only [if_pos (not_not.mp hkind), bind_run, ask_run, checkedAdd_eq_some, lift_run, getSlice_eq_some]
            constructor
            · rintro ⟨_, hstart, _, ⟨-, rfl⟩, body, ⟨-, hwhole, rfl⟩, h⟩
              rw [add_eq (by omega)] at hstart
              obtain rfl := Except.ok.inj hstart
              exact ⟨pos, header, size, ⟨rfl, rfl, rfl⟩, hwhole, h⟩
            · rintro ⟨_, _, _, ⟨rfl, rfl, rfl⟩, hwhole, h⟩
              exact ⟨_, add_eq (by omega), _, ⟨by omega, rfl⟩, _, ⟨by omega, hwhole, rfl⟩, h⟩
    · have hnone : ∀ header size kind, ¬ Box data.bytes kind pos header size := fun _ _ _ hbox => hin hbox.within
      refine iff_of_false ?_ (hno hnone)
      rw [bind_run]
      rintro ⟨stop, hstop, h⟩
      rw [lift_run] at hstop
      by_cases hfits : pos + 8 ≤ wordMax
      · rw [add_eq hfits] at hstop
        obtain rfl := Except.ok.inj hstop
        rw [if_pos (by omega)] at h
        exact ask_none_run h
      · rw [add, if_neg hfits] at hstop
        cases hstop

/-- What is listed is what the first index box says, from its end and its first offset on. -/
theorem sidxSegments_run (data : Slice) {at_ : Nat} {listed : List Entry} :
    (sidxSegments data.bytes at_).run = .ok (some listed) ↔
      ∃ pos header size firstOffset timescale references, IndexAt data.bytes pos header size ∧
        Says (data.bytes.extract (pos + header) (pos + size)) firstOffset timescale references ∧
          at_ + (pos + size) + firstOffset + totalOf references ≤ u64Max ∧
            listed = laidOut timescale references (at_ + (pos + size) + firstOffset) := by
  rw [sidxSegments, sidxFrom_run data (Nat.succ_pos _) (by omega)]
  simp only [indexOf_run]
  constructor
  · rintro ⟨pos, header, size, ⟨hpassed, hbox⟩, hwhole, firstOffset, timescale, references, hsays, hfits, rfl⟩
    exact ⟨pos, header, size, firstOffset, timescale, references, ⟨hpassed, hbox, hwhole⟩, hsays, hfits, rfl⟩
  · rintro ⟨pos, header, size, firstOffset, timescale, references, ⟨hpassed, hbox, hwhole⟩, hsays, hfits, rfl⟩
    exact ⟨pos, header, size, ⟨hpassed, hbox⟩, hwhole, firstOffset, timescale, references, hsays, hfits, rfl⟩

/-! ## One behind the other -/

/-- The segments adjoin, from the offset to the end of the references. -/
theorem chain_laidOut (timescale : Nat) (references : List (Nat × Nat × Bool)) (offset : Nat) :
    Chain (fun e => e.range.start) (fun e => e.range.end_) offset (offset + totalOf references)
      (laidOut timescale references offset) := by
  induction references generalizing offset with
  | nil => rfl
  | cons reference more ih =>
    obtain ⟨length, ticks, further⟩ := reference
    have hrest := ih (offset + length)
    have htotal : offset + totalOf ((length, ticks, further) :: more) = offset + length + totalOf more := by
      rw [Nat.add_assoc]
      rfl
    rw [laidOut, htotal]
    split
    next hpos =>
      refine ⟨rfl, Nat.le_add_right _ _, ?_⟩
      have hnext : offset + (length - 1) + 1 = offset + length := by omega
      simp only [hnext]
      exact hrest
    next hzero =>
      obtain rfl : length = 0 := by omega
      exact hrest

/-- They have the lengths of the references with a byte. -/
theorem lengths_laidOut (timescale : Nat) (references : List (Nat × Nat × Bool)) (offset : Nat) :
    (laidOut timescale references offset).map (fun e => e.range.end_ + 1 - e.range.start) =
      (references.map Prod.fst).filter fun length => 0 < length := by
  induction references generalizing offset with
  | nil => rfl
  | cons reference more ih =>
    obtain ⟨length, ticks, further⟩ := reference
    rw [laidOut, List.map_append, ih, List.map_cons]
    by_cases hpos : 0 < length
    · rw [if_pos hpos, List.filter_cons_of_pos (by simpa using hpos)]
      simp
      omega
    · rw [if_neg hpos, List.filter_cons_of_neg (by simpa using hpos)]
      rfl

end Hyperfetch.Dash
