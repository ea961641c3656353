import Hyperfetch.Weft.Checked
import Hyperfetch.Weft.Strides
import Hyperfetch.Weft.Words

/-!
# The boxes of a recorded part (`recording.rs`)

`box_at` reads the header of a box where a part's own bytes say it is, `children` goes
through the boxes inside one, and `fragment_key` finds a fragment's track and decode
time. Every sum is one of 64-bit words and every read faults outside the part. Whatever
the bytes are, nothing faults, and a box found lies within the part (`boxAt_safe`).
-/

namespace Hyperfetch.Recording

open Weft Checked

def kindOf (name : String) : List UInt8 := name.toList.map fun c => UInt8.ofNat c.toNat

/-- A box: its type, header size and size. -/
structure BoxHead where
  kind : List UInt8
  header : Nat
  size : Nat
  deriving DecidableEq, Repr

/-- The size that a box's first word gives, read on where that says so. -/
def sizeAt (part : List UInt8) (at_ left : Nat) : Nat → Checked Empty (Option (Nat × Nat))
  | 0 => .ok (some (8, left))
  | 1 =>
    if 16 ≤ left then do
      let large ← slice part (at_ + 8) (at_ + 16)
      .ok (some (16, beValue large))
    else .ok none
  | size => .ok (some (8, size))

/-- `box_at`. -/
def boxAt (part : List UInt8) (at_ : Nat) : Checked Empty (Option BoxHead) :=
  let left := part.length - at_
  if left < 8 then .ok none
  else do
    let head ← slice part at_ (at_ + 8)
    match ← sizeAt part at_ left (beValue (head.take 4)) with
    | none => .ok none
    | some (header, size) => .ok (if header ≤ size ∧ size ≤ left then some ⟨head.drop 4, header, size⟩ else none)

/-- The size that a box inside another gives. -/
def childSize (rest : List UInt8) : Nat → Option (Nat × Nat)
  | 0 => some (8, rest.length)
  | 1 => (getSlice rest 8 16).map fun large => (16, beValue large)
  | size => some (8, size)

def childrenFrom (data : List UInt8) : Nat → Nat → Checked Empty (List (List UInt8 × List UInt8))
  | 0, _ => fault
  | turns + 1, at_ => do
    let found : Option (List UInt8 × Nat × List UInt8) := do
      let rest ← getSlice data at_ data.length
      let kind ← getSlice rest 4 8
      let first ← getSlice rest 0 4
      let (header, size) ← childSize rest (beValue first)
      let content ← getSlice rest header size
      some (kind, size, content)
    match found with
    | none => .ok []
    | some (kind, size, content) => do
      let after ← add at_ size
      let more ← childrenFrom data turns after
      .ok ((kind, content) :: more)

/-- `children`: the boxes in `data`, as their type and content, up to one cut short. -/
def children (data : List UInt8) : Checked Empty (List (List UInt8 × List UInt8)) := childrenFrom data (data.length + 1) 0

/-- The content of the first child of a kind. -/
def child (data : List UInt8) (kind : String) : OptionT (Checked Empty) (List UInt8) := do
  let all ← children data
  let found ← ask (all.find? (·.1 = kindOf kind))
  pure found.2

/-- The decode time in a `tfdt`, as its version has it. -/
def decodeTime (tfdt : List UInt8) : Option Nat :=
  match tfdt.head? with
  | some 0 => (getSlice tfdt 4 8).map beValue
  | some 1 => (getSlice tfdt 4 12).map beValue
  | _ => none

/-- `fragment_key`. -/
def fragmentKey (moof : List UInt8) : OptionT (Checked Empty) (Nat × Nat) := do
  let traf ← child moof "traf"
  let tfhd ← child traf "tfhd"
  let tfdt ← child traf "tfdt"
  let track ← ask ((getSlice tfhd 4 8).map beValue)
  let time ← ask (decodeTime tfdt)
  pure (track, time)

/-! ## Nothing out of bounds -/

/-- A box with its header in some part, at some place. -/
structure BoxHead.Within (box : BoxHead) (at_ size : Nat) : Prop where
  header : 8 ≤ box.header
  contents : box.header ≤ box.size
  stop : at_ + box.size ≤ size

theorem sizeAt_safe (part : List UInt8) (at_ size : Nat) :
    Meets (sizeAt part at_ (part.length - at_) size) fun sized => ∀ header n, sized = some (header, n) → 8 ≤ header := by
  unfold sizeAt
  split
  next =>
    refine meets_ok fun header n h => ?_
    cases h
    exact Nat.le_refl 8
  next =>
    split
    next hlong =>
      refine (meets_slice (by omega) (by omega)).bind fun large _ => meets_ok fun header n h => ?_
      cases h
      decide
    next => exact meets_ok fun header n h => nomatch h
  next =>
    refine meets_ok fun header n h => ?_
    cases h
    exact Nat.le_refl 8

theorem boxAt_safe (part : List UInt8) (at_ : Nat) :
    Meets (boxAt part at_) fun found => ∀ box, found = some box → box.Within at_ part.length := by
  unfold boxAt
  extract_lets left
  split
  next => exact meets_ok fun box h => nomatch h
  next hleft =>
    refine (meets_slice (by omega) (by omega)).bind fun head _ => ?_
    refine (sizeAt_safe part at_ _).bind fun sized hheader => ?_
    split
    next => exact meets_ok fun box h => nomatch h
    next header size =>
      refine meets_ok fun box h => ?_
      split at h
      next hfits =>
        cases h
        refine ⟨hheader header size rfl, hfits.1, ?_⟩
        show at_ + size ≤ part.length
        omega
      next => cases h

theorem childSize_header {rest : List UInt8} {first header size : Nat} (h : childSize rest first = some (header, size)) :
    8 ≤ header := by
  unfold childSize at h
  split at h
  next =>
    cases h
    exact Nat.le_refl 8
  next =>
    obtain ⟨large, -, heq⟩ := Option.map_eq_some_iff.mp h
    cases heq
    decide
  next =>
    cases h
    exact Nat.le_refl 8

/-- What a round of the walk over a box's children takes. -/
theorem childrenFrom_safe (data : Slice) {turns at_ : Nat} (hturns : data.bytes.length < turns + at_) (hat : at_ ≤ data.bytes.length) :
    Meets (childrenFrom data.bytes turns at_) fun all => ∀ found ∈ all, found.2.length < 2 ^ 63 := by
  have hlen := data.length_le
  induction turns generalizing at_ with
  | zero => omega
  | succ turns ih =>
    unfold childrenFrom
    extract_lets found
    cases hfound : found with
    | none => exact meets_ok fun f hf => absurd hf List.not_mem_nil
    | some f =>
      obtain ⟨kind, size, content⟩ := f
      simp only [found, Option.bind_eq_bind, Option.bind_eq_some_iff] at hfound
      obtain ⟨rest, hrest, kind', -, first, -, ⟨header, size'⟩, hsize, content', hcontent, heq⟩ := hfound
      cases heq
      obtain ⟨-, -, rfl⟩ := getSlice_eq_some.mp hrest
      obtain ⟨hle, hin, rfl⟩ := getSlice_eq_some.mp hcontent
      have hpos := childSize_header hsize
      rw [length_extract (Nat.le_refl _)] at hin
      refine (meets_add (by unfold wordMax; omega)).bind fun after hafter => ?_
      subst hafter
      refine (ih (by omega) (by omega)).bind fun more hmore => meets_ok ?_
      intro f hf
      rcases List.mem_cons.mp hf with rfl | hf
      · show (List.extract _ _ _).length < _
        rw [length_extract (by rw [length_extract (Nat.le_refl _)]; exact hin)]
        omega
      · exact hmore f hf

theorem child_safe (data : Slice) (kind : String) : Finds (child data.bytes kind) fun content => content.length < 2 ^ 63 := by
  refine (finds_lift (childrenFrom_safe data (by omega) (Nat.zero_le _))).bind fun all hall => ?_
  refine (finds_ask _).bind fun found hfound => finds_pure ?_
  exact hall found (List.mem_of_find?_eq_some hfound)

/-- A fragment's key is looked for without a fault. -/
theorem fragmentKey_safe (moof : Slice) : Finds (fragmentKey moof.bytes) fun _ => True := by
  refine (child_safe moof "traf").bind fun traf htraf => ?_
  refine (child_safe ⟨traf, htraf⟩ "tfhd").bind fun tfhd _ => ?_
  refine (child_safe ⟨traf, htraf⟩ "tfdt").bind fun tfdt _ => ?_
  refine (finds_ask _).bind fun track _ => (finds_ask _).bind fun time _ => ?_
  exact finds_pure trivial

end Hyperfetch.Recording
