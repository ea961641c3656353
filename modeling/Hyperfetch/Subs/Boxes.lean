import Hyperfetch.Text
import Hyperfetch.Weft.Checked
import Hyperfetch.Weft.Words

/-!
# The boxes of an MP4 (`boxes`, `child`, `be`)

Boxes are laid one after another, each saying its own size. Every sum and every
slice of the source is checked here, and the walk over the boxes faults if it
turns more often than there are bytes; `get` gives nothing out of bounds, as in
the source. Whatever the bytes are, no walk faults and each box lies within the
data (`boxes_safe`).
-/

namespace Hyperfetch.Subs

open Weft Weft.Checked

/-- Where a box starts and where its contents are. -/
structure Box where
  kind : List UInt8
  start : Nat
  first : Nat
  stop : Nat
  deriving DecidableEq, Repr

def kindOf (name : String) : List UInt8 := name.toList.map fun c => UInt8.ofNat c.toNat

/-- The big-endian number in the `len` bytes at `at_`, at most eight. -/
def be (data : List UInt8) (at_ len : Nat) : Option Nat := (getSlice data at_ (at_ + len)).map beValue

/-- The length of a box's header, and the size it gives. -/
def headerAndSize (data : List UInt8) (at_ size : Nat) : Checked Text (Option (Nat × Nat)) :=
  match size with
  | 0 => do
    let left ← sub data.length at_
    .ok (some (8, left))
  | 1 => do
    let place ← add at_ 8
    .ok ((be data place 8).map fun size => (16, size))
  | size => .ok (some (8, size))

def boxesFrom (data : List UInt8) : Nat → Nat → Checked Text (List Box)
  | 0, _ => fault
  | turns + 1, at_ => do
    let first ← add at_ 4
    let stop ← add at_ 8
    match be data at_ 4, getSlice data first stop with
    | some size, some kind => do
      match ← headerAndSize data at_ size with
      | none => .ok []
      | some (header, size) => do
        let left ← sub data.length at_
        if size < header ∨ left < size then .ok []
        else do
          let first ← add at_ header
          let stop ← add at_ size
          let rest ← boxesFrom data turns stop
          .ok ({ kind, start := at_, first, stop } :: rest)
    | _, _ => .ok []

def boxes (data : List UInt8) : Checked Text (List Box) := boxesFrom data (data.length + 1) 0

/-- The contents of the first box of a kind. -/
def child (data : List UInt8) (kind : String) : OptionT (Checked Text) (List UInt8) := do
  let all ← boxes data
  let box ← ask (all.find? (·.kind = kindOf kind))
  liftM (slice data box.first box.stop : Checked Text (List UInt8))

/-! ## Nothing out of bounds -/

theorem be_lt {data : List UInt8} {at_ len n : Nat} (h : be data at_ len = some n) :
    n < 256 ^ len ∧ at_ + len ≤ data.length := by
  obtain ⟨bytes, hbytes, rfl⟩ := Option.map_eq_some_iff.mp h
  obtain ⟨_, hin, rfl⟩ := getSlice_eq_some.mp hbytes
  refine ⟨Nat.lt_of_lt_of_eq (leValue_lt _) ?_, hin⟩
  rw [List.length_reverse, length_extract hin]
  congr 1
  omega

/-- A box with its header in some data, and its contents behind that. -/
structure Box.Within (box : Box) (size : Nat) : Prop where
  header : box.start + 8 ≤ box.first
  contents : box.first ≤ box.stop
  stop : box.stop ≤ size

theorem headerAndSize_safe (data : Slice) {at_ : Nat} (hat : at_ ≤ data.bytes.length) (size : Nat) :
    Meets (headerAndSize data.bytes at_ size) fun sized => ∀ header n, sized = some (header, n) → 8 ≤ header := by
  have hlen := data.length_le
  unfold headerAndSize
  split
  · rw [sub_eq hat, ok_bind]
    refine meets_ok fun header n h => ?_
    cases h
    exact Nat.le_refl 8
  · rw [add_eq (by unfold wordMax; omega), ok_bind]
    refine meets_ok fun header n h => ?_
    obtain ⟨_, _, heq⟩ := Option.map_eq_some_iff.mp h
    cases heq
    decide
  · refine meets_ok fun header n h => ?_
    cases h
    exact Nat.le_refl 8

theorem boxesFrom_safe (data : Slice) {turns at_ : Nat} (hturns : data.bytes.length < turns + at_)
    (hat : at_ ≤ data.bytes.length) :
    Meets (boxesFrom data.bytes turns at_) fun all => ∀ box ∈ all, box.Within data.bytes.length := by
  have hlen := data.length_le
  induction turns generalizing at_ with
  | zero => omega
  | succ turns ih =>
    rw [boxesFrom, add_eq (by unfold wordMax; omega), ok_bind, add_eq (by unfold wordMax; omega), ok_bind]
    have hnil : Meets (.ok [] : Checked Text (List Box)) fun all => ∀ box ∈ all, box.Within data.bytes.length :=
      meets_ok fun box hbox => absurd hbox List.not_mem_nil
    split
    · refine (headerAndSize_safe data hat _).bind fun sized hheader => ?_
      split
      · exact hnil
      · rename_i header size
        rw [sub_eq hat, ok_bind]
        split
        · exact hnil
        · rename_i hfits
          rw [not_or, Nat.not_lt, Nat.not_lt] at hfits
          have hpos := hheader header size rfl
          -- the box is not empty, so the walk goes on behind its start
          refine (meets_add (by unfold wordMax; omega)).bind fun first hfirst => ?_
          refine (meets_add (by unfold wordMax; omega)).bind fun stop hstop => ?_
          subst hfirst
          subst hstop
          refine (ih (by omega) (by omega)).bind fun rest hrest => meets_ok ?_
          intro box hbox
          rcases List.mem_cons.mp hbox with rfl | hbox
          · exact ⟨by dsimp only; omega, by dsimp only; omega, by dsimp only; omega⟩
          · exact hrest box hbox
    · exact hnil

/-- The walk over the boxes of any data ends, and no box reaches out of it. -/
theorem boxes_safe (data : Slice) : Meets (boxes data.bytes) fun all => ∀ box ∈ all, box.Within data.bytes.length :=
  boxesFrom_safe data (by omega) (Nat.zero_le _)

/-- What is in a box can be a slice again. -/
theorem contents_safe (data : Slice) {box : Box} (h : box.Within data.bytes.length) :
    Meets (slice data.bytes box.first box.stop : Checked Text (List UInt8)) fun part => part.length < 2 ^ 63 := by
  refine (meets_slice h.contents h.stop).imp fun part hpart => ?_
  have hstop := h.stop
  have hlen := data.length_le
  rw [hpart, length_extract h.stop]
  omega

theorem child_safe (data : Slice) (kind : String) : Finds (child data.bytes kind) fun part => part.length < 2 ^ 63 := by
  refine (finds_lift (boxes_safe data)).bind fun all hall => ?_
  refine (finds_ask _).bind fun box hbox => ?_
  exact finds_lift (contents_safe data (hall box (List.mem_of_find?_eq_some hbox)))

end Hyperfetch.Subs
