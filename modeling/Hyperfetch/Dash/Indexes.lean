import Mathlib.Data.List.TakeWhile
import Hyperfetch.Text
import Hyperfetch.Dash.Sidx
import Hyperfetch.Weft.Fringe

/-!
# Files with an index, and without one (`Piece::segments`)

An index may list further indexes: reading them in turn unfolds the tree they make, and
leaves its segments (`readIndexes_eq`). A file without an index is cut into pieces that
tile it (`wholeSegments_eq`).
-/

namespace Hyperfetch.Dash

open Weft Checked Rose

def maxSegments : Nat := 1000000

def maxIndexBytes : Nat := 1024 * 1024

def maxIndexes : Nat := 64

def pieceBytes : Nat := 8 * 1024 * 1024

def headBytes : Nat := 64 * 1024

/-- What a stream is refused for. -/
inductive HlsError
  | unavailable (reason : String)
  | unsupported (reason : String)
  deriving DecidableEq, Repr

def malformed (reason : String) : HlsError := .unsupported ("malformed DASH manifest: " ++ reason)

def tooMany : HlsError := .unsupported s!"stream has more than {maxSegments} segments"

/-- A computation without errors of its own, among others. -/
def widen {ε α : Type} : Checked Empty α → Checked ε α
  | .ok a => .ok a
  | .error _ => fault

/-- The bytes fetched of an index. -/
def firstBytes (range : ByteRange) : Except RangeError ByteRange :=
  ByteRange.new range.start (min range.end_ (saturatingAdd range.start (maxIndexBytes - 1)))

/-- All before an index. -/
def bytesBefore (index : ByteRange) : Option ByteRange :=
  if 0 < index.start then (ByteRange.new 0 (index.start - 1)).toOption else none

section

variable (url : String) (fetchRange : ByteRange → Checked HlsError Slice)

/-- The entries of an index in the file at `url`. -/
def readIndex (range : ByteRange) : Checked HlsError (List Entry) := do
  let first ← lift ((firstBytes range).mapError fun e => malformed e.message)
  let data ← fetchRange first
  match ← widen (sidxSegments data.bytes range.start).run with
  | some found => .ok found
  | none => fail (malformed s!"no segment index (sidx) at bytes {range.start}-{range.end_} of {url}")

/-- The loop of `Piece::segments`: the first further index is read in its place. -/
def readIndexes : Nat → List Entry → Checked HlsError (List Entry)
  | 0, listed => .ok listed
  | turns + 1, listed =>
    match listed.dropWhile fun e => !e.further with
    | [] => .ok listed
    | index :: rest => do
      let found ← readIndex url fetchRange index.range
      let listed := (listed.takeWhile fun e => !e.further) ++ found ++ rest
      if maxSegments < listed.length then fail tooMany else readIndexes turns listed

/-- `Piece::segments` of `Addressing::Indexed`: the init section, and the segments with
their seconds. -/
def indexedSegments (index : ByteRange) (given : Option ByteRange) :
    Checked HlsError (Option ByteRange × List (Option ByteRange × ℚ)) := do
  let listed ← readIndexes url fetchRange maxIndexes [⟨index, 0, true⟩]
  if listed.any fun e => e.further then fail (malformed s!"more than {maxIndexes} segment indexes in {url}")
  else .ok (given.or (bytesBefore index), listed.map fun e => (some e.range, e.secs))

end

/-- How many pieces `length` bytes make. -/
def piecesOf (length : Nat) : Nat := (length + pieceBytes - 1) / pieceBytes

/-- The piece at `start`, `None` where `ByteRange::new` refuses it. -/
def pieceFrom (size start : Nat) : Option ByteRange :=
  (ByteRange.new start (min (saturatingAdd start (pieceBytes - 1)) (size - 1))).toOption

/-- The segments of a file of `size` bytes from `from_` on, behind the init section. -/
def piecesBehind (size from_ : Nat) (head : Option ByteRange) (length : ℚ) :
    Checked HlsError (Option ByteRange × List (Option ByteRange × ℚ)) :=
  if size ≤ from_ then .ok (none, [((ByteRange.new 0 (size - 1)).toOption, length)])
  else if maxSegments < piecesOf (size - from_) then fail tooMany
  else
    let starts := (List.range (piecesOf (size - from_))).map fun k => from_ + k * pieceBytes
    .ok (head, (starts.filterMap (pieceFrom size)).map fun range => (some range, length / starts.length))

/-- `Piece::segments` of `Addressing::Whole`, of a file of `size` bytes. -/
def wholeSegments (size : Nat) (given : Option ByteRange) (length : Option ℚ) :
    Checked HlsError (Option ByteRange × List (Option ByteRange × ℚ)) :=
  let head := given.or (ByteRange.new 0 (min headBytes size - 1)).toOption
  piecesBehind size (head.elim 0 fun h => saturatingAdd h.end_ 1) head (length.getD 0)

/-! ## Indexes inside indexes -/

/-- An index of a tree that is what the server has: it is marked so, and read, lists its
children. -/
def Served (url : String) (fetchRange : ByteRange → Checked HlsError Slice) (e : Entry) (children : List (Rose Entry)) :
    Prop :=
  e.further = true ∧ readIndex url fetchRange e.range = .ok (children.map label)

def IsSegment (e : Entry) : Prop := e.further = false

section

variable {url : String} {fetchRange : ByteRange → Checked HlsError Slice}

/-- The first further index among the entries, and what is before and behind it. -/
theorem split_at_index {front : List Entry} (hfront : ∀ e ∈ front, IsSegment e) {index : Entry} (hindex : index.further = true)
    (rest : List Entry) :
    (front ++ index :: rest).takeWhile (fun e => !e.further) = front ∧
      (front ++ index :: rest).dropWhile (fun e => !e.further) = index :: rest := by
  induction front with
  | nil => simp [hindex]
  | cons e front ih =>
    obtain ⟨he, hfront⟩ := List.forall_mem_cons.mp hfront
    rw [IsSegment] at he
    obtain ⟨htake, hdrop⟩ := ih hfront
    simp [he, htake, hdrop]

/-- The list never gets too long while the tree is unfolded. -/
def NeverTooMany (ts : List (Rose Entry)) : Prop := ∀ k, 0 < k → k ≤ nodesAll ts → (unfold^[k] ts).length ≤ maxSegments

theorem neverTooMany_unfold {ts : List (Rose Entry)} (h : 0 < nodesAll ts) :
    NeverTooMany ts ↔ (unfold ts).length ≤ maxSegments ∧ NeverTooMany (unfold ts) := by
  have hnodes := nodesAll_unfold h
  constructor
  · intro hts
    refine ⟨hts 1 Nat.one_pos h, fun k hk hle => ?_⟩
    have hnext := hts (k + 1) (Nat.succ_pos k) (by omega)
    rwa [Function.iterate_succ_apply] at hnext
  · rintro ⟨hfirst, hrest⟩ k hk hle
    obtain ⟨k, rfl⟩ := Nat.exists_eq_add_one_of_ne_zero hk.ne'
    rw [Function.iterate_succ_apply]
    rcases Nat.eq_zero_or_pos k with rfl | hk
    · exact hfirst
    · exact hrest k hk (by omega)

theorem map_label_leaf (es : List Entry) : (es.map leaf).map label = es := by
  rw [List.map_map]
  exact List.map_id es

theorem readIndexes_segments (turns : Nat) {es : List Entry} (hes : ∀ e ∈ es, IsSegment e) :
    readIndexes url fetchRange turns es = .ok es := by
  cases turns with
  | zero => rfl
  | succ turns =>
    have hnone : es.dropWhile (fun e => !e.further) = [] := by
      rw [List.dropWhile_eq_nil_iff]
      intro e he
      rw [hes e he]
      rfl
    rw [readIndexes, hnone]

/-- Reading the indexes in turn leaves the segments of the tree, in order, or is refused
for too many entries. -/
theorem readIndexes_eq {turns : Nat} {ts : List (Rose Entry)} (hserved : EachAll IsSegment (Served url fetchRange) ts)
    (hturns : nodesAll ts ≤ turns) :
    (NeverTooMany ts → readIndexes url fetchRange turns (ts.map label) = .ok (leavesAll ts)) ∧
      (¬ NeverTooMany ts → readIndexes url fetchRange turns (ts.map label) = fail tooMany) := by
  induction turns generalizing ts with
  | zero =>
    have hzero : nodesAll ts = 0 := Nat.le_zero.mp hturns
    have hnever : NeverTooMany ts := fun k hk hle => by omega
    refine ⟨fun _ => ?_, fun h => absurd hnever h⟩
    rw [eq_leaves hzero, map_label_leaf, ← eq_leaves hzero]
    rfl
  | succ turns ih =>
    rcases Nat.eq_zero_or_pos (nodesAll ts) with hzero | hpos
    · have hnever : NeverTooMany ts := fun k hk hle => by omega
      refine ⟨fun _ => ?_, fun h => absurd hnever h⟩
      have hall : EachAll IsSegment (Served url fetchRange) ((leavesAll ts).map leaf) := eq_leaves hzero ▸ hserved
      have hread := @readIndexes_segments url fetchRange (turns + 1) _ (of_mem_leaves hall)
      rw [eq_leaves hzero, map_label_leaf, ← eq_leaves hzero]
      exact hread
    · have hnodes := nodesAll_unfold hpos
      have hnext := ih (eachAll_unfold hserved) (by omega)
      obtain ⟨front, index, children, rest, hts, hunfold⟩ := exists_node hpos
      rw [hts] at hserved
      obtain ⟨hfront, ⟨⟨hindex, hread⟩, -⟩, -⟩ := (eachAll_append _ _).mp hserved
      obtain ⟨htake, hdrop⟩ := split_at_index (of_mem_leaves hfront) hindex (rest.map label)
      have hlabels : ts.map label = front ++ index :: rest.map label := by
        rw [hts, List.map_append, map_label_leaf]
        rfl
      have hlisted : (unfold ts).map label = front ++ children.map label ++ rest.map label := by
        rw [hunfold, List.map_append, List.map_append, map_label_leaf]
      have hlength : (front ++ children.map label ++ rest.map label).length = (unfold ts).length := by
        rw [← hlisted, List.length_map]
      rw [neverTooMany_unfold hpos, hlabels, readIndexes, hdrop, htake]
      change (_ → (readIndex url fetchRange index.range >>= _) = _) ∧ (_ → (readIndex url fetchRange index.range >>= _) = _)
      rw [hread, ok_bind, ← leavesAll_unfold ts]
      dsimp only
      rw [hlength, ← hlisted]
      by_cases hlong : maxSegments < (unfold ts).length
      · rw [if_pos hlong]
        exact ⟨fun h => absurd h.1 (Nat.not_le.mpr hlong), fun _ => rfl⟩
      · rw [if_neg hlong]
        rw [and_iff_right (Nat.not_lt.mp hlong)]
        exact hnext

end

/-! ## The segments of a tree -/

/-- The bytes that no two segments have both, in the order of the file. -/
def Before (a b : Entry) : Prop := a.range.end_ < b.range.start

def Within (a b : Entry) : Prop := a.range.start ≤ b.range.start ∧ b.range.end_ ≤ a.range.end_

theorem spacing : Spacing Before Within where
  refl _ := ⟨Nat.le_refl _, Nat.le_refl _⟩
  trans hab hbc := ⟨Nat.le_trans hab.1 hbc.1, Nat.le_trans hbc.2 hab.2⟩
  mono hab hac hbd := Nat.lt_of_le_of_lt hac.2 (Nat.lt_of_lt_of_le hab hbd.1)

/-- What is behind a further index lies within the bytes that the reference to it gives. -/
def Contained (e : Entry) (children : List (Rose Entry)) : Prop := ∀ c ∈ children, Within e c.label

section

variable {url : String} {fetchRange : ByteRange → Checked HlsError Slice}

/-- What an index lists is in order. -/
theorem readIndex_ordered {range : ByteRange} {found : List Entry} (h : readIndex url fetchRange range = .ok found) :
    found.Pairwise Before := by
  rw [readIndex] at h
  obtain ⟨first, -, h⟩ := bind_eq_ok.mp h
  obtain ⟨data, -, h⟩ := bind_eq_ok.mp h
  cases hindex : (sidxSegments data.bytes range.start).run with
  | error e =>
    rw [hindex] at h
    cases h
  | ok listed =>
    rw [hindex] at h
    cases listed with
    | none => cases h
    | some listed =>
      obtain rfl : listed = found := Except.ok.inj h
      obtain ⟨pos, header, size, firstOffset, timescale, references, -, -, -, rfl⟩ := (sidxSegments_run data).mp hindex
      exact (chain_laidOut timescale references _).pairwise

theorem nested_of_served {e : Entry} {children : List (Rose Entry)} (hserved : Served url fetchRange e children)
    (hcontained : Contained e children) : Nested Before Within e children :=
  ⟨readIndex_ordered hserved.2, hcontained⟩

variable (url fetchRange) in
/-- The index is the server's, with the further indexes behind it. -/
def ServedTree (index : ByteRange) (children : List (Rose Entry)) : Prop :=
  (node ⟨index, 0, true⟩ children).Each IsSegment (Served url fetchRange)

/-- The further indexes' segments lie within the bytes of the references to them. -/
def ContainedAll (children : List (Rose Entry)) : Prop := EachAll IsSegment Contained children

theorem leaves_in_file_order {index : ByteRange} {children : List (Rose Entry)} (hserved : ServedTree url fetchRange index children)
    (hcontained : ContainedAll children) : (leavesAll children).Pairwise Before := by
  have hordered : (children.map label).Pairwise Before := readIndex_ordered hserved.1.2
  have hnested : EachAll (fun _ => True) (Nested Before Within) children :=
    EachAll.imp (fun _ _ h => nested_of_served h.1 h.2) children (EachAll.and children hserved.2 hcontained)
  exact (leavesAll_ordered spacing children hnested hordered).1

theorem indexedSegments_eq {index : ByteRange} {children : List (Rose Entry)} (hserved : ServedTree url fetchRange index children)
    (hnodes : nodesAll children < maxIndexes) (given : Option ByteRange) :
    (NeverTooMany [node ⟨index, 0, true⟩ children] → indexedSegments url fetchRange index given =
      .ok (given.or (bytesBefore index), (leavesAll children).map fun e => (some e.range, e.secs))) ∧
    (¬ NeverTooMany [node ⟨index, 0, true⟩ children] → indexedSegments url fetchRange index given = fail tooMany) := by
  have hall : EachAll IsSegment (Served url fetchRange) [node ⟨index, 0, true⟩ children] := ⟨hserved, trivial⟩
  have hsegments := EachAll.leaves _ hall
  have hleaves : leavesAll [node (⟨index, 0, true⟩ : Entry) children] = leavesAll children := List.append_nil _
  have hcount : nodesAll [node (⟨index, 0, true⟩ : Entry) children] ≤ maxIndexes := hnodes
  obtain ⟨hfew, hmany⟩ := readIndexes_eq hall hcount
  rw [hleaves] at hfew hsegments
  have hnone : ((leavesAll children).any fun e => e.further) = false := by
    rw [List.any_eq_false]
    intro e he
    rw [hsegments e he]
    exact Bool.false_ne_true
  constructor
  · intro hnever
    have hread : readIndexes url fetchRange maxIndexes [⟨index, 0, true⟩] = _ := hfew hnever
    rw [indexedSegments, hread, ok_bind, hnone]
    rfl
  · intro hnever
    have hread : readIndexes url fetchRange maxIndexes [⟨index, 0, true⟩] = _ := hmany hnever
    rw [indexedSegments, hread]
    rfl

end

/-! ## A file without an index -/

/-- The pieces of a file behind its first bytes. -/
def pieceAt (size k : Nat) : ByteRange :=
  ⟨headBytes + k * pieceBytes, min (headBytes + k * pieceBytes + (pieceBytes - 1)) (size - 1)⟩

theorem lt_piecesOf {k length : Nat} : k < piecesOf length ↔ k * pieceBytes < length := by
  rw [piecesOf, Nat.lt_div_iff_mul_lt (by decide), pieceBytes]
  omega

theorem pieceFrom_eq {size k : Nat} (hsize : size ≤ u64Max) (hlt : headBytes + k * pieceBytes < size) :
    pieceFrom size (headBytes + k * pieceBytes) = some (pieceAt size k) := by
  have hend (start step : Nat) (hlt : start < size) :
      min (saturatingAdd start (step - 1)) (size - 1) = min (start + (step - 1)) (size - 1) := by
    rw [saturatingAdd]
    omega
  rw [pieceFrom, hend _ _ hlt, ByteRange.new_eq_ok (by omega)]
  rfl

/-- The first bytes are the init section. -/
theorem wholeSegments_none {size : Nat} (hpos : 0 < size) (hsize : size ≤ u64Max) (length : Option ℚ) :
    wholeSegments size none length =
      piecesBehind size (min headBytes size) (some ⟨0, min headBytes size - 1⟩) (length.getD 0) := by
  have hhead : ByteRange.new 0 (min headBytes size - 1) = .ok ⟨0, min headBytes size - 1⟩ :=
    ByteRange.new_eq_ok (Nat.zero_le _)
  have hfrom : saturatingAdd (min headBytes size - 1) 1 = min headBytes size := by
    have hmin : 0 < min headBytes size := Nat.lt_min.mpr ⟨by decide, hpos⟩
    rw [saturatingAdd]
    omega
  rw [wholeSegments, hhead]
  exact congrArg (fun n => piecesBehind size n (some ⟨0, min headBytes size - 1⟩) (length.getD 0)) hfrom

/-- The pieces behind the first bytes. -/
def piecesFor (size : Nat) : List ByteRange := (List.range (piecesOf (size - headBytes))).map (pieceAt size)

theorem pieceAt_end {size : Nat} (hlarge : headBytes < size) (k : Nat) :
    (pieceAt size k).end_ + 1 = min (headBytes + (k + 1) * pieceBytes) (headBytes + (size - headBytes)) := by
  have hpos : 0 < pieceBytes := by decide
  have hmul : (k + 1) * pieceBytes = k * pieceBytes + pieceBytes := Nat.succ_mul k pieceBytes
  have hend : (pieceAt size k).end_ = min (headBytes + k * pieceBytes + (pieceBytes - 1)) (size - 1) := rfl
  omega

theorem chain_piecesFor {size : Nat} (hlarge : headBytes < size) :
    Chain ByteRange.start ByteRange.end_ headBytes size (piecesFor size) := by
  have hcut := @chain_cut ByteRange ByteRange.start ByteRange.end_ (pieceAt size) headBytes (size - headBytes) pieceBytes
    (fun _ => rfl) (fun k _ => pieceAt_end hlarge k) (piecesOf (size - headBytes)) (fun _ => lt_piecesOf) (by decide)
  rwa [Nat.add_sub_cancel' hlarge.le] at hcut

theorem piecesBehind_large {size : Nat} (hlarge : headBytes < size) (hsize : size ≤ u64Max) (head : Option ByteRange) (length : ℚ) :
    piecesBehind size headBytes head length =
      if headBytes + maxSegments * pieceBytes < size then fail tooMany
      else .ok (head, (piecesFor size).map fun range => (some range, length / piecesOf (size - headBytes))) := by
  have hranges : ((List.range (piecesOf (size - headBytes))).map fun k => headBytes + k * pieceBytes).filterMap (pieceFrom size) =
      piecesFor size := by
    rw [List.filterMap_map, piecesFor, ← List.filterMap_eq_map]
    refine List.filterMap_congr fun k hk => ?_
    have hlt := lt_piecesOf.mp (List.mem_range.mp hk)
    rw [Function.comp_apply, Function.comp_apply, pieceFrom_eq hsize (by omega)]
  have hmany : maxSegments < piecesOf (size - headBytes) ↔ headBytes + maxSegments * pieceBytes < size := by
    rw [lt_piecesOf]
    omega
  rw [piecesBehind, if_neg (Nat.not_le.mpr hlarge)]
  refine if_congr hmany rfl ?_
  dsimp only
  rw [hranges, List.length_map, List.length_range]

/-- The first bytes before what adjoins them. -/
theorem chain_head {first size : Nat} {ranges : List ByteRange} (hpos : 0 < first)
    (h : Chain ByteRange.start ByteRange.end_ first size ranges) :
    Chain ByteRange.start ByteRange.end_ 0 size ((some ⟨0, first - 1⟩ : Option ByteRange).toList ++ ranges) := by
  have hend : first - 1 + 1 = first := Nat.sub_add_cancel hpos
  refine ⟨rfl, Nat.zero_le _, ?_⟩
  rwa [hend]

/-- The pieces of a file tile it, and the first bytes before them, unless they are too
many. -/
theorem wholeSegments_tile {size : Nat} (hpos : 0 < size) (hsize : size ≤ u64Max) (length : Option ℚ) :
    if headBytes + maxSegments * pieceBytes < size then wholeSegments size none length = fail tooMany
    else ∃ head ranges secs, wholeSegments size none length = .ok (head, ranges.map fun range => (some range, secs)) ∧
      Chain ByteRange.start ByteRange.end_ 0 size (head.toList ++ ranges) := by
  rw [wholeSegments_none hpos hsize]
  rcases Nat.lt_or_ge headBytes size with hlarge | hsmall
  · rw [Nat.min_eq_left hlarge.le, piecesBehind_large hlarge hsize]
    split
    next => rfl
    next =>
      exact ⟨_, piecesFor size, _, rfl, chain_head (by decide) (chain_piecesFor hlarge)⟩
  · have hfew : ¬ headBytes + maxSegments * pieceBytes < size := by omega
    rw [if_neg hfew, Nat.min_eq_right hsmall, piecesBehind, if_pos (Nat.le_refl size), ByteRange.new_eq_ok (Nat.zero_le _)]
    have hend : size - 1 + 1 = size := Nat.sub_add_cancel hpos
    exact ⟨none, [⟨0, size - 1⟩], _, rfl, rfl, Nat.zero_le _, hend⟩

/-! ## The segments of a file with an index, or without -/

/-- What is listed of data that is the file from `at_` on: what its first index box says,
from the box's end and the first offset on. -/
structure Listing (data : List UInt8) (at_ : Nat) (listed : List Entry) (pos header size firstOffset timescale : Nat)
    (references : List (Nat × Nat × Bool)) : Prop where
  index : IndexAt data pos header size
  said : Says (data.extract (pos + header) (pos + size)) firstOffset timescale references
  fits : at_ + (pos + size) + firstOffset + totalOf references ≤ u64Max
  listed_eq : listed = laidOut timescale references (at_ + (pos + size) + firstOffset)
  adjoin : Chain (fun e => e.range.start) (fun e => e.range.end_) (at_ + (pos + size) + firstOffset)
    (at_ + (pos + size) + firstOffset + totalOf references) listed
  lengths : listed.map (fun e => e.range.end_ + 1 - e.range.start) = (references.map Prod.fst).filter fun length => 0 < length

theorem sidxSegments_lists (data : Slice) {at_ : Nat} {listed : List Entry} :
    (sidxSegments data.bytes at_).run = .ok (some listed) ↔
      ∃ pos header size firstOffset timescale references,
        Listing data.bytes at_ listed pos header size firstOffset timescale references := by
  rw [sidxSegments_run]
  constructor
  · rintro ⟨pos, header, size, firstOffset, timescale, references, hindex, hsays, hfits, rfl⟩
    exact ⟨pos, header, size, firstOffset, timescale, references, hindex, hsays, hfits, rfl, chain_laidOut _ _ _,
      lengths_laidOut _ _ _⟩
  · rintro ⟨pos, header, size, firstOffset, timescale, references, h⟩
    exact ⟨pos, header, size, firstOffset, timescale, references, h.index, h.said, h.fits, h.listed_eq⟩

/-- Segments are listed side by side: those of an index, those of the indexes in it in
their places, and the pieces of a file without one. -/
theorem segments_listed_in_order :
    (∀ (data : Slice) (at_ : Nat), NoneNearTop data.bytes → Finds (sidxSegments data.bytes at_) fun _ => True) ∧
    (∀ (data : Slice) (at_ : Nat) (listed : List Entry), (sidxSegments data.bytes at_).run = .ok (some listed) ↔
      ∃ pos header size firstOffset timescale references,
        Listing data.bytes at_ listed pos header size firstOffset timescale references) ∧
    (∀ url fetchRange index given children, ServedTree url fetchRange index children → nodesAll children < maxIndexes →
      (NeverTooMany [node ⟨index, 0, true⟩ children] → indexedSegments url fetchRange index given =
        .ok (given.or (bytesBefore index), (leavesAll children).map fun e => (some e.range, e.secs))) ∧
      (¬ NeverTooMany [node ⟨index, 0, true⟩ children] → indexedSegments url fetchRange index given = fail tooMany) ∧
      (ContainedAll children → (leavesAll children).Pairwise Before)) ∧
    ∀ size length, 0 < size → size ≤ u64Max →
      if headBytes + maxSegments * pieceBytes < size then wholeSegments size none length = fail tooMany
      else ∃ head ranges secs, wholeSegments size none length = .ok (head, ranges.map fun range => (some range, secs)) ∧
        Chain ByteRange.start ByteRange.end_ 0 size (head.toList ++ ranges) := by
  refine ⟨sidxSegments_safe, fun data at_ listed => sidxSegments_lists data, ?_, ?_⟩
  · intro url fetchRange index given children hserved hnodes
    obtain ⟨hfew, hmany⟩ := indexedSegments_eq hserved hnodes given
    exact ⟨hfew, hmany, leaves_in_file_order hserved⟩
  · intro size length hpos hsize
    exact wholeSegments_tile hpos hsize length

/-- A file of 2^63 bytes without an index makes too many pieces. -/
theorem huge_file_refused :
    ¬ ∃ head ranges secs, wholeSegments (2 ^ 63) none none = .ok (head, ranges.map fun range => (some range, secs)) ∧
      Chain ByteRange.start ByteRange.end_ 0 (2 ^ 63) (head.toList ++ ranges) := by
  rintro ⟨head, ranges, secs, hok, -⟩
  have hrefused := @wholeSegments_tile (2 ^ 63) (by decide) (by decide) none
  rw [if_pos (by decide), hok] at hrefused
  cases hrefused

end Hyperfetch.Dash
