import Mathlib.Tactic
import Hyperfetch.Weft.Tiling

/-!
# Byte ranges (`range.rs`)

Inclusive byte ranges, `merge_ranges` and `compute_gaps`. Offsets are natural
numbers; `saturating_add` is the one operation whose `u64` ceiling shows, so
it is kept. Merging covers what the input covered, in ranges at least a byte
apart; the gaps cover the rest of the file, each byte once.
-/

namespace Hyperfetch

open Weft

/-- `u64::MAX`. -/
def u64Max : Nat := 2 ^ 64 - 1

/-- `u64::saturating_add`. -/
def saturatingAdd (a b : Nat) : Nat := min (a + b) u64Max

inductive RangeError
  | invalidRange (start end_ : Nat)
  | emptyRange
  | invalidHeader (header : String)
  deriving DecidableEq, Repr

def RangeError.message : RangeError → String
  | .invalidRange start end_ => s!"Invalid range: start ({start}) is greater than end ({end_})"
  | .emptyRange => "Empty range cannot be split"
  | .invalidHeader header => s!"Invalid Content-Range header: {header}"

/-- An inclusive byte range `[start, end]`. -/
structure ByteRange where
  start : Nat
  end_ : Nat
  deriving DecidableEq, Repr

namespace ByteRange

/-- A range with its ends in order and within `u64`, as `new` checks it. -/
structure Valid (r : ByteRange) : Prop where
  ordered : r.start ≤ r.end_
  bounded : r.end_ ≤ u64Max

def new (start end_ : Nat) : Except RangeError ByteRange :=
  if start > end_ then .error (.invalidRange start end_) else .ok ⟨start, end_⟩

def fromLen (start len : Nat) : Except RangeError ByteRange :=
  if len = 0 then .error .emptyRange
  else if start + (len - 1) > u64Max then .error (.invalidRange start u64Max)
  else .ok ⟨start, start + (len - 1)⟩

/-- `len`, saturating at `u64::MAX`. -/
def len (r : ByteRange) : Nat := saturatingAdd (r.end_ - r.start) 1

def intersects (self other : ByteRange) : Bool :=
  decide (self.start ≤ other.end_) && decide (other.start ≤ self.end_)

def intersection (self other : ByteRange) : Option ByteRange :=
  if self.intersects other then
    some ⟨max self.start other.start, min self.end_ other.end_⟩
  else none

/-- Merges two ranges that overlap or are directly contiguous. -/
def merge (self other : ByteRange) : Option ByteRange :=
  if self.intersects other || saturatingAdd self.end_ 1 == other.start ||
      saturatingAdd other.end_ 1 == self.start then
    some ⟨min self.start other.start, max self.end_ other.end_⟩
  else none

/-- The derived order: by start, then by end. -/
def le (r s : ByteRange) : Bool :=
  decide (r.start < s.start) || (r.start == s.start && decide (r.end_ ≤ s.end_))

theorem new_eq_ok {start end_ : Nat} (h : start ≤ end_) :
    new start end_ = .ok ⟨start, end_⟩ := by
  simp [new, Nat.not_lt.mpr h]

theorem fromLen_eq_ok {start len : Nat} (hlen : 0 < len) (h : start + (len - 1) ≤ u64Max) :
    fromLen start len = .ok ⟨start, start + (len - 1)⟩ := by
  simp [fromLen, Nat.pos_iff_ne_zero.mp hlen, Nat.not_lt.mpr h]

theorem intersects_iff {r s : ByteRange} :
    r.intersects s = true ↔ r.start ≤ s.end_ ∧ s.start ≤ r.end_ := by
  simp [intersects]

end ByteRange

/-- The loop of `merge_ranges` over the sorted rest, from the range at hand. -/
def mergeFrom (current : ByteRange) : List ByteRange → List ByteRange
  | [] => [current]
  | next :: rest =>
    match current.merge next with
    | some m => mergeFrom m rest
    | none => current :: mergeFrom next rest

/-- Merges byte ranges into contiguous, non-overlapping ones. -/
def mergeRanges (ranges : List ByteRange) : List ByteRange :=
  match ranges.mergeSort ByteRange.le with
  | [] => []
  | first :: rest => mergeFrom first rest

/-- The last gap of `compute_gaps`: from the cursor to the end of the file. -/
def lastGap (totalSize cursor : Nat) : List ByteRange :=
  if cursor < totalSize then (ByteRange.new cursor (totalSize - 1)).toOption.toList else []

/-- The loop of `compute_gaps` over the merged ranges, and what follows it. -/
def gapsFrom (totalSize cursor : Nat) : List ByteRange → List ByteRange
  | [] => lastGap totalSize cursor
  | range :: rest =>
    if range.start ≥ totalSize then lastGap totalSize cursor
    else
      let gap := if range.start > cursor then
          (ByteRange.new cursor (range.start - 1)).toOption.toList else []
      let cursor := max (saturatingAdd range.end_ 1) cursor
      if cursor ≥ totalSize then gap ++ lastGap totalSize cursor
      else gap ++ gapsFrom totalSize cursor rest

/-- The gaps of `[0, total_size)` that `completed` leaves. -/
def computeGaps (totalSize : Nat) (completed : List ByteRange) : List ByteRange :=
  if totalSize = 0 then [] else gapsFrom totalSize 0 (mergeRanges completed)

/-! ## What the ranges cover -/

/-- Some range of the list holds byte `b`. -/
def Covered (rs : List ByteRange) (b : Nat) : Prop := ∃ r ∈ rs, r.start ≤ b ∧ b ≤ r.end_

/-- How many ranges of the list hold byte `b`. -/
def coverage (b : Nat) (rs : List ByteRange) : Nat :=
  cover ByteRange.start ByteRange.end_ b rs

@[simp] theorem coverage_nil (b : Nat) : coverage b [] = 0 := rfl

theorem coverage_cons (b : Nat) (r : ByteRange) (rs : List ByteRange) :
    coverage b (r :: rs) = coverage b rs + if r.start ≤ b ∧ b ≤ r.end_ then 1 else 0 :=
  cover_cons b r rs

@[simp] theorem coverage_append (b : Nat) (rs ss : List ByteRange) :
    coverage b (rs ++ ss) = coverage b rs + coverage b ss := cover_append b rs ss

theorem coverage_pos_iff {b : Nat} {rs : List ByteRange} :
    0 < coverage b rs ↔ Covered rs b := cover_pos_iff

/-- Ranges that all start later do not hold the byte. -/
theorem coverage_eq_zero {b : Nat} {rs : List ByteRange} (h : ∀ r ∈ rs, b < r.start) :
    coverage b rs = 0 := by
  refine Nat.eq_zero_of_not_pos fun hpos => ?_
  obtain ⟨r, hr, hrb, _⟩ := coverage_pos_iff.mp hpos
  exact absurd (h r hr) (Nat.not_lt.mpr hrb)

@[simp] theorem not_covered_nil (b : Nat) : ¬ Covered [] b := by simp [Covered]

theorem covered_cons {r : ByteRange} {rs : List ByteRange} {b : Nat} :
    Covered (r :: rs) b ↔ (r.start ≤ b ∧ b ≤ r.end_) ∨ Covered rs b := by
  simp [Covered]

/-- Ranges in order with at least one byte between any two. -/
structure Separated (rs : List ByteRange) : Prop where
  valid : ∀ r ∈ rs, r.Valid
  apart : rs.Pairwise (fun r s => r.end_ + 1 < s.start)

theorem Separated.tail {r : ByteRange} {rs : List ByteRange} (h : Separated (r :: rs)) :
    Separated rs :=
  ⟨fun s hs => h.valid s (List.mem_cons_of_mem _ hs), (List.pairwise_cons.mp h.apart).2⟩

/-- Separated ranges hold no byte twice. -/
theorem Separated.coverage_le_one {rs : List ByteRange} (h : Separated rs) (b : Nat) :
    coverage b rs ≤ 1 := by
  induction rs with
  | nil => simp
  | cons r rs ih =>
    have hrest := ih h.tail
    rw [coverage_cons]
    split
    · rename_i hr
      have hnone : coverage b rs = 0 := coverage_eq_zero fun s hs => by
        have := (List.pairwise_cons.mp h.apart).1 s hs
        omega
      omega
    · omega

theorem ByteRange.merge_some {r s m : ByteRange} (hr : r.Valid) (hs : s.Valid)
    (hle : r.start ≤ s.start) (h : r.merge s = some m) :
    m.Valid ∧ m.start = r.start ∧
      ∀ b, (m.start ≤ b ∧ b ≤ m.end_) ↔ (r.start ≤ b ∧ b ≤ r.end_) ∨ (s.start ≤ b ∧ b ≤ s.end_) := by
  have := hr.ordered; have := hr.bounded; have := hs.ordered; have := hs.bounded
  simp only [merge, Bool.or_eq_true, intersects_iff, beq_iff_eq, saturatingAdd] at h
  split at h
  · rename_i hcond
    simp only [Option.some.injEq] at h
    subst h
    refine ⟨⟨?_, ?_⟩, ?_, ?_⟩ <;> dsimp only <;> omega
  · cases h

theorem ByteRange.merge_none {r s : ByteRange} (hr : r.Valid) (hs : s.Valid)
    (hle : r.start ≤ s.start) (h : r.merge s = none) : r.end_ + 1 < s.start := by
  have := hr.ordered; have := hs.ordered; have := hs.bounded
  simp only [merge, Bool.or_eq_true, intersects_iff, beq_iff_eq, saturatingAdd] at h
  split at h
  · cases h
  · rename_i hcond
    omega

/-- What the merging loop returns, from a range that starts no later than the
sorted rest. -/
theorem mergeFrom_spec {current : ByteRange} {rest : List ByteRange} (hc : current.Valid)
    (hv : ∀ r ∈ rest, r.Valid) (hsorted : rest.Pairwise (fun r s => r.start ≤ s.start))
    (hle : ∀ r ∈ rest, current.start ≤ r.start) :
    Separated (mergeFrom current rest) ∧
      (∀ r ∈ mergeFrom current rest, current.start ≤ r.start) ∧
      ∀ b, Covered (mergeFrom current rest) b ↔
        (current.start ≤ b ∧ b ≤ current.end_) ∨ Covered rest b := by
  induction rest generalizing current with
  | nil => exact ⟨⟨by simpa [mergeFrom] using hc, by simp [mergeFrom]⟩, by simp [mergeFrom],
      by simp [mergeFrom, covered_cons]⟩
  | cons next rest ih =>
    rw [List.pairwise_cons] at hsorted
    have hnext := hv next List.mem_cons_self
    have hstart := hle next List.mem_cons_self
    have hv' : ∀ r ∈ rest, r.Valid := fun r hr => hv r (List.mem_cons_of_mem _ hr)
    cases hm : current.merge next with
    | some m =>
      obtain ⟨hmv, hms, hmb⟩ := ByteRange.merge_some hc hnext hstart hm
      obtain ⟨hsep, hfrom, hcov⟩ := ih hmv hv' hsorted.2
        (fun r hr => hms ▸ hle r (List.mem_cons_of_mem _ hr))
      simp only [mergeFrom, hm]
      refine ⟨hsep, fun r hr => hms ▸ hfrom r hr, fun b => ?_⟩
      rw [hcov, hmb, covered_cons, or_assoc]
    | none =>
      have hgap := ByteRange.merge_none hc hnext hstart hm
      obtain ⟨hsep, hfrom, hcov⟩ := ih hnext hv' hsorted.2 hsorted.1
      simp only [mergeFrom, hm]
      refine ⟨⟨List.forall_mem_cons.mpr ⟨hc, hsep.valid⟩, List.pairwise_cons.mpr ⟨?_, hsep.apart⟩⟩,
        List.forall_mem_cons.mpr ⟨le_rfl, ?_⟩, fun b => ?_⟩
      · intro r hr
        have := hfrom r hr
        omega
      · intro r hr
        exact hstart.trans (hfrom r hr)
      · rw [covered_cons, hcov, covered_cons]

theorem sorted_mergeSort_le (rs : List ByteRange) :
    (rs.mergeSort ByteRange.le).Pairwise (fun r s => r.start ≤ s.start) := by
  have := @List.pairwise_mergeSort _ ByteRange.le
    (fun r s t h1 h2 => by
      simp only [ByteRange.le, Bool.or_eq_true, Bool.and_eq_true, decide_eq_true_eq, beq_iff_eq] at *
      omega)
    (fun r s => by
      simp only [ByteRange.le, Bool.or_eq_true, Bool.and_eq_true, decide_eq_true_eq, beq_iff_eq]
      omega) rs
  refine this.imp fun h => ?_
  simp only [ByteRange.le, Bool.or_eq_true, Bool.and_eq_true, decide_eq_true_eq, beq_iff_eq] at h
  omega

/-- Merging keeps exactly the bytes covered, in separated ranges. -/
theorem mergeRanges_spec {rs : List ByteRange} (hv : ∀ r ∈ rs, r.Valid) :
    Separated (mergeRanges rs) ∧ ∀ b, Covered (mergeRanges rs) b ↔ Covered rs b := by
  have hmem : ∀ r, r ∈ rs.mergeSort ByteRange.le ↔ r ∈ rs := fun r => List.mem_mergeSort
  have hcov : ∀ b, Covered (rs.mergeSort ByteRange.le) b ↔ Covered rs b := fun b => by
    simp only [Covered, hmem]
  have hsorted := sorted_mergeSort_le rs
  unfold mergeRanges
  cases hs : rs.mergeSort ByteRange.le with
  | nil => exact ⟨⟨by simp, by simp⟩, fun b => by rw [← hcov, hs]⟩
  | cons first rest =>
    rw [hs] at hsorted
    rw [List.pairwise_cons] at hsorted
    have hv' : ∀ r ∈ first :: rest, r.Valid := fun r hr => hv r ((hmem r).mp (hs ▸ hr))
    obtain ⟨hsep, _, hcover⟩ := mergeFrom_spec (hv' first List.mem_cons_self)
      (fun r hr => hv' r (List.mem_cons_of_mem _ hr)) hsorted.2 hsorted.1
    exact ⟨hsep, fun b => by rw [hcover, ← covered_cons, ← hs, hcov]⟩

/-- Of two separated lists over the same bytes, each holds every byte as often
as the other. -/
theorem Separated.coverage_congr {rs ss : List ByteRange} (hr : Separated rs) (hs : Separated ss) {b : Nat}
    (h : Covered rs b ↔ Covered ss b) : coverage b rs = coverage b ss := by
  have := hr.coverage_le_one b
  have := hs.coverage_le_one b
  rw [← coverage_pos_iff, ← coverage_pos_iff] at h
  omega

/-! ## Gaps -/

theorem lastGap_coverage (totalSize cursor b : Nat) :
    coverage b (lastGap totalSize cursor) = if cursor ≤ b ∧ b < totalSize then 1 else 0 := by
  unfold lastGap
  split
  · rename_i h
    rw [ByteRange.new_eq_ok (by omega)]
    simp only [Except.toOption, Option.toList, coverage_cons, coverage_nil]
    split_ifs <;> omega
  · rw [if_neg (by omega)]
    rfl

theorem lastGap_inside {totalSize cursor : Nat} :
    ∀ r ∈ lastGap totalSize cursor, r.start ≤ r.end_ ∧ r.end_ < totalSize := by
  intro r hr
  unfold lastGap at hr
  split at hr
  · rw [ByteRange.new_eq_ok (by omega)] at hr
    simp only [Except.toOption, Option.toList, List.mem_singleton] at hr
    subst hr
    dsimp only
    omega
  · cases hr

theorem lastGap_from {totalSize cursor : Nat} : ∀ r ∈ lastGap totalSize cursor, cursor ≤ r.start := by
  intro r hr
  unfold lastGap at hr
  split at hr
  · rw [ByteRange.new_eq_ok (by omega)] at hr
    simp only [Except.toOption, Option.toList, List.mem_singleton] at hr
    exact hr ▸ le_rfl
  · cases hr

/-- No gap starts before the cursor. -/
theorem gapsFrom_from {totalSize cursor : Nat} {rs : List ByteRange} :
    ∀ r ∈ gapsFrom totalSize cursor rs, cursor ≤ r.start := by
  induction rs generalizing cursor with
  | nil => exact lastGap_from
  | cons r rs ih =>
    have hgap := @lastGap_from r.start cursor
    simp only [lastGap] at hgap
    intro g hg
    simp only [gapsFrom] at hg
    split at hg
    · exact lastGap_from g hg
    · split at hg
      · exact (List.mem_append.mp hg).elim (hgap g) (fun h => le_trans (le_max_right _ _) (lastGap_from g h))
      · exact (List.mem_append.mp hg).elim (hgap g) (fun h => le_trans (le_max_right _ _) (ih g h))

/-- The gaps from `cursor` on hold each byte of the file the separated ranges
do not, once. -/
theorem gapsFrom_spec {totalSize cursor : Nat} {rs : List ByteRange} (ht : totalSize ≤ u64Max)
    (hsep : Separated rs) (hfrom : ∀ r ∈ rs, cursor ≤ r.start) :
    (∀ r ∈ gapsFrom totalSize cursor rs, r.start ≤ r.end_ ∧ r.end_ < totalSize) ∧
      ∀ b, cursor ≤ b → b < totalSize →
        coverage b (gapsFrom totalSize cursor rs) + coverage b rs = 1 := by
  induction rs generalizing cursor with
  | nil => exact ⟨lastGap_inside, fun b h1 h2 => by simp [gapsFrom, lastGap_coverage, h1, h2]⟩
  | cons r rs ih =>
    have hr := hsep.valid r List.mem_cons_self
    have := hr.ordered; have := hr.bounded
    have hcur := hfrom r List.mem_cons_self
    have hlater := (List.pairwise_cons.mp hsep.apart).1
    simp only [gapsFrom]
    split
    · -- the range starts past the end of the file, and so do all later ones
      refine ⟨lastGap_inside, fun b h1 h2 => ?_⟩
      rw [lastGap_coverage, if_pos ⟨h1, h2⟩, coverage_eq_zero]
      intro s hs
      rcases List.mem_cons.mp hs with rfl | hs
      · omega
      · have := hlater s hs; omega
    · rename_i hin
      have hgap := lastGap_coverage r.start cursor
      have hgapIn := @lastGap_inside r.start cursor
      simp only [lastGap] at hgap hgapIn
      split
      · -- the cursor passed the end of the file
        rename_i hdone
        have hreach : totalSize ≤ r.end_ + 1 := by unfold saturatingAdd at hdone; omega
        refine ⟨fun g hg => (List.mem_append.mp hg).elim (fun h => by have := hgapIn g h; omega)
          (lastGap_inside g), fun b h1 h2 => ?_⟩
        have hnone : coverage b rs = 0 :=
          coverage_eq_zero fun s hs => by have := hlater s hs; omega
        rw [coverage_append, hgap, lastGap_coverage, coverage_cons, hnone]
        split_ifs <;> omega
      · rename_i hgo
        have hnext : max (saturatingAdd r.end_ 1) cursor = r.end_ + 1 := by
          unfold saturatingAdd at hgo ⊢; omega
        rw [hnext]
        obtain ⟨hne, hcov⟩ := @ih (r.end_ + 1) hsep.tail
          (fun s hs => by have := hlater s hs; omega)
        refine ⟨fun g hg => (List.mem_append.mp hg).elim (fun h => by have := hgapIn g h; omega)
          (hne g), fun b h1 h2 => ?_⟩
        rw [coverage_append, hgap, coverage_cons]
        by_cases hb : b ≤ r.end_
        · -- later ranges and gaps start past `b`
          have hnone : coverage b rs = 0 :=
            coverage_eq_zero fun s hs => by have := hlater s hs; omega
          have hnogap : coverage b (gapsFrom totalSize (r.end_ + 1) rs) = 0 :=
            coverage_eq_zero fun g hg => by have := gapsFrom_from g hg; omega
          rw [hnone, hnogap]
          split_ifs <;> omega
        · have := hcov b (by omega) h2
          split_ifs <;> omega

/-- The gaps lie in the file, and with the ranges' bytes inside it they hold
each byte of `[0, total_size)` exactly once. -/
theorem computeGaps_spec {totalSize : Nat} {rs : List ByteRange} (ht : totalSize ≤ u64Max)
    (hv : ∀ r ∈ rs, r.Valid) :
    (∀ r ∈ computeGaps totalSize rs, r.start ≤ r.end_ ∧ r.end_ < totalSize) ∧
      ∀ b, b < totalSize → coverage b (computeGaps totalSize rs) + coverage b (mergeRanges rs) = 1 := by
  obtain ⟨hsep, _⟩ := mergeRanges_spec hv
  unfold computeGaps
  split
  · rename_i hzero
    subst hzero
    exact ⟨by simp, fun b hb => absurd hb (Nat.not_lt_zero b)⟩
  · obtain ⟨hin, hcov⟩ := @gapsFrom_spec totalSize 0 _ ht hsep (fun r _ => Nat.zero_le _)
    exact ⟨hin, fun b hb => hcov b (Nat.zero_le b) hb⟩

end Hyperfetch
