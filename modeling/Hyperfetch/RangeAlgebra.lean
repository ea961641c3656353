import Hyperfetch.Range

/-!
# Merging and complementing any list of ranges (`range.rs`)

`ByteRange::new` refuses a range that ends before it starts, and so does its
deserialisation, but the type has room for one. What merging and complementing
cover is right for any list; that the ranges they return lie apart needs every
range given to them to be in order.
-/

namespace Hyperfetch

namespace ByteRange

/-- The ends of a range are `u64`s. -/
def Fits (r : ByteRange) : Prop := r.start ≤ u64Max ∧ r.end_ ≤ u64Max

/-- It holds byte `b`. -/
def Holds (r : ByteRange) (b : Nat) : Prop := r.start ≤ b ∧ b ≤ r.end_

/-- Merging with a range that starts no earlier covers both, empty or not. -/
theorem holds_merge {r s m : ByteRange} (hr : r.Fits) (hs : s.Fits) (hle : r.start ≤ s.start)
    (h : r.merge s = some m) : m.Fits ∧ m.start = r.start ∧ ∀ b, m.Holds b ↔ r.Holds b ∨ s.Holds b := by
  unfold Fits at hr hs
  simp only [merge, Bool.or_eq_true, intersects_iff, beq_iff_eq, saturatingAdd] at h
  split at h
  · cases h
    refine ⟨⟨?_, ?_⟩, ?_, fun b => ?_⟩
    · show min r.start s.start ≤ u64Max
      omega
    · show max r.end_ s.end_ ≤ u64Max
      omega
    · show min r.start s.start = r.start
      omega
    · show min r.start s.start ≤ b ∧ b ≤ max r.end_ s.end_ ↔ _
      unfold Holds
      omega
  · cases h

/-- The derived order. -/
theorem le_iff {r s : ByteRange} : r.le s = true ↔ r.start < s.start ∨ (r.start = s.start ∧ r.end_ ≤ s.end_) := by
  simp [le]

end ByteRange

open ByteRange

/-! ## Merging -/

/-- The merging loop covers what it was given, from ranges sorted by start. -/
theorem covered_mergeFrom {current : ByteRange} {rest : List ByteRange} (hfits : ∀ r ∈ current :: rest, r.Fits)
    (hsorted : (current :: rest).Pairwise fun r s => r.start ≤ s.start) (b : Nat) :
    Covered (mergeFrom current rest) b ↔ Covered (current :: rest) b := by
  induction rest generalizing current with
  | nil => rfl
  | cons next rest ih =>
    obtain ⟨hfirst, hrest⟩ := List.pairwise_cons.mp hsorted
    have hcurrent := hfits current List.mem_cons_self
    have hnext := hfits next (List.mem_cons_of_mem _ List.mem_cons_self)
    cases hm : current.merge next with
    | some m =>
      obtain ⟨hmfits, hmstart, hmholds⟩ := holds_merge hcurrent hnext (hfirst next List.mem_cons_self) hm
      have hmsorted : (m :: rest).Pairwise fun r s => r.start ≤ s.start := by
        refine List.pairwise_cons.mpr ⟨fun r hr => ?_, (List.pairwise_cons.mp hrest).2⟩
        rw [hmstart]
        exact hfirst r (List.mem_cons_of_mem _ hr)
      have hmall : ∀ r ∈ m :: rest, r.Fits := by
        intro r hr
        rcases List.mem_cons.mp hr with rfl | hr
        · exact hmfits
        · exact hfits r (List.mem_cons_of_mem _ (List.mem_cons_of_mem _ hr))
      have hm' := hmholds b
      unfold Holds at hm'
      simp only [mergeFrom, hm]
      rw [ih hmall hmsorted, covered_cons, covered_cons, covered_cons, hm', or_assoc]
    | none =>
      simp only [mergeFrom, hm]
      rw [covered_cons, ih (fun r hr => hfits r (List.mem_cons_of_mem _ hr)) hrest, covered_cons (r := current)]

/-- What the merging loop returns is sorted by start, from where it started. -/
theorem sorted_mergeFrom {current : ByteRange} {rest : List ByteRange} (hfits : ∀ r ∈ current :: rest, r.Fits)
    (hsorted : (current :: rest).Pairwise fun r s => r.start ≤ s.start) :
    (mergeFrom current rest).Pairwise (fun r s => r.start ≤ s.start) ∧
      ∀ r ∈ mergeFrom current rest, current.start ≤ r.start := by
  induction rest generalizing current with
  | nil => simp [mergeFrom]
  | cons next rest ih =>
    obtain ⟨hfirst, hrest⟩ := List.pairwise_cons.mp hsorted
    have hnext := hfirst next List.mem_cons_self
    cases hm : current.merge next with
    | some m =>
      obtain ⟨hmfits, hmstart, _⟩ := holds_merge (hfits current List.mem_cons_self)
        (hfits next (List.mem_cons_of_mem _ List.mem_cons_self)) hnext hm
      simp only [mergeFrom, hm]
      rw [← hmstart]
      refine ih (fun r hr => ?_) (List.pairwise_cons.mpr ⟨fun r hr => ?_, (List.pairwise_cons.mp hrest).2⟩)
      · rcases List.mem_cons.mp hr with rfl | hr
        · exact hmfits
        · exact hfits r (List.mem_cons_of_mem _ (List.mem_cons_of_mem _ hr))
      · rw [hmstart]
        exact hfirst r (List.mem_cons_of_mem _ hr)
    | none =>
      simp only [mergeFrom, hm]
      obtain ⟨hpairwise, hfrom⟩ := ih (fun r hr => hfits r (List.mem_cons_of_mem _ hr)) hrest
      have hall : ∀ r ∈ mergeFrom next rest, current.start ≤ r.start := fun r hr => hnext.trans (hfrom r hr)
      exact ⟨List.pairwise_cons.mpr ⟨hall, hpairwise⟩, List.forall_mem_cons.mpr ⟨le_rfl, hall⟩⟩

/-- Sorting is by start first. -/
theorem pairwise_mergeSort_start (rs : List ByteRange) :
    (rs.mergeSort ByteRange.le).Pairwise fun r s => r.start ≤ s.start := sorted_mergeSort_le rs

theorem covered_mergeRanges {rs : List ByteRange} (hfits : ∀ r ∈ rs, r.Fits) (b : Nat) :
    Covered (mergeRanges rs) b ↔ Covered rs b := by
  have hmem : ∀ r, r ∈ rs.mergeSort ByteRange.le ↔ r ∈ rs := fun r => List.mem_mergeSort
  have hsame : Covered (rs.mergeSort ByteRange.le) b ↔ Covered rs b := by
    simp only [Covered, hmem]
  have hsorted := pairwise_mergeSort_start rs
  unfold mergeRanges
  cases hs : rs.mergeSort ByteRange.le with
  | nil => rw [← hsame, hs]
  | cons first rest =>
    rw [hs] at hsorted
    show Covered (mergeFrom first rest) b ↔ _
    rw [covered_mergeFrom (fun r hr => hfits r ((hmem r).mp (hs ▸ hr))) hsorted, ← hs, hsame]

theorem sorted_mergeRanges {rs : List ByteRange} (hfits : ∀ r ∈ rs, r.Fits) :
    (mergeRanges rs).Pairwise fun r s => r.start ≤ s.start := by
  have hsorted := pairwise_mergeSort_start rs
  unfold mergeRanges
  cases hs : rs.mergeSort ByteRange.le with
  | nil => exact .nil
  | cons first rest =>
    rw [hs] at hsorted
    exact (sorted_mergeFrom (fun r hr => hfits r (List.mem_mergeSort.mp (hs ▸ hr))) hsorted).1

/-- The order of the ranges does not matter. -/
theorem mergeRanges_perm {rs ss : List ByteRange} (h : rs.Perm ss) : mergeRanges rs = mergeRanges ss := by
  have htrans : ∀ r s t : ByteRange, r.le s = true → s.le t = true → r.le t = true := by
    intro r s t h1 h2
    rw [le_iff] at *
    omega
  have htotal : ∀ r s : ByteRange, (r.le s || s.le r) = true := by
    intro r s
    rw [Bool.or_eq_true, le_iff, le_iff]
    omega
  have hanti : ∀ r s : ByteRange, r.le s = true → s.le r = true → r = s := by
    rintro ⟨r, e⟩ ⟨s, f⟩ h1 h2
    rw [le_iff] at h1 h2
    simp only at h1 h2
    simp only [mk.injEq]
    omega
  have hsorts : rs.mergeSort ByteRange.le = ss.mergeSort ByteRange.le := by
    refine List.Perm.eq_of_pairwise (fun r s _ _ => hanti r s) (List.pairwise_mergeSort htrans htotal rs)
      (List.pairwise_mergeSort htrans htotal ss) ?_
    exact (List.mergeSort_perm rs _).trans (h.trans (List.mergeSort_perm ss _).symm)
  unfold mergeRanges
  rw [hsorts]

/-- Ranges apart from each other are left as they are. -/
theorem mergeRanges_separated {rs : List ByteRange} (h : Separated rs) : mergeRanges rs = rs := by
  have hle : rs.Pairwise fun r s => r.le s = true := by
    refine h.apart.imp_of_mem fun {r s} hr _ hlt => le_iff.mpr (.inl ?_)
    have := (h.valid r hr).ordered
    omega
  have hchain : ∀ {first : ByteRange} {rest : List ByteRange}, Separated (first :: rest) →
      mergeFrom first rest = first :: rest := by
    intro first rest hsep
    induction rest generalizing first with
    | nil => rfl
    | cons next rest ih =>
      have hlt := (List.pairwise_cons.mp hsep.apart).1 next List.mem_cons_self
      have hfirst := hsep.valid first List.mem_cons_self
      have hnext := hsep.valid next (List.mem_cons_of_mem _ List.mem_cons_self)
      have hnone : first.merge next = none := by
        have := hfirst.ordered; have := hnext.ordered; have := hnext.bounded
        unfold merge saturatingAdd
        rw [if_neg]
        simp only [Bool.or_eq_true, intersects_iff, beq_iff_eq]
        omega
      simp only [mergeFrom, hnone]
      rw [ih hsep.tail]
  unfold mergeRanges
  rw [List.mergeSort_of_pairwise hle]
  cases rs with
  | nil => rfl
  | cons first rest => exact hchain h

/-! ## Gaps -/

theorem covered_append {rs ss : List ByteRange} {b : Nat} : Covered (rs ++ ss) b ↔ Covered rs b ∨ Covered ss b := by
  unfold Covered
  simp only [List.mem_append, or_and_right, exists_or]

theorem covered_lastGap {totalSize cursor b : Nat} : Covered (lastGap totalSize cursor) b ↔ cursor ≤ b ∧ b < totalSize := by
  rw [← coverage_pos_iff, lastGap_coverage]
  split
  · rename_i h
    exact ⟨fun _ => h, fun _ => Nat.one_pos⟩
  · rename_i h
    exact ⟨fun hpos => absurd hpos (Nat.lt_irrefl 0), fun hin => absurd hin h⟩

/-- The gaps from `cursor` on hold what the sorted ranges do not. -/
theorem covered_gapsFrom {totalSize cursor : Nat} {rs : List ByteRange} (ht : totalSize ≤ u64Max)
    (hsorted : rs.Pairwise fun r s => r.start ≤ s.start) (b : Nat) :
    Covered (gapsFrom totalSize cursor rs) b ↔ (cursor ≤ b ∧ b < totalSize) ∧ ¬ Covered rs b := by
  induction rs generalizing cursor with
  | nil =>
    show Covered (lastGap totalSize cursor) b ↔ _
    rw [covered_lastGap]
    simp
  | cons r rs ih =>
    obtain ⟨hfirst, hrest⟩ := List.pairwise_cons.mp hsorted
    have hlater : Covered rs b → r.start ≤ b := by
      rintro ⟨s, hs, hsb, _⟩
      exact (hfirst s hs).trans hsb
    have hgap := @covered_lastGap r.start cursor b
    simp only [lastGap] at hgap
    rw [covered_cons]
    simp only [gapsFrom]
    split
    · rw [covered_lastGap]
      constructor
      · intro hin
        refine ⟨hin, fun hcovered => ?_⟩
        have hstart : r.start ≤ b := hcovered.elim (fun h => h.1) hlater
        omega
      · exact fun h => h.1
    · rename_i hstart
      split
      · rename_i hdone
        -- the cursor passed the end of the file
        have hreach : totalSize ≤ max (r.end_ + 1) cursor := by
          unfold saturatingAdd at hdone
          omega
        rw [covered_append, hgap, covered_lastGap]
        constructor
        · rintro (hin | hin)
          · refine ⟨by omega, fun hcovered => ?_⟩
            have hstart : r.start ≤ b := hcovered.elim (fun h => h.1) hlater
            omega
          · omega
        · rintro ⟨hin, hnot⟩
          rw [not_or] at hnot
          omega
      · rename_i hgo
        have hnext : max (saturatingAdd r.end_ 1) cursor = max (r.end_ + 1) cursor := by
          unfold saturatingAdd at hgo ⊢
          omega
        rw [hnext, covered_append, hgap, ih hrest]
        constructor
        · rintro (hin | ⟨hin, hnot⟩)
          · refine ⟨by omega, fun hcovered => ?_⟩
            have hstart : r.start ≤ b := hcovered.elim (fun h => h.1) hlater
            omega
          · exact ⟨by omega, fun hcovered => hcovered.elim (fun h => by omega) hnot⟩
        · rintro ⟨hin, hnot⟩
          rw [not_or] at hnot
          by_cases hb : r.start ≤ b
          · exact .inr ⟨by omega, hnot.2⟩
          · exact .inl (by omega)

/-- The gap before a range starts at the cursor, and lies before the range. -/
theorem gap_before {start cursor : Nat} {g : ByteRange}
    (h : g ∈ if start > cursor then (ByteRange.new cursor (start - 1)).toOption.toList else []) :
    g.start = cursor ∧ g.start ≤ g.end_ ∧ g.end_ + 1 = start := by
  split at h
  · rename_i hlt
    rw [new_eq_ok (by omega)] at h
    simp only [Except.toOption, Option.toList, List.mem_singleton] at h
    subst h
    show cursor = cursor ∧ cursor ≤ start - 1 ∧ start - 1 + 1 = start
    omega
  · cases h

theorem pairwise_gap_before {start cursor : Nat} {P : ByteRange → ByteRange → Prop} :
    (if start > cursor then (ByteRange.new cursor (start - 1)).toOption.toList else []).Pairwise P := by
  split
  · rename_i hlt
    rw [new_eq_ok (by omega)]
    exact List.pairwise_singleton P _
  · exact .nil

theorem pairwise_lastGap {totalSize cursor : Nat} {P : ByteRange → ByteRange → Prop} :
    (lastGap totalSize cursor).Pairwise P := pairwise_gap_before

/-- The gaps from `cursor` on come in order, each with a byte in the file. -/
theorem sorted_gapsFrom {totalSize cursor : Nat} {rs : List ByteRange} :
    (gapsFrom totalSize cursor rs).Pairwise (fun g g' => g.start ≤ g'.start) ∧
      ∀ g ∈ gapsFrom totalSize cursor rs, g.start ≤ g.end_ ∧ g.end_ < totalSize := by
  induction rs generalizing cursor with
  | nil => exact ⟨pairwise_lastGap, lastGap_inside⟩
  | cons r rs ih =>
    simp only [gapsFrom]
    split
    · exact ⟨pairwise_lastGap, lastGap_inside⟩
    · rename_i hin
      -- whatever follows the gap starts at the moved cursor or later
      have hstep : ∀ {later : List ByteRange},
          later.Pairwise (fun g g' => g.start ≤ g'.start) →
          (∀ g ∈ later, max (saturatingAdd r.end_ 1) cursor ≤ g.start) →
          (∀ g ∈ later, g.start ≤ g.end_ ∧ g.end_ < totalSize) →
          ((if r.start > cursor then (ByteRange.new cursor (r.start - 1)).toOption.toList else []) ++ later).Pairwise
              (fun g g' => g.start ≤ g'.start) ∧
            ∀ g ∈ (if r.start > cursor then (ByteRange.new cursor (r.start - 1)).toOption.toList else []) ++ later,
              g.start ≤ g.end_ ∧ g.end_ < totalSize := by
        intro later hsorted hfrom hinside
        refine ⟨List.pairwise_append.mpr ⟨pairwise_gap_before, hsorted, ?_⟩, ?_⟩
        · intro g hg g' hg'
          have := (gap_before hg).1
          have := hfrom g' hg'
          omega
        · intro g hg
          rcases List.mem_append.mp hg with hg | hg
          · have := gap_before hg
            omega
          · exact hinside g hg
      split
      · exact hstep pairwise_lastGap lastGap_from lastGap_inside
      · obtain ⟨hsorted, hinside⟩ := @ih (max (saturatingAdd r.end_ 1) cursor)
        exact hstep hsorted gapsFrom_from hinside

/-- Between two gaps of separated ranges lies a range, so no two gaps touch. -/
theorem apart_gapsFrom {totalSize cursor : Nat} {rs : List ByteRange} (ht : totalSize ≤ u64Max)
    (hsep : Separated rs) :
    (gapsFrom totalSize cursor rs).Pairwise fun g g' => g.end_ + 1 < g'.start := by
  induction rs generalizing cursor with
  | nil => exact pairwise_lastGap
  | cons r rs ih =>
    have hr := hsep.valid r List.mem_cons_self
    have hordered := hr.ordered
    have hbounded := hr.bounded
    simp only [gapsFrom]
    split
    · exact pairwise_lastGap
    · split
      · rename_i hdone
        have hnone : lastGap totalSize (max (saturatingAdd r.end_ 1) cursor) = [] := by
          unfold lastGap
          exact if_neg (Nat.not_lt.mpr hdone)
        rw [hnone, List.append_nil]
        exact pairwise_gap_before
      · rename_i hgo
        refine List.pairwise_append.mpr ⟨pairwise_gap_before, ih hsep.tail, ?_⟩
        intro g hg g' hg'
        have hfirst := gap_before hg
        have hlater := gapsFrom_from g' hg'
        unfold saturatingAdd at hgo hlater
        omega

/-! ## With `u64` arithmetic that can fail -/

/-- `u64` subtraction, which fails when it would pass zero. -/
def subU64 (a b : Nat) : Option Nat := if b ≤ a then some (a - b) else none

theorem subU64_eq {a b : Nat} (h : b ≤ a) : subU64 a b = some (a - b) := if_pos h

/-- A gap from the cursor to just before `start`, with checked arithmetic. -/
def gapU64 (start cursor : Nat) : Option (List ByteRange) :=
  if start > cursor then do
    let last ← subU64 start 1
    return (ByteRange.new cursor last).toOption.toList
  else some []

/-- The loop of `compute_gaps` and what follows it, with checked arithmetic. -/
def gapsFromU64 (totalSize cursor : Nat) : List ByteRange → Option (List ByteRange)
  | [] => gapU64 totalSize cursor
  | range :: rest =>
    if range.start ≥ totalSize then gapU64 totalSize cursor
    else do
      let gap ← gapU64 range.start cursor
      let cursor := max (saturatingAdd range.end_ 1) cursor
      let later ← if cursor ≥ totalSize then gapU64 totalSize cursor else gapsFromU64 totalSize cursor rest
      return gap ++ later

/-- `compute_gaps` with its two subtractions checked; `merge_ranges` has none,
and its additions saturate. -/
def computeGapsU64 (totalSize : Nat) (completed : List ByteRange) : Option (List ByteRange) :=
  if totalSize = 0 then some [] else gapsFromU64 totalSize 0 (mergeRanges completed)

theorem gapU64_eq {start cursor : Nat} : gapU64 start cursor = some (lastGap start cursor) := by
  unfold gapU64 lastGap
  split
  · rename_i hlt
    rw [subU64_eq (by omega)]
    rfl
  · rfl

theorem gapsFromU64_eq {totalSize cursor : Nat} {rs : List ByteRange} :
    gapsFromU64 totalSize cursor rs = some (gapsFrom totalSize cursor rs) := by
  induction rs generalizing cursor with
  | nil => exact gapU64_eq
  | cons r rs ih =>
    simp only [gapsFromU64, gapsFrom, gapU64_eq, ih]
    split
    · rfl
    · split <;> rfl

/-- No subtraction of `compute_gaps` passes zero. -/
theorem computeGapsU64_eq {totalSize : Nat} {rs : List ByteRange} :
    computeGapsU64 totalSize rs = some (computeGaps totalSize rs) := by
  unfold computeGapsU64 computeGaps
  split
  · rfl
  · exact gapsFromU64_eq

/-! ## Any list of ranges -/

/-- The gaps of any list: in order, in the file, and what the ranges leave of it. -/
theorem covered_computeGaps {totalSize : Nat} {rs : List ByteRange} (ht : totalSize ≤ u64Max)
    (hfits : ∀ r ∈ rs, r.Fits) (b : Nat) :
    Covered (computeGaps totalSize rs) b ↔ b < totalSize ∧ ¬ Covered rs b := by
  unfold computeGaps
  split
  · rename_i hzero
    subst hzero
    simp
  · rw [covered_gapsFrom ht (sorted_mergeRanges hfits), covered_mergeRanges hfits]
    simp

theorem sorted_computeGaps {totalSize : Nat} {rs : List ByteRange} :
    (computeGaps totalSize rs).Pairwise (fun g g' => g.start ≤ g'.start) ∧
      ∀ g ∈ computeGaps totalSize rs, g.start ≤ g.end_ ∧ g.end_ < totalSize := by
  unfold computeGaps
  split
  · simp
  · exact sorted_gapsFrom

theorem apart_computeGaps {totalSize : Nat} {rs : List ByteRange} (ht : totalSize ≤ u64Max)
    (hsep : Separated (mergeRanges rs)) :
    (computeGaps totalSize rs).Pairwise fun g g' => g.end_ + 1 < g'.start := by
  unfold computeGaps
  split
  · exact .nil
  · exact apart_gapsFrom ht hsep

/-- Merging and complementing any list of ranges: sorted, covering the union and
the rest of the file whatever the order given, with no subtraction past zero.
With every range in order, the merged ranges and the gaps also lie apart, merging
is idempotent, and the two hold each byte of the file exactly once. -/
theorem ranges_as_sets {totalSize : Nat} {rs : List ByteRange} (ht : totalSize ≤ u64Max)
    (hfits : ∀ r ∈ rs, r.start ≤ u64Max ∧ r.end_ ≤ u64Max) :
    ((mergeRanges rs).Pairwise (fun r s => r.start ≤ s.start) ∧
      (∀ b, Covered (mergeRanges rs) b ↔ Covered rs b) ∧
      ∀ ss, rs.Perm ss → mergeRanges ss = mergeRanges rs ∧ computeGaps totalSize ss = computeGaps totalSize rs) ∧
    ((computeGaps totalSize rs).Pairwise (fun g g' => g.start ≤ g'.start) ∧
      (∀ g ∈ computeGaps totalSize rs, g.start ≤ g.end_ ∧ g.end_ < totalSize) ∧
      (∀ b, Covered (computeGaps totalSize rs) b ↔ b < totalSize ∧ ¬ Covered rs b) ∧
      computeGapsU64 totalSize rs = some (computeGaps totalSize rs)) ∧
    ((∀ r ∈ rs, r.start ≤ r.end_) →
      (∀ r ∈ mergeRanges rs, r.start ≤ r.end_ ∧ r.end_ ≤ u64Max) ∧
      (mergeRanges rs).Pairwise (fun r s => r.end_ + 1 < s.start) ∧
      mergeRanges (mergeRanges rs) = mergeRanges rs ∧
      (computeGaps totalSize rs).Pairwise (fun g g' => g.end_ + 1 < g'.start) ∧
      ∀ b, b < totalSize → coverage b (computeGaps totalSize rs) + coverage b (mergeRanges rs) = 1) := by
  refine ⟨⟨sorted_mergeRanges hfits, covered_mergeRanges hfits, ?_⟩,
    ⟨sorted_computeGaps.1, sorted_computeGaps.2, covered_computeGaps ht hfits, computeGapsU64_eq⟩, ?_⟩
  · intro ss hperm
    have hsame := mergeRanges_perm hperm
    refine ⟨hsame.symm, ?_⟩
    unfold computeGaps
    rw [hsame]
  · intro hordered
    have hvalid : ∀ r ∈ rs, r.Valid := fun r hr => ⟨hordered r hr, (hfits r hr).2⟩
    have hsep := (mergeRanges_spec hvalid).1
    exact ⟨fun r hr => ⟨(hsep.valid r hr).ordered, (hsep.valid r hr).bounded⟩, hsep.apart,
      mergeRanges_separated hsep, apart_computeGaps ht hsep, (computeGaps_spec ht hvalid).2⟩

/-- Two touching ranges and one at the top of `u64`, with a file between. -/
theorem ranges_as_sets_touching :
    mergeRanges (mergeRanges [⟨5, 9⟩, ⟨0, 4⟩, ⟨u64Max, u64Max⟩]) = mergeRanges [⟨5, 9⟩, ⟨0, 4⟩, ⟨u64Max, u64Max⟩] := by
  refine ((@ranges_as_sets 100 _ (by decide) ?_).2.2 ?_).2.2.1
  · simp [u64Max]
  · simp [u64Max]

/-- A range that ends before it starts keeps the two around it from merging. -/
theorem inverted_range_keeps_apart :
    ¬ ∀ rs : List ByteRange, (∀ r ∈ rs, r.start ≤ u64Max ∧ r.end_ ≤ u64Max) →
      (mergeRanges rs).Pairwise fun r s => r.end_ + 1 < s.start := by
  intro h
  have hmerged : mergeRanges [⟨5, 9⟩, ⟨6, 2⟩, ⟨7, 12⟩] = [⟨5, 9⟩, ⟨6, 2⟩, ⟨7, 12⟩] := by
    unfold mergeRanges
    rw [List.mergeSort_of_pairwise (by decide)]
    rfl
  have hapart := h [⟨5, 9⟩, ⟨6, 2⟩, ⟨7, 12⟩] (by simp [u64Max])
  rw [hmerged] at hapart
  exact absurd hapart (by decide)

end Hyperfetch
