import Hyperfetch.Chunk.Books

/-!
# Where a manager starts

`with_resumed_ranges` opens balanced books, whatever the resumed ranges: the
merged ranges and the pieces of the gaps they leave tile the file.
-/

namespace Hyperfetch

open Weft

namespace ChunkManager

/-- The pieces of a gap abut from `offset` to its end. -/
theorem cutGap_chain {end_ base fuel offset : Nat} (hbase : 0 < base) (hend : end_ ≤ u64Max)
    (hoffset : offset ≤ end_ + 1) (hfuel : end_ + 1 ≤ offset + fuel) :
    Chain ByteRange.start ByteRange.end_ offset (end_ + 1) (cutGap end_ base fuel offset) := by
  induction fuel generalizing offset with
  | zero => exact Nat.le_antisymm hoffset hfuel
  | succ fuel ih =>
    unfold cutGap
    split
    · rename_i hle
      generalize hlen : min (end_ - offset + 1) base = chunkLen
      have hpos : 0 < chunkLen := by omega
      have hfit : offset + (chunkLen - 1) ≤ end_ := by omega
      dsimp only
      rw [ByteRange.fromLen_eq_ok hpos (hfit.trans hend)]
      refine ⟨rfl, Nat.le_add_right _ _, ?_⟩
      rw [show offset + (chunkLen - 1) + 1 = offset + chunkLen by omega]
      exact ih (by omega) (by omega)
    · exact show offset = end_ + 1 by omega

/-- Cutting gaps into pieces keeps what they hold. -/
theorem pieces_coverage {base : Nat} (hbase : 0 < base) (gaps : List ByteRange)
    (hvalid : ∀ r ∈ gaps, r.start ≤ r.end_ ∧ r.end_ ≤ u64Max) :
    let pieces := gaps.flatMap fun gap => cutGap gap.end_ base (gap.end_ - gap.start + 1) gap.start
    (∀ r ∈ pieces, r.start ≤ r.end_) ∧ ∀ b, coverage b pieces = coverage b gaps := by
  have hcover : ∀ r ∈ gaps, ExactCover ByteRange.start ByteRange.end_ r.start (r.end_ + 1)
      (cutGap r.end_ base (r.end_ - r.start + 1) r.start) := fun r hr =>
    have hr' := hvalid r hr
    (cutGap_chain hbase hr'.2 (by omega) (by omega)).exactCover
  refine ⟨fun r hr => ?_, fun b => ?_⟩
  · obtain ⟨gap, hgap, hr⟩ := List.mem_flatMap.mp hr
    exact (hcover gap hgap).nonempty r hr
  · clear hvalid
    induction gaps with
    | nil => rfl
    | cons gap gaps ih =>
      have hgap := (hcover gap List.mem_cons_self).once b
      rw [List.flatMap_cons, coverage_append, coverage_cons, add_comm,
        ih fun r hr => hcover r (List.mem_cons_of_mem _ hr)]
      simp only [coverage] at hgap ⊢
      rw [hgap]
      split_ifs <;> omega

/-- What is on disk, merged: separated ranges inside the file, over bytes the
resumed ranges hold. -/
theorem mergedCompleted_spec (totalSize : Nat) {completedRanges : List ByteRange}
    (hvalid : ∀ r ∈ completedRanges, r.Valid) :
    Separated (mergedCompleted totalSize completedRanges) ∧
      ∀ b, Covered (mergedCompleted totalSize completedRanges) b →
        b < totalSize ∧ Covered completedRanges b := by
  unfold mergedCompleted
  split
  · exact ⟨(mergeRanges_spec (by simp)).1, fun b hb =>
      absurd ((mergeRanges_spec (by simp)).2 b |>.mp hb) (not_covered_nil b)⟩
  · rename_i hne
    have hin : ∀ r ∈ completedRanges.filterMap (·.intersection ⟨0, totalSize - 1⟩),
        r.Valid ∧ ∀ b, r.start ≤ b → b ≤ r.end_ → b < totalSize ∧ Covered completedRanges b := by
      intro r hr
      obtain ⟨s, hs, hsr⟩ := List.mem_filterMap.mp hr
      have hv := hvalid s hs
      have := hv.ordered; have := hv.bounded
      unfold ByteRange.intersection at hsr
      split at hsr
      · rename_i hmeet
        rw [ByteRange.intersects_iff] at hmeet
        simp only [Option.some.injEq] at hsr
        subst hsr
        refine ⟨⟨?_, ?_⟩, fun b h1 h2 => ⟨?_, s, hs, ?_⟩⟩ <;> dsimp only at * <;> omega
      · cases hsr
    obtain ⟨hsep, hcov⟩ := mergeRanges_spec fun r hr => (hin r hr).1
    refine ⟨hsep, fun b hb => ?_⟩
    obtain ⟨r, hr, h1, h2⟩ := (hcov b).mp hb
    exact (hin r hr).2 b h1 h2

/-- The resumed chunks' ranges tile the file. -/
theorem resumedRanges_tile {totalSize base : Nat} {merged : List ByteRange} (hbase : 0 < base)
    (hsize : totalSize ≤ u64Max) (hsep : Separated merged)
    (hin : ∀ b, Covered merged b → b < totalSize) :
    ExactCover (fun r => r.1.start) (fun r => r.1.end_) 0 totalSize
      (resumedRanges totalSize base merged) := by
  obtain ⟨hgaps, hcov⟩ := computeGaps_spec hsize hsep.valid
  obtain ⟨hpieces, hkeep⟩ := pieces_coverage hbase (computeGaps totalSize merged)
    fun r hr => ⟨(hgaps r hr).1, by have := (hgaps r hr).2; omega⟩
  unfold resumedRanges
  refine ExactCover.perm (List.mergeSort_perm _ _).symm ⟨fun r hr => ?_, fun b => ?_⟩
  · rcases List.mem_append.mp hr with hr | hr <;> obtain ⟨s, hs, rfl⟩ := List.mem_map.mp hr
    · exact (hsep.valid s hs).ordered
    · exact hpieces s hs
  · rw [cover_append, cover_map, cover_map]
    change coverage b merged + coverage b _ = _
    rw [hkeep b]
    obtain ⟨hsep', hsame⟩ := mergeRanges_spec hsep.valid
    have hcount := hsep'.coverage_congr hsep (hsame b)
    split
    · rename_i hb
      have := hcov b hb.2
      omega
    · rename_i hb
      have hmerged : coverage b merged = 0 := by
        refine Nat.eq_zero_of_not_pos fun hpos => ?_
        have := hin b (coverage_pos_iff.mp hpos)
        omega
      have hgap : coverage b (computeGaps totalSize merged) = 0 := by
        refine Nat.eq_zero_of_not_pos fun hpos => ?_
        obtain ⟨r, hr, _, _⟩ := coverage_pos_iff.mp hpos
        have := hgaps r hr
        omega
      omega

theorem resumedRanges_status {totalSize base : Nat} {merged : List ByteRange} {r : ByteRange × ChunkStatus}
    (hr : r ∈ resumedRanges totalSize base merged) :
    (r.2 = .completed ∧ r.1 ∈ merged) ∨ r.2 = .unassigned := by
  simp only [resumedRanges, List.mem_mergeSort, List.mem_append, List.mem_map] at hr
  rcases hr with ⟨s, hs, rfl⟩ | ⟨s, _, rfl⟩
  · exact .inl ⟨rfl, hs⟩
  · exact .inr rfl

theorem numbered_get {ranges : List (ByteRange × ChunkStatus)} {i : Nat} {c : Chunk}
    (hc : (numbered ranges)[i]? = some c) :
    ∃ r, ranges[i]? = some r ∧ c = { Chunk.new i r.1 i with status := r.2 } := by
  simp only [numbered, List.getElem?_map, List.getElem?_zipIdx, Option.map_map,
    Option.map_eq_some_iff] at hc
  obtain ⟨r, hr, rfl⟩ := hc
  exact ⟨r, hr, by simp⟩

/-- Counting over numbered chunks is counting over their ranges. -/
theorem countP_numbered (p : ByteRange × ChunkStatus → Bool) (q : Chunk → Bool)
    (hpq : ∀ r i, q { Chunk.new i r.1 i with status := r.2 } = p r)
    (ranges : List (ByteRange × ChunkStatus)) : (numbered ranges).countP q = ranges.countP p := by
  rw [numbered, List.countP_map]
  rw [show ranges.countP p = (ranges.zipIdx.map Prod.fst).countP p by rw [List.zipIdx_map_fst],
    List.countP_map]
  congr 1
  funext ⟨r, i⟩
  exact hpq r i

/-- A chunk starts on a lease over its range, and completed only over bytes the
resumed ranges hold. -/
theorem resumed_chunk {totalSize baseChunkSize i : Nat} {completedRanges : List ByteRange} {c : Chunk}
    (hvalid : ∀ r ∈ completedRanges, r.Valid)
    (hc : (withResumedRanges totalSize baseChunkSize completedRanges).chunks[i]? = some c) :
    (withResumedRanges totalSize baseChunkSize completedRanges).cells.leases c.lease =
        Chunk.newLease c.range ∧
      (c.isCompleted = true → ∀ b, c.range.start ≤ b → b ≤ c.range.end_ → Covered completedRanges b) := by
  obtain ⟨r, hr, rfl⟩ := numbered_get hc
  refine ⟨?_, fun hd b h1 h2 => ?_⟩
  · simp only [withResumedRanges, numberedCells, Chunk.new, hr]
  · rcases resumedRanges_status (List.mem_of_getElem? hr) with ⟨_, hmem⟩ | hun
    · exact ((mergedCompleted_spec totalSize hvalid).2 b ⟨r.1, hmem, h1, h2⟩).2
    · simp [Chunk.isCompleted, hun] at hd

/-- `with_resumed_ranges` opens balanced books. -/
theorem books_withResumedRanges {totalSize : Nat} (baseChunkSize : Nat) {completedRanges : List ByteRange}
    (hsize : totalSize ≤ u64Max) (hvalid : ∀ r ∈ completedRanges, r.Valid) :
    Books (withResumedRanges totalSize baseChunkSize completedRanges) totalSize := by
  obtain ⟨hsep, hin⟩ := mergedCompleted_spec totalSize hvalid
  have hbase : 0 < max baseChunkSize (64 * 1024) := by omega
  have htile := resumedRanges_tile hbase hsize hsep fun b hb => (hin b hb).1
  generalize hmerged : mergedCompleted totalSize completedRanges = merged at hsep hin htile
  have hstatus := @resumedRanges_status totalSize (max baseChunkSize (64 * 1024)) merged
  have hcount : merged.length =
      (resumedRanges totalSize (max baseChunkSize (64 * 1024)) merged).countP (·.2 == .completed) := by
    unfold resumedRanges
    rw [(List.mergeSort_perm _ _).countP_eq, List.countP_append, List.countP_map, List.countP_map]
    simp [Function.comp_def]
  have hcells : (withResumedRanges totalSize baseChunkSize completedRanges).cells =
      numberedCells (resumedRanges totalSize (max baseChunkSize (64 * 1024)) merged) := by
    rw [← hmerged]; rfl
  generalize hranges : resumedRanges totalSize (max baseChunkSize (64 * 1024)) merged = ranges at *
  have hchunks : (withResumedRanges totalSize baseChunkSize completedRanges).chunks = numbered ranges := by
    rw [← hranges, ← hmerged]; rfl
  refine ⟨rfl, hsize, ?_, ?_, Nat.zero_le _, List.nodup_nil, fun i hi => absurd hi List.not_mem_nil, ?_, ?_⟩
  · rw [hchunks]
    refine ⟨fun c hc => ?_, fun b => ?_⟩
    · obtain ⟨i, hi⟩ := List.mem_iff_getElem?.mp hc
      obtain ⟨r, hr, rfl⟩ := numbered_get hi
      exact htile.nonempty r (List.mem_of_getElem? hr)
    · rw [cover, countP_numbered (holds (fun r => r.1.start) (fun r => r.1.end_) b) _ (fun _ _ => rfl)]
      exact htile.once b
  · rw [hchunks, countP_numbered (·.2 == .completed) _ (fun _ _ => rfl), ← hcount, ← hmerged]
    rfl
  · intro i j c d hc hd hcd
    rw [hchunks] at hc hd
    obtain ⟨r, _, rfl⟩ := numbered_get hc
    obtain ⟨s, _, rfl⟩ := numbered_get hd
    exact hcd
  · intro i c hc
    rw [hchunks] at hc
    obtain ⟨r, hr, rfl⟩ := numbered_get hc
    refine ⟨rfl, fun _ => ?_, fun hi => absurd hi (Nat.not_lt_zero i), ?_, ?_⟩
    · simp only [hcells, numberedCells, Chunk.new, hr]
      rfl
    · refine iff_of_false List.not_mem_nil ?_
      rcases hstatus (List.mem_of_getElem? hr) with ⟨h, _⟩ | h <;> simp [Chunk.isFailed, h]
    · rw [hcells]
      exact lt_length hr

end ChunkManager

end Hyperfetch
