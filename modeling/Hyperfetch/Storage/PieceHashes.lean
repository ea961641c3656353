import Hyperfetch.Storage.Digest
import Hyperfetch.Storage.Groups

/-!
# Piece hashes merged from block hashes (`storage.rs`)

The hashes of a piece's blocks, merged, are the chaining value of the piece, so
`DiskWriter::piece_hashes` gives what reading the file would (`pieceHashes_of_done`).
-/

namespace Weft

namespace TreeHash

variable {α D : Type} (t : TreeHash α D)

theorem width_add (level j : Nat) : t.width (level + j) = 2 ^ j * t.width level := by
  unfold width
  rw [pow_add]
  ring

/-- The first stretches are those of the front. -/
theorem cvs_take (level first n : Nat) (data : List α) :
    (t.cvs level first data).take n = t.cvs level first (data.take (n * t.width level)) := by
  induction n generalizing first data with
  | zero => rw [List.take_zero, Nat.zero_mul, List.take_zero, cvs_nil]
  | succ n ih =>
    by_cases hnil : data = []
    · rw [hnil, cvs_nil, List.take_nil, List.take_nil, cvs_nil]
    have hpos := t.width_pos level
    have hwide : t.width level ≤ (n + 1) * t.width level := Nat.le_mul_of_pos_left _ (Nat.succ_pos n)
    have hfront : data.take ((n + 1) * t.width level) ≠ [] := by
      rw [ne_eq, List.take_eq_nil_iff, not_or]
      exact ⟨by omega, hnil⟩
    rw [t.cvs_of_ne hnil, List.take_succ_cons, ih, t.cvs_of_ne hfront, List.take_take, min_eq_left hwide, List.drop_take]
    congr 3
    rw [Nat.succ_mul]
    omega

/-- What comes after them is the stretches of the rest. -/
theorem cvs_drop (level first n : Nat) (data : List α) :
    (t.cvs level first data).drop n = t.cvs level (first + n * 2 ^ level) (data.drop (n * t.width level)) := by
  induction n generalizing first data with
  | zero => rw [List.drop_zero, Nat.zero_mul, Nat.zero_mul, List.drop_zero, Nat.add_zero]
  | succ n ih =>
    by_cases hnil : data = []
    · rw [hnil, cvs_nil, List.drop_nil, List.drop_nil, cvs_nil]
    · have hfirst : first + 2 ^ level + n * 2 ^ level = first + (n + 1) * 2 ^ level := by ring
      have hstart : t.width level + n * t.width level = (n + 1) * t.width level := by ring
      rw [t.cvs_of_ne hnil, List.drop_succ_cons, ih, List.drop_drop, hfirst, hstart]

end TreeHash

end Weft

namespace Hyperfetch.Storage

open Weft

variable {D X H : Type} (L : Layout D X H)

namespace Layout

theorem pieceHash_cvs (level first : Nat) {data : List UInt8} (h : data ≠ []) :
    L.pieceHash (L.tree.cvs level first data) = some (L.tree.value first data) := by
  by_cases hshort : data.length ≤ L.tree.width level
  · rw [L.tree.cvs_of_le h hshort, pieceHash, TreeHash.joinToTwo, if_neg (by simp)]
  · obtain ⟨a, b, hjoin, hvalue⟩ := L.tree.joinToTwo_cvs_value first (Nat.lt_of_not_le hshort)
    rw [pieceHash, hjoin, ← hvalue]

/-- Grouped, the values of stretches give those of longer ones. -/
theorem mapM_chunks_cvs (level j first : Nat) (data : List UInt8) :
    (chunks (2 ^ j) (L.tree.cvs level first data)).mapM L.pieceHash = some (L.tree.cvs (level + j) first data) := by
  induction hn : data.length using Nat.strongRecOn generalizing first data with
  | ind n ih =>
    subst hn
    by_cases hnil : data = []
    · rw [hnil, TreeHash.cvs_nil, TreeHash.cvs_nil, chunks, dif_neg (by simp)]
      rfl
    have hlen := List.length_pos_iff.mpr hnil
    have hpos := Nat.two_pow_pos j
    have hwidth := L.tree.width_add level j
    have hwide := L.tree.width_pos (level + j)
    have hsome : L.tree.cvs level first data ≠ [] := by
      rw [L.tree.cvs_of_ne hnil]
      exact List.cons_ne_nil _ _
    have hfront : data.take (L.tree.width (level + j)) ≠ [] := by
      rw [ne_eq, List.take_eq_nil_iff, not_or]
      exact ⟨by omega, hnil⟩
    have hfirst : first + 2 ^ j * 2 ^ level = first + 2 ^ (level + j) := by
      rw [pow_add]
      ring
    rw [chunks, dif_pos ⟨hpos, hsome⟩, List.mapM_cons, TreeHash.cvs_take, TreeHash.cvs_drop, ← hwidth, L.pieceHash_cvs _ _ hfront,
      hfirst, ih _ (by rw [List.length_drop]; omega) _ _ rfl, @TreeHash.cvs_of_ne _ _ L.tree (level + j) first data hnil]
    rfl

end Layout

variable {L} {s : State D X}

/-- Once no write runs, the piece hashes a writer merges from its blocks' are the chaining values
of the file's pieces. -/
theorem Sound.pieceHashes (h : Sound L s) (hdone : s.done = true) {j : Nat} (hlong : 2 ^ j * L.block < L.size) :
    L.pieceHashes (2 ^ j * L.block) (s.blockHashes L).2 = some (L.tree.cvs (L.level + j) 0 (s.contents 0 L.size)) := by
  have hblock : L.block < L.size := Nat.lt_of_le_of_lt (Nat.le_mul_of_pos_left _ (Nat.two_pow_pos j)) hlong
  have hper : max (2 ^ j * L.block / L.block) 1 = 2 ^ j := by
    rw [Nat.mul_div_cancel _ L.block_pos]
    exact max_eq_left (Nat.two_pow_pos j)
  obtain ⟨-, -, hhashes⟩ := h.blockHashes (settled_of_done hdone)
  rw [hhashes, map_hashOf s hblock, Layout.pieceHashes, hper]
  exact L.mapM_chunks_cvs L.level j 0 _

end Hyperfetch.Storage
