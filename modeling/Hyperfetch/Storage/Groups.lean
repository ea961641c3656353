import Hyperfetch.Storage.Blocks
import Mathlib.Tactic

/-!
# Hashes merged in groups (`storage.rs`)

`DiskWriter::piece_hashes` merges the hashes of each piece's blocks. Merged, the
hashes of all blocks are the root of BLAKE3's tree over them, and so are the
hashes of the pieces (`merged_is_the_root`).
-/

namespace Hyperfetch

open Weft

namespace Storage

variable {D X H : Type}

/-- `chunks`: stretches of `n`, the last one shorter if need be. -/
def chunks {α : Type} (n : Nat) (xs : List α) : List (List α) :=
  if _h : 0 < n ∧ xs ≠ [] then xs.take n :: chunks n (xs.drop n) else []
termination_by xs.length
decreasing_by
  have := List.length_pos_iff.mpr _h.2
  rw [List.length_drop]
  omega

namespace Layout

variable (L : Layout D X H)

/-- The chaining value of a piece from its blocks' hashes; `none` where there is
none to index. -/
def pieceHash (piece : List D) : Option D :=
  match L.tree.joinToTwo piece with
  | [] => none
  | [only] => some only
  | left :: right :: _ => some (L.tree.node left right)

/-- `piece_hashes`, of pieces of `piece` bytes. -/
def pieceHashes (piece : Nat) (blocks : List D) : Option (List D) :=
  (chunks (max (piece / L.block) 1) blocks).mapM L.pieceHash

/-- BLAKE3's tree over the hashes of blocks: with more than one, the left subtree
is over the largest power of two less than all. -/
def overBlocks : TreeHash D D where
  leaf := 1
  leaf_pos := Nat.one_pos
  leafValue _ hashes := hashes.headD (L.tree.hash [])
  leafRoot hashes := hashes.headD (L.tree.hash [])
  node := L.tree.node
  nodeRoot := L.tree.nodeRoot

@[simp] theorem width_overBlocks (level : Nat) : L.overBlocks.width level = 2 ^ level := Nat.one_mul _

theorem joinToTwo_overBlocks (level : List D) : L.overBlocks.joinToTwo level = L.tree.joinToTwo level := by
  have hpair : ∀ xs : List D, L.overBlocks.pairUp xs = L.tree.pairUp xs := by
    intro xs
    induction xs using TreeHash.pairUp.induct with
    | case1 a b rest ih =>
      rw [TreeHash.pairUp, TreeHash.pairUp, ih]
      rfl
    | case2 rest h =>
      rw [TreeHash.pairUp.eq_def, TreeHash.pairUp.eq_def]
      split
      · rename_i a b more
        exact absurd rfl (h a b more)
      · rfl
  induction hn : level.length using Nat.strongRecOn generalizing level with
  | ind n ih =>
    rw [TreeHash.joinToTwo.eq_def L.overBlocks level, TreeHash.joinToTwo.eq_def L.tree level, hpair]
    split
    · apply ih _ _ _ rfl
      rw [TreeHash.length_pairUp]
      omega
    · rfl

/-- The number of a block's place does not matter, its hash says it. -/
theorem value_overBlocks (first other : Nat) (hashes : List D) :
    L.overBlocks.value first hashes = L.overBlocks.value other hashes := by
  induction hn : hashes.length using Nat.strongRecOn generalizing first other hashes with
  | ind n ih =>
    subst hn
    rw [TreeHash.value.eq_def L.overBlocks first, TreeHash.value.eq_def L.overBlocks other]
    split
    · rename_i hlong
      have hleft := L.overBlocks.width_leftLevel_lt hlong
      have hpos := L.overBlocks.width_pos (L.overBlocks.leftLevel hashes.length)
      rw [ih _ (by rw [List.length_take]; omega) first other _ rfl,
        ih _ (by rw [List.length_drop]; omega) (first + _) (other + _) _ rfl]
    · rfl

@[simp] theorem value_singleton (first : Nat) (hash : D) : L.overBlocks.value first [hash] = hash := by
  have hone : ¬ L.overBlocks.leaf < [hash].length := Nat.lt_irrefl 1
  rw [TreeHash.value, dif_neg hone]
  rfl

/-- Stretches of one block are the hashes. -/
theorem cvs_zero_overBlocks (first : Nat) (hashes : List D) : L.overBlocks.cvs 0 first hashes = hashes := by
  induction hashes generalizing first with
  | nil => exact L.overBlocks.cvs_nil 0 first
  | cons hash rest ih =>
    rw [L.overBlocks.cvs_of_ne (List.cons_ne_nil _ _), width_overBlocks, pow_zero]
    show L.overBlocks.value first [hash] :: L.overBlocks.cvs 0 (first + 1) rest = hash :: rest
    rw [ih, value_singleton]

/-- Merged, the values of stretches of `2 ^ k` blocks are the root. -/
theorem merge_cvs_overBlocks {k : Nat} {hashes : List D} (h : 2 ^ k < hashes.length) :
    L.merge (L.overBlocks.cvs k 0 hashes) = L.overBlocks.hash hashes := by
  rw [← width_overBlocks L] at h
  obtain ⟨a, b, hjoin, hroot⟩ := L.overBlocks.joinToTwo_cvs h
  rw [joinToTwo_overBlocks] at hjoin
  have hlen := (L.overBlocks.length_cvs k 0 hashes).2
  have htwo : 2 ≤ (L.overBlocks.cvs k 0 hashes).length := by
    by_contra hfew
    have : (L.overBlocks.cvs k 0 hashes).length * L.overBlocks.width k ≤ 1 * L.overBlocks.width k :=
      Nat.mul_le_mul_right _ (by omega)
    omega
  match hcvs : L.overBlocks.cvs k 0 hashes, htwo with
  | x :: y :: rest, _ =>
    rw [hcvs] at hjoin
    rw [← hroot, merge_of_two, hjoin]
    rfl

/-- The hash of a piece is that of its subtree. -/
theorem pieceHash_eq {piece : List D} (h : piece ≠ []) : L.pieceHash piece = some (L.overBlocks.value 0 piece) := by
  by_cases hone : piece.length ≤ 1
  · obtain ⟨hash, rfl⟩ := List.length_eq_one_iff.mp (Nat.le_antisymm hone (List.length_pos_iff.mpr h))
    rw [pieceHash, TreeHash.joinToTwo, if_neg (by simp), value_singleton]
  · have hlong : L.overBlocks.width 0 < piece.length := by
      rw [width_overBlocks, pow_zero]
      omega
    obtain ⟨a, b, hjoin, hvalue⟩ := L.overBlocks.joinToTwo_cvs_value 0 hlong
    rw [cvs_zero_overBlocks, joinToTwo_overBlocks] at hjoin
    rw [pieceHash, hjoin, ← hvalue]
    rfl

/-- Pieces of a power of two blocks give the values of its stretches. -/
theorem mapM_chunks (k first : Nat) (hashes : List D) :
    (chunks (2 ^ k) hashes).mapM L.pieceHash = some (L.overBlocks.cvs k first hashes) := by
  induction hn : hashes.length using Nat.strongRecOn generalizing first hashes with
  | ind n ih =>
    have hpos := Nat.two_pow_pos k
    by_cases hnil : hashes = []
    · subst hnil
      rw [chunks, dif_neg (by simp), TreeHash.cvs_nil]
      rfl
    · have hlen := List.length_pos_iff.mpr hnil
      have htake : hashes.take (2 ^ k) ≠ [] := by
        intro hnone
        rcases List.take_eq_nil_iff.mp hnone with hzero | hempty
        · omega
        · exact hnil hempty
      rw [chunks, dif_pos ⟨hpos, hnil⟩, List.mapM_cons, L.pieceHash_eq htake, L.value_overBlocks 0 first,
        ih _ (by rw [List.length_drop]; omega) (first + 2 ^ k) (hashes.drop (2 ^ k)) rfl,
        L.overBlocks.cvs_of_ne hnil, width_overBlocks]
      rfl

/-- The hashes of a file's blocks, however many, merge into the root of BLAKE3's
tree over them, and so do the hashes of pieces of a power of two blocks, fewer
than all. -/
theorem merged_is_the_root (hashes : List D) :
    L.merge hashes = L.overBlocks.hash hashes ∧
      ∀ k, 2 ^ k < hashes.length → ∃ pieces, L.pieceHashes (2 ^ k * L.block) hashes = some pieces ∧
        L.merge pieces = L.overBlocks.hash hashes := by
  constructor
  · match hashes with
    | [] => rfl
    | [only] => rfl
    | a :: b :: rest =>
      have hlong : 2 ^ 0 < (a :: b :: rest).length := by simp
      have hmerge := L.merge_cvs_overBlocks (k := 0) hlong
      rw [cvs_zero_overBlocks] at hmerge
      exact hmerge
  · intro k hk
    refine ⟨L.overBlocks.cvs k 0 hashes, ?_, L.merge_cvs_overBlocks hk⟩
    have hper : max (2 ^ k * L.block / L.block) 1 = 2 ^ k := by
      rw [Nat.mul_div_cancel _ L.block_pos]
      exact max_eq_left (Nat.two_pow_pos k)
    rw [pieceHashes, hper]
    exact L.mapM_chunks k 0 hashes

/-- A tree hash that keeps how it was made. -/
inductive Drawn
  | leaf (first : Nat)
  | node (left right : Drawn)
  | root (left right : Drawn)

/-- Blocks of four leaves. -/
def drawn : Layout Drawn Unit Unit where
  size := 20000
  level := 2
  tree :=
    { leaf := 1024, leaf_pos := by decide, leafValue := fun first _ => .leaf first, leafRoot := fun _ => .leaf 0
      node := .node, nodeRoot := .root }
  other _ _ := ()

/-- Five blocks, and pieces of two. -/
theorem merged_is_the_root_five :
    drawn.merge [.leaf 0, .leaf 4, .leaf 8, .leaf 12, .leaf 16] =
        .root (.node (.node (.leaf 0) (.leaf 4)) (.node (.leaf 8) (.leaf 12))) (.leaf 16) ∧
      ∃ pieces, drawn.pieceHashes (2 ^ 1 * drawn.block) [.leaf 0, .leaf 4, .leaf 8, .leaf 12, .leaf 16] = some pieces ∧
        drawn.merge pieces = drawn.overBlocks.hash [.leaf 0, .leaf 4, .leaf 8, .leaf 12, .leaf 16] := by
  refine ⟨?_, (merged_is_the_root drawn [.leaf 0, .leaf 4, .leaf 8, .leaf 12, .leaf 16]).2 1 (by decide)⟩
  rw [merge_of_two]
  simp [TreeHash.joinToTwo, TreeHash.pairUp, drawn]

end Layout

end Storage

end Hyperfetch
