import Hyperfetch.Checks.Passes
import Hyperfetch.Storage.PieceHashes

/-!
# What a writer took while it wrote the file (`storage.rs`, `digest.rs`)

A download over ranges hands its writer over, which has the file's digest and the
hashes of the pieces history keeps from its blocks' hashes. Both are what reading
the file gives (`of_writer`), so the last checks of such a download are of its bytes
(`writer_kept`).
-/

namespace Hyperfetch.Checks

open Weft
open Storage (Hashing Layout State Sound pieceDigest pieceDigests pieceOf pieceCount)

/-- `MIN_HASH_BLOCK`. -/
def minHashBlock : Nat := 256 * 1024

/-- `MAX_HASH_BLOCKS`. -/
def maxHashBlocks : Nat := 65536

/-- The bytes of a block of the writer `open_or_create` gives. -/
def hashBlock (size : Nat) : Nat := max (nextPowerOfTwo ((size + maxHashBlocks - 1) / maxHashBlocks)) minHashBlock

/-- A piece is a power of two blocks. -/
theorem pieceSize_blocks {size p : Nat} (h : p ∈ pieceSize size) : ∃ j, p = 2 ^ j * hashBlock size := by
  have hcount : (size + maxHashBlocks - 1) / maxHashBlocks ≤ (size + maxPieces - 1) / maxPieces := by
    unfold maxHashBlocks maxPieces
    omega
  have hlog := Nat.clog_mono_right 2 hcount
  have hpiece : minPiece = 2 ^ 22 := by decide
  have hblock : minHashBlock = 2 ^ 18 := by decide
  have hmax (a b : Nat) : max (2 ^ a) (2 ^ b) = 2 ^ max a b := (pow_right_mono₀ one_le_two).map_max.symm
  have hp : p = 2 ^ max (Nat.clog 2 ((size + maxPieces - 1) / maxPieces)) 22 := by
    unfold pieceSize at h
    dsimp only at h
    split at h
    · obtain rfl := Option.some.inj h
      rw [nextPowerOfTwo, hpiece, hmax]
    · cases h
  refine ⟨max (Nat.clog 2 ((size + maxPieces - 1) / maxPieces)) 22 - max (Nat.clog 2 ((size + maxHashBlocks - 1) / maxHashBlocks)) 18, ?_⟩
  rw [hp, hashBlock, nextPowerOfTwo, hblock, hmax, ← pow_add]
  congr 1
  omega

variable {H : Type} {k : Checker H} {o : Options}

/-- What the checks hash with is what the writer hashes with: a hasher for a piece takes the
chaining value of its subtree. -/
structure Checker.Computes (k : Checker H) (L : Layout (List UInt8) Algo (List UInt8)) : Prop where
  blake3 : k.hashes.blake3 = L.tree.hash
  other : k.hashes.other = L.other
  tree : ∀ level i data, data.length ≤ L.tree.width level →
    k.hashing.finish (k.hashing.update (k.tree (i * L.tree.width level)) data) = L.tree.value (i * 2 ^ level) data
  length : ∀ first data, (L.tree.value first data).length = 32

variable {L : Layout (List UInt8) Algo (List UInt8)}

/-- The chaining values of a file's pieces, by reading it. -/
theorem pieceDigests_eq (hk : k.Computes L) {level : Nat} {file : List UInt8} (hfile : file ≠ []) :
    (pieceDigests k.hashing k.tree (L.tree.width level) file).map chainingValue = L.tree.cvs level 0 file := by
  have hpos := L.tree.width_pos level
  have hcount : max 1 (pieceCount (L.tree.width level) file.length) = (file.length + L.tree.width level - 1) / L.tree.width level := by
    have hlen := List.length_pos_iff.mpr hfile
    have hone : 1 ≤ pieceCount (L.tree.width level) file.length := (Storage.lt_pieceCount hpos).mpr (by omega)
    exact max_eq_right hone
  rw [L.tree.cvs_eq_map, pieceDigests, hcount, List.map_map]
  refine List.map_congr_left fun i _ => ?_
  rw [Function.comp_apply, pieceDigest, pieceOf, hk.tree level i _ (List.length_take_le _ _), chainingValue,
    if_pos (hk.length _ _), Nat.zero_add]

/-- What a writer hands over: its digest, and the piece hashes it merges from its blocks'. -/
def takenBy (L : Layout (List UInt8) Algo (List UInt8)) (s : State (List UInt8) Algo) : Written :=
  .writer (fun extra => (s.digest L extra).2) fun p => (L.pieceHashes p (s.blockHashes L).2).getD []

/-- What a writer took is of its file, once no write of it runs. -/
theorem of_writer (hk : k.Computes L) (hblock : L.block = hashBlock L.size) {s : State (List UInt8) Algo} (hsound : Sound L s)
    (hdone : s.done = true) : (takenBy L s).Of k o (s.contents 0 L.size) := by
  constructor
  · obtain ⟨-, -, hblake, hextra⟩ := hsound.digest hdone (needed o.expected)
    rw [Hashes.digest, hk.blake3, hk.other, ← hblake, ← hextra]
  · intro p hp
    have hlen : (s.contents 0 L.size).length = L.size := by
      rw [Storage.length_contents, Nat.sub_zero]
    rw [hlen] at hp
    obtain ⟨j, rfl⟩ := pieceSize_blocks hp
    obtain ⟨hpos, hlt⟩ := pos_of_pieceSize hp
    rw [← hblock] at hlt ⊢
    have hfile : s.contents 0 L.size ≠ [] := by
      intro hnil
      rw [hnil, List.length_nil] at hlen
      omega
    have hwidth : 2 ^ j * L.block = L.tree.width (L.level + j) := (L.tree.width_add L.level j).symm
    show (L.pieceHashes (2 ^ j * L.block) (s.blockHashes L).2).getD [] = _
    rw [hsound.pieceHashes hdone hlt, Option.getD_some, hwidth, pieceDigests_eq hk hfile]

/-- A file that a writer wrote, its writes and reads in any order, is kept only if its bytes pass,
with their hash and piece hashes, and it is if they pass and nothing fails. -/
theorem writer_kept (hk : k.Computes L) (hblock : L.block = hashBlock L.size) (hsize : L.size < 2 ^ 63) {c : Option Checksum}
    (hwanted : wanted o.expected = .ok c) {s : State (List UInt8) Algo} (hreach : (Storage.patientWriter L).Reachable s)
    (hdone : s.done = true) (published : Option Text) (state : Option Repair.DownloadState) :
    (∀ fate kept, lastChecks k o fate (s.contents 0 L.size) published state (takenBy L s) = .ok kept →
      Passes k o published (s.contents 0 L.size) ∧ kept.hash = Storage.hex (L.tree.hash (s.contents 0 L.size)) ∧
        ∀ p ∈ kept.pieces, p.1 ∈ pieceSize L.size ∧
          p.2 = (pieceDigests k.hashing k.tree p.1 (s.contents 0 L.size)).map chainingValue) ∧
      (Passes k o published (s.contents 0 L.size) →
        ∃ kept, lastChecks k o .good (s.contents 0 L.size) published state (takenBy L s) = .ok kept) := by
  have hlen : (s.contents 0 L.size).length = L.size := by rw [Storage.length_contents, Nat.sub_zero]
  have hof : (takenBy L s).Of k o (s.contents 0 L.size) := of_writer hk hblock (Storage.sound_invariant L s hreach).1 hdone
  have hchecks := lastChecks_of (by rwa [hlen]) hwanted published state hof
  rwa [hlen, hk.blake3] at hchecks

/-- Three bytes are one leaf. -/
def abcLayout : Layout (List UInt8) Algo (List UInt8) where
  size := 3
  level := 8
  tree :=
    { leaf := 2 ^ 10, leaf_pos := Nat.two_pow_pos 10, leafValue := fun _ _ => List.replicate 32 0, leafRoot := abcChecker.hashes.blake3
      node := fun _ _ => List.replicate 32 0, nodeRoot := fun _ _ => [] }
  other _ _ := []

def abcWriter : Checker Unit where
  hashes := { blake3 := abcLayout.tree.hash, other := fun _ _ => [] }
  hashing :=
    { update := fun _ _ => (), finish := fun _ => List.replicate 32 0, update_update := fun _ _ _ => rfl, update_nil := fun _ => rfl }
  flat _ := none
  tree _ := ()
  debug := String.ofList
  path := "abc.part"

theorem computes_abc : abcWriter.Computes abcLayout := by
  have hvalue (first : Nat) (data : List UInt8) : abcLayout.tree.value first data = List.replicate 32 0 := by
    unfold TreeHash.value
    split <;> rfl
  exact ⟨rfl, rfl, fun level i data _ => (hvalue _ data).symm, fun first data => by rw [hvalue, List.length_replicate]⟩

/-- The three bytes were there. -/
def abcState : State (List UInt8) Algo := .start abcLayout (fun b => [0x61, 0x62, 0x63].getD b 0) [(0, 2)] none

theorem writer_kept_abc : ∃ kept, lastChecks abcWriter abcAsked .good (abcState.contents 0 3) none none (takenBy abcLayout abcState) = .ok kept := by
  have hblock : abcLayout.block = hashBlock 3 := by
    simp [Layout.block, TreeHash.width, abcLayout, hashBlock, maxHashBlocks, minHashBlock, nextPowerOfTwo]
  have hreach : (Storage.patientWriter abcLayout).Reachable abcState := .init ⟨_, _, _, rfl⟩
  exact (writer_kept computes_abc hblock (by decide) wanted_abc hreach rfl none none).2 (passes_abc (by decide +kernel))

end Hyperfetch.Checks
