import Hyperfetch.Mega.Cipher
import Mathlib.Tactic

/-!
# The MAC of a MEGA file (`mega.rs`)

`macOf` reads the plaintext once, chunk after chunk, as the code does.
`referenceMac` says what MEGA's clients take: every chunk of the growing
sequence has a CBC-MAC over its zero-padded blocks, these have another one,
and its words are folded. `macOf_eq` relates them for files of every length.
-/

namespace Hyperfetch

open Weft

namespace Mega

/-- How long the next chunk of the MAC may be: never empty, and never longer
than the buffer it is read into. -/
structure ChunkSize where
  bytes : Nat
  pos : 0 < bytes
  fits : bytes ≤ 1 <<< 20
  deriving DecidableEq

def ChunkSize.first : ChunkSize := ⟨128 <<< 10, by decide, by decide⟩

/-- The chunks grow up to 1 MiB. -/
def ChunkSize.next (size : ChunkSize) : ChunkSize :=
  ⟨min (size.bytes + 128 <<< 10) (1 <<< 20), lt_min (Nat.add_pos_left size.pos _) (by decide), min_le_right _ _⟩

/-- XORs `bytes` into the front of a block. -/
def xorBlock (block : Block) (bytes : List UInt8) : Block :=
  Vector.ofFn fun i => (bytes[i.val]?.map (block[i] ^^^ ·)).getD block[i]

/-- The pieces of 16 bytes of a chunk, the last one shorter if need be. -/
def blocksOf (chunk : List UInt8) : List (List UInt8) :=
  (List.range ((chunk.length + 15) / 16)).map fun i => slice chunk ⟨16 * i, 16⟩

/-- Where the CBC-MAC of a chunk starts: the nonce twice. -/
def Cipher.start (c : Cipher) : Block := c.nonce ++ c.nonce

/-- The CBC-MAC of one chunk. -/
def Cipher.chunkMac (c : Cipher) (chunk : List UInt8) : Block :=
  (blocksOf chunk).foldl (fun mac block => c.aes (xorBlock mac block)) c.start

/-- The loop over the chunks: `done` bytes of `len` are read, `data` is what
is still to be read. `none` when it ends before `len` bytes. -/
def Cipher.macLoop (c : Cipher) (len : Nat) (data : List UInt8) (folded : Block) (done : Nat)
    (size : ChunkSize) : Option Block :=
  if done < len then
    let n := min size.bytes (len - done)
    if data.length < n then none
    else
      let mac := c.chunkMac (data.take n)
      c.macLoop len (data.drop n) (c.aes (xorBlock folded mac.toList)) (done + n) size.next
  else some folded
termination_by len - done
decreasing_by
  have := size.pos
  omega

/-- The words of the folded MAC's halves XORed. -/
def condense (folded : Block) : Vector UInt8 8 :=
  Vector.ofFn fun i => folded[i.val + i.val / 4 * 4] ^^^ folded[i.val + i.val / 4 * 4 + 4]

/-- The MAC of the `len` bytes of plaintext `data`. -/
def Cipher.macOf (c : Cipher) (data : List UInt8) (len : Nat) : Option (Vector UInt8 8) :=
  (c.macLoop len data (Vector.replicate 16 0) 0 .first).map condense

/-- Whether a decrypted file matches the MAC its key carries. An empty file
has nothing to check. -/
def Cipher.macMatches (c : Cipher) (file : List UInt8) : Option Bool :=
  if file.length = 0 then some true else (c.macOf file file.length).map (· == c.mac)

/-! ## MEGA's reference -/

/-- The length of chunk `k`: 128 KiB, 256 KiB and so on up to 1 MiB. -/
def chunkLen (k : Nat) : Nat := min ((k + 1) * 131072) 1048576

def chunkStart (k : Nat) : Nat := ∑ i ∈ Finset.range k, chunkLen i

theorem le_chunkStart (k : Nat) : k ≤ chunkStart k := by
  induction k with
  | zero => exact Nat.zero_le _
  | succ k ih =>
    have hone : 1 ≤ chunkLen k := by unfold chunkLen; omega
    have hstep : chunkStart (k + 1) = chunkStart k + chunkLen k := Finset.sum_range_succ _ _
    omega

/-- How many chunks a file of `n` bytes has: as many as it takes to reach its
end. -/
def chunkCount (n : Nat) : Nat := Nat.find (⟨n, le_chunkStart n⟩ : ∃ k, n ≤ chunkStart k)

def xor (a b : Block) : Block := Vector.zipWith (· ^^^ ·) a b

/-- Cipher block chaining: each block XORed in, then enciphered. -/
def cbcMac (aes : Block → Block) (iv : Block) (blocks : List Block) : Block :=
  blocks.foldl (fun mac block => aes (xor mac block)) iv

/-- A chunk as blocks, the last one padded with zeros. -/
def paddedBlocks (chunk : List UInt8) : List Block :=
  (List.range ((chunk.length + 15) / 16)).map fun i => Vector.ofFn fun j => chunk.getD (16 * i + j.val) 0

/-- The MACs of a file's chunks. -/
def Cipher.chunkMacs (c : Cipher) (file : List UInt8) : List Block :=
  (List.range (chunkCount file.length)).map fun k =>
    cbcMac c.aes c.start (paddedBlocks (slice file ⟨chunkStart k, chunkLen k⟩))

def Cipher.referenceMac (c : Cipher) (file : List UInt8) : Vector UInt8 8 :=
  condense (cbcMac c.aes (Vector.replicate 16 0) (c.chunkMacs file))

/-! ## The chunks -/

theorem chunkStart_succ (k : Nat) : chunkStart (k + 1) = chunkStart k + chunkLen k :=
  Finset.sum_range_succ _ _

theorem chunkStart_mono : Monotone chunkStart :=
  monotone_nat_of_le_succ fun k => by rw [chunkStart_succ]; exact Nat.le_add_right _ _

/-- The chunks of a file are those that start within it. -/
theorem lt_chunkCount_iff {k n : Nat} : k < chunkCount n ↔ chunkStart k < n := by
  rw [chunkCount, Nat.lt_find_iff]
  constructor
  · intro h
    exact Nat.lt_of_not_le (h k le_rfl)
  · intro h m hm hreach
    have := chunkStart_mono hm
    omega

/-- The size the loop is at when it comes to chunk `k`. -/
def ChunkSize.ofIndex (k : Nat) : ChunkSize :=
  ⟨chunkLen k, by unfold chunkLen; omega, by unfold chunkLen; omega⟩

theorem ChunkSize.bytes_ofIndex (k : Nat) : (ChunkSize.ofIndex k).bytes = chunkLen k := rfl

theorem ChunkSize.next_ofIndex (k : Nat) : (ChunkSize.ofIndex k).next = ChunkSize.ofIndex (k + 1) := by
  have hgrow : min (chunkLen k + 131072) 1048576 = chunkLen (k + 1) := by
    unfold chunkLen
    omega
  rw [next, ChunkSize.mk.injEq]
  exact hgrow

theorem xorBlock_slice (mac : Block) (chunk : List UInt8) (i : Nat) :
    xorBlock mac (slice chunk ⟨16 * i, 16⟩) = xor mac (Vector.ofFn fun j => chunk.getD (16 * i + j.val) 0) := by
  apply Vector.ext
  intro j hj
  simp only [xorBlock, xor, Vector.getElem_ofFn, Vector.getElem_zipWith, getElem?_slice, if_pos hj,
    List.getD_eq_getElem?_getD]
  cases chunk[16 * i + j]? with
  | none => exact (UInt8.xor_zero).symm
  | some byte => rfl

theorem xorBlock_toList (a b : Block) : xorBlock a b.toList = xor a b := by
  apply Vector.ext
  intro j hj
  simp [xorBlock, xor]

/-- Leaving the last bytes of a chunk out of the XOR is padding with zeros. -/
theorem Cipher.chunkMac_eq (c : Cipher) (chunk : List UInt8) :
    c.chunkMac chunk = cbcMac c.aes c.start (paddedBlocks chunk) := by
  simp only [chunkMac, cbcMac, blocksOf, paddedBlocks, List.foldl_map, xorBlock_slice]

/-! ## The loop -/

/-- From chunk `k` on, with `m` chunks to go, the loop chains the MACs of
those chunks. -/
theorem Cipher.macLoop_eq (c : Cipher) (file : List UInt8) {k m : Nat} (hm : k + m = chunkCount file.length)
    (folded : Block) :
    c.macLoop file.length (file.drop (min (chunkStart k) file.length)) folded
      (min (chunkStart k) file.length) (.ofIndex k) =
        some (cbcMac c.aes folded ((List.range' k m).map fun k =>
          cbcMac c.aes c.start (paddedBlocks (slice file ⟨chunkStart k, chunkLen k⟩)))) := by
  induction m generalizing k folded with
  | zero =>
    have hend : ¬ chunkStart k < file.length := fun h => by
      have := lt_chunkCount_iff.mpr h
      omega
    rw [macLoop, if_neg (by omega)]
    rfl
  | succ m ih =>
    have hlt : chunkStart k < file.length := lt_chunkCount_iff.mp (by omega)
    have hrest : (file.drop (chunkStart k)).length = file.length - chunkStart k := List.length_drop
    have hchunk : (file.drop (chunkStart k)).take (min (chunkLen k) (file.length - chunkStart k)) =
        slice file ⟨chunkStart k, chunkLen k⟩ := by
      rw [slice, ← hrest, ← List.take_eq_take_min]
    have hdone : chunkStart k + min (chunkLen k) (file.length - chunkStart k) =
        min (chunkStart (k + 1)) file.length := by
      rw [chunkStart_succ]
      omega
    rw [min_eq_left hlt.le, macLoop, if_pos hlt]
    simp only [ChunkSize.next_ofIndex, ChunkSize.bytes_ofIndex]
    rw [if_neg (by omega), List.drop_drop, hdone, hchunk, c.chunkMac_eq, xorBlock_toList]
    exact ih (by omega) _

theorem Cipher.macOf_eq (c : Cipher) (file : List UInt8) :
    c.macOf file file.length = some (c.referenceMac file) := by
  have hloop := c.macLoop_eq file (k := 0) (m := chunkCount file.length) (Nat.zero_add _) (Vector.replicate 16 0)
  have hstart : min (chunkStart 0) file.length = 0 := Nat.zero_min _
  rw [hstart, List.drop_zero, ← List.range_eq_range'] at hloop
  rw [macOf, show ChunkSize.first = ChunkSize.ofIndex 0 from rfl, hloop]
  rfl

/-- A file passes the check exactly if it is empty or its MAC is its key's. -/
theorem Cipher.macMatches_iff (c : Cipher) (file : List UInt8) :
    c.macMatches file = some true ↔ file = [] ∨ c.referenceMac file = c.mac := by
  rw [macMatches, c.macOf_eq]
  by_cases hnil : file = []
  · simp [hnil]
  · simp [hnil]

/-! ## A file in pieces -/

/-- Decrypting in pieces is decrypting whole, in memory and onto the disk;
doing it twice undoes it; and the MAC is MEGA's. -/
theorem decrypts_in_pieces (c : Cipher) (file : List UInt8) :
    (∀ p : Piece, c.apply p.start (slice file p) = slice (c.apply 0 file) p) ∧
    (∀ ps, Tiles file.length ps → ps.foldl (inPlace c.apply) file = c.apply 0 file) ∧
    (∀ ps disk, Tiles file.length ps → disk.length = file.length →
      DiskWriter.download ⟨file.length, some c⟩ file ps disk = some (c.apply 0 file)) ∧
    (∀ offset data, c.apply offset (c.apply offset data) = data) ∧
    c.macOf file file.length = some (c.referenceMac file) := by
  refine ⟨c.apply_slice file, ?_, ?_, c.apply_apply, c.macOf_eq file⟩
  · intro ps htiles
    exact c.foldl_inPlace_apply htiles
  · intro ps disk htiles hdisk
    exact DiskWriter.download_eq rfl rfl hdisk htiles

end Mega

end Hyperfetch
