import Hyperfetch.Weft.Pieces
import Mathlib.Tactic

/-!
# The cipher of a MEGA file (`mega.rs`)

AES in counter mode, keyed by byte offset: `apply` finds the first counter
and how far into its block the data starts, makes the blocks of keystream the
data reaches into and XORs. `apply_eq_mask` says what comes out, byte by
byte; that pieces decrypt as the whole does follows from `Weft.Pieces`.

AES itself is any function on blocks: nothing here needs more of it.
-/

namespace Hyperfetch

open Weft

namespace Mega

abbrev Block := Vector UInt8 16

/-- The key of one MEGA file: AES under the file's key, a nonce, and the MAC
of its plaintext. -/
structure Cipher where
  aes : Block → Block
  nonce : Vector UInt8 8
  mac : Vector UInt8 8

/-- From the file's 256-bit key: the AES key is its two halves XORed, the
nonce its third quarter, the MAC its fourth. -/
def Cipher.new (aes128 : Block → Block → Block) (key : Vector UInt8 32) : Cipher where
  aes := aes128 (Vector.ofFn fun i => key[i] ^^^ key[i.val + 16])
  nonce := Vector.ofFn fun i => key[i.val + 16]
  mac := Vector.ofFn fun i => key[i.val + 24]

/-- The bytes of a 64-bit number, the most significant first. -/
def toBeBytes (n : Nat) : Vector UInt8 8 := Vector.ofFn fun i => (n / 256 ^ (7 - i.val)).toUInt8

/-- The counter block of the file's 16-byte block at `index`. -/
def Cipher.counter (c : Cipher) (index : Nat) : Block := c.nonce ++ toBeBytes index

/-- XORs `key` into `data`, which it leaves as it is past the end of `key`. -/
def xorInto (data key : List UInt8) : List UInt8 :=
  data.mapIdx fun i byte => (key[i]?.map (byte ^^^ ·)).getD byte

/-- Decrypts `data`, the bytes at `offset` of the file: XORs it with the
keystream there, the AES of the nonce and each 16-byte block's index. -/
def Cipher.apply (c : Cipher) (offset : Nat) (data : List UInt8) : List UInt8 :=
  let first := offset / 16
  let skip := offset % 16
  let stream := (List.range' first ((skip + data.length + 15) / 16)).map fun index => c.aes (c.counter index)
  xorInto data ((stream.flatMap Vector.toList).drop skip)

/-! ## The keystream -/

/-- The keystream's byte at place `b` of the file. -/
def Cipher.keystream (c : Cipher) (b : Nat) : UInt8 :=
  (c.aes (c.counter (b / 16))).get ⟨b % 16, Nat.mod_lt _ (by decide)⟩

theorem getElem?_flatMap_toList (blocks : List Block) (i : Nat) :
    (blocks.flatMap Vector.toList)[i]? =
      blocks[i / 16]?.map fun block => block.get ⟨i % 16, Nat.mod_lt _ (by decide)⟩ := by
  induction blocks generalizing i with
  | nil => simp
  | cons block blocks ih =>
    rw [List.flatMap_cons]
    by_cases hi : i < 16
    · rw [List.getElem?_append_left (by simpa using hi), Nat.div_eq_of_lt hi]
      simp [hi, Nat.mod_eq_of_lt hi, Vector.get]
    · obtain ⟨j, rfl⟩ : ∃ j, i = j + 16 := ⟨i - 16, by omega⟩
      rw [List.getElem?_append_right (by simp), Vector.length_toList, Nat.add_sub_cancel, ih,
        Nat.add_div_right _ (by decide), List.getElem?_cons_succ]
      simp

/-- The keystream made for data of a given length at `offset` is the file's
keystream from there, and reaches past the data's end. -/
theorem Cipher.stream_eq (c : Cipher) {offset length i : Nat} (hi : i < length) :
    (((List.range' (offset / 16) ((offset % 16 + length + 15) / 16)).map fun index =>
      c.aes (c.counter index)).flatMap Vector.toList |>.drop (offset % 16))[i]? =
        some (c.keystream (offset + i)) := by
  have hdiv : offset / 16 + (offset % 16 + i) / 16 = (offset + i) / 16 := by omega
  have hmod : (offset % 16 + i) % 16 = (offset + i) % 16 := by omega
  have hin : (offset % 16 + i) / 16 < (offset % 16 + length + 15) / 16 := by omega
  rw [List.getElem?_drop, getElem?_flatMap_toList, List.getElem?_map, List.getElem?_range' hin, Nat.one_mul, hdiv]
  simp only [hmod, Option.map_some]
  rfl

theorem Cipher.apply_eq_mask (c : Cipher) (offset : Nat) (data : List UInt8) :
    c.apply offset data = mask (· ^^^ ·) c.keystream offset data := by
  apply List.ext_getElem?
  intro i
  rw [getElem?_mask, apply, xorInto, List.getElem?_mapIdx]
  by_cases hi : i < data.length
  · rw [List.getElem?_eq_getElem hi, c.stream_eq hi]
    rfl
  · have hnone : data[i]? = none := List.getElem?_eq_none (Nat.le_of_not_lt hi)
    rw [hnone]
    rfl

@[simp] theorem Cipher.length_apply (c : Cipher) (offset : Nat) (data : List UInt8) :
    (c.apply offset data).length = data.length := by
  rw [c.apply_eq_mask, length_mask]

/-- Encrypting is decrypting. -/
theorem Cipher.apply_apply (c : Cipher) (offset : Nat) (data : List UInt8) :
    c.apply offset (c.apply offset data) = data := by
  rw [c.apply_eq_mask, c.apply_eq_mask]
  exact mask_mask _ _ (fun x k => by rw [UInt8.xor_assoc, UInt8.xor_self, UInt8.xor_zero]) offset data

/-- A piece decrypted where it stands is that piece of the file decrypted. -/
theorem Cipher.apply_slice (c : Cipher) (file : List UInt8) (p : Piece) :
    c.apply p.start (slice file p) = slice (c.apply 0 file) p := by
  rw [c.apply_eq_mask, c.apply_eq_mask, mask_slice]

/-- Decrypting the pieces of a tiling in place, in any order. -/
theorem Cipher.foldl_inPlace_apply (c : Cipher) {file : List UInt8} {ps : List Piece}
    (htiles : Tiles file.length ps) : ps.foldl (inPlace c.apply) file = c.apply 0 file := by
  have hmask : c.apply = mask (· ^^^ ·) c.keystream := funext₂ c.apply_eq_mask
  rw [hmask, foldl_inPlace_mask _ _ htiles]

/-! ## Writing what arrives -/

/-- Writes a file of `size` bytes, decrypting what it is given if it has a
cipher. -/
structure DiskWriter where
  size : Nat
  decrypt : Option Cipher

/-- Writes `data` at `offset`: what the file holds then, or `none` if `data`
reaches past its end. -/
def DiskWriter.writeChunkSlice (w : DiskWriter) (file : List UInt8) (offset : Nat) (data : List UInt8) :
    Option (List UInt8) :=
  if w.size < offset + data.length then none
  else
    let plain := match w.decrypt with
      | some cipher => cipher.apply offset data
      | none => data
    some (splice file offset plain)

/-- What a download of the encrypted `file` in pieces leaves on the disk. -/
def DiskWriter.download (w : DiskWriter) (file : List UInt8) (ps : List Piece) (disk : List UInt8) :
    Option (List UInt8) :=
  ps.foldlM (fun disk p => w.writeChunkSlice disk p.start (slice file p)) disk

/-- Whatever was on the disk, pieces of a tiling written in any order leave
the file decrypted. -/
theorem DiskWriter.download_eq {w : DiskWriter} {c : Cipher} {file disk : List UInt8} {ps : List Piece}
    (hc : w.decrypt = some c) (hsize : w.size = file.length) (hdisk : disk.length = file.length)
    (htiles : Tiles file.length ps) : w.download file ps disk = some (c.apply 0 file) := by
  have hwrite : ∀ qs : List Piece, (∀ p ∈ qs, p.start + p.len ≤ file.length) → ∀ disk,
      w.download file qs disk =
        some (qs.foldl (fun acc p => splice acc p.start (slice (c.apply 0 file) p)) disk) := by
    intro qs
    induction qs with
    | nil => exact fun _ _ => rfl
    | cons p qs ih =>
      intro hin disk
      have hp := hin p List.mem_cons_self
      have hfits : ¬ w.size < p.start + (slice file p).length := by
        rw [length_slice hp]
        omega
      have hone : w.writeChunkSlice disk p.start (slice file p) =
          some (splice disk p.start (slice (c.apply 0 file) p)) := by
        simp only [writeChunkSlice, if_neg hfits, hc, c.apply_slice]
      rw [download, List.foldlM_cons, hone]
      exact ih (fun q hq => hin q (List.mem_cons_of_mem _ hq)) _
  rw [hwrite ps htiles.within, foldl_splice_slices] <;> rw [c.length_apply]
  · exact hdisk
  · exact htiles

end Mega

end Hyperfetch
