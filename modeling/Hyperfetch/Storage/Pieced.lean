import Hyperfetch.Range
import Hyperfetch.Text
import Hyperfetch.Weft.Checked
import Hyperfetch.Weft.Utf8

/-!
# Digests of a file's pieces, however it is read (`digest.rs`, `metalink.rs`)

`Pieced` is fed a file in buffers that know nothing of its pieces. `Fed` is what it
keeps at every byte: the digests of the pieces that are whole, and a hasher that has
had the part of the one that is not. `readPass` compares them with a metalink's.
-/

namespace Hyperfetch.Storage

open Weft Checked

/-- The hash functions: `H` is a `Hasher` and `D` a digest. What comes in two updates
is what comes in one. -/
structure Hashing (H D : Type) where
  update : H → List UInt8 → H
  finish : H → D
  update_update : ∀ s a b, update (update s a) b = update s (a ++ b)
  update_nil : ∀ s, update s [] = s

variable {H D : Type}

/-- `Pieced`. -/
structure Pieced (H D : Type) where
  len : Nat
  size : Nat
  at_ : Nat
  new : Nat → H
  current : Option H
  done : List D
  len_pos : 0 < len

/-- A product of two words. -/
def mulWord (a b : Nat) : Checked Empty Nat := if a * b ≤ wordMax then .ok (a * b) else fault

namespace Pieced

/-- `Pieced::new`. -/
def start (len size : Nat) (new : Nat → H) : Pieced H D where
  len := max len 1
  size
  at_ := 0
  new
  current := none
  done := []
  len_pos := Nat.lt_of_lt_of_le Nat.zero_lt_one (Nat.le_max_right len 1)

variable (hash : Hashing H D)

/-- One round of `update`'s loop, and the bytes left. -/
def round (p : Pieced H D) (data : List UInt8) : Checked Empty (Pieced H D × List UInt8) := do
  let next ← Checked.add (p.at_ / p.len) 1
  let stop ← mulWord next p.len
  let room ← sub (min stop p.size) p.at_
  let n := min room data.length
  let first ← sub p.at_ (p.at_ % p.len)
  let current := hash.update (p.current.getD (p.new first)) (data.take n)
  let after ← Checked.add p.at_ n
  if after = min stop p.size then
    pure ({ p with at_ := after, current := none, done := p.done ++ [hash.finish current] }, data.drop n)
  else pure ({ p with at_ := after, current := some current }, data.drop n)

/-- `update`'s loop. A round takes a byte at least, or would be gone through for ever. -/
def rounds : Nat → Pieced H D → List UInt8 → Checked Empty (Pieced H D)
  | _, p, [] => .ok p
  | 0, _, _ :: _ => fault
  | turns + 1, p, b :: data => do
    let (p, left) ← round hash p (b :: data)
    rounds turns p left

/-- `update`. -/
def update (p : Pieced H D) (data : List UInt8) : Checked Empty (Pieced H D) := rounds hash data.length p data

/-- `finish`: the pieces' digests; an empty file's one. -/
def finish (p : Pieced H D) : List D := if p.size = 0 then p.done ++ [hash.finish (p.new 0)] else p.done

end Pieced

/-! ## The pieces of a file -/

/-- `size.div_ceil(len)`. -/
def pieceCount (len size : Nat) : Nat := (size + len - 1) / len

/-- The bytes of a piece. -/
def pieceOf (len : Nat) (file : List UInt8) (i : Nat) : List UInt8 := (file.drop (i * len)).take len

/-- The digest of a piece, by a hasher for its place. -/
def pieceDigest (hash : Hashing H D) (new : Nat → H) (len : Nat) (file : List UInt8) (i : Nat) : D :=
  hash.finish (hash.update (new (i * len)) (pieceOf len file i))

/-- One digest for each piece, in order; an empty file is one piece. -/
def pieceDigests (hash : Hashing H D) (new : Nat → H) (len : Nat) (file : List UInt8) : List D :=
  (List.range (max 1 (pieceCount len file.length))).map (pieceDigest hash new len file)

theorem lt_pieceCount {len size k : Nat} (hlen : 0 < len) : k < pieceCount len size ↔ k * len < size := by
  rw [pieceCount, Nat.lt_iff_add_one_le, Nat.le_div_iff_mul_le hlen, Nat.add_one_mul]
  omega

/-- Pieces side by side are the file up to their end. -/
theorem flatten_pieces (len : Nat) (file : List UInt8) (k : Nat) :
    ((List.range k).map (pieceOf len file)).flatten = file.take (k * len) := by
  induction k with
  | zero => simp
  | succ k ih =>
    rw [List.range_succ, List.map_append, List.flatten_append, ih, List.map_singleton, List.flatten_singleton, Nat.succ_mul,
      List.take_add]
    rfl

/-! ## What it keeps -/

/-- It has had the bytes of `file` before `at_`: `done` pieces are whole, and of the next
one `current` has had what there is. -/
structure Fed (hash : Hashing H D) (file : List UInt8) (p : Pieced H D) (whole : Nat) : Prop where
  size : p.size = file.length
  done : p.done = (List.range whole).map (pieceDigest hash p.new p.len file)
  le : whole ≤ pieceCount p.len file.length
  place : (p.current = none ∧ p.at_ = min (whole * p.len) file.length) ∨
    (p.current = some (hash.update (p.new (whole * p.len)) ((file.drop (whole * p.len)).take (p.at_ - whole * p.len))) ∧
      whole * p.len < p.at_ ∧ p.at_ < min ((whole + 1) * p.len) file.length)

namespace Fed

variable {hash : Hashing H D} {file : List UInt8} {p : Pieced H D} {whole : Nat}

theorem start (hash : Hashing H D) (file : List UInt8) (len : Nat) (new : Nat → H) :
    Fed hash file (Pieced.start len file.length new) 0 where
  size := rfl
  done := rfl
  le := Nat.zero_le _
  place := by
    left
    refine ⟨rfl, ?_⟩
    rw [Nat.zero_mul, Nat.zero_min]
    rfl

/-- Before the end it is within the next piece. -/
theorem within (h : Fed hash file p whole) (hlt : p.at_ < file.length) :
    whole * p.len ≤ p.at_ ∧ p.at_ < (whole + 1) * p.len := by
  have hlen := p.len_pos
  rw [Nat.add_one_mul]
  rcases h.place with ⟨-, hat⟩ | ⟨-, hge, hlt'⟩
  · omega
  · rw [Nat.add_one_mul] at hlt'
    omega

/-- What comes next goes behind what the next piece has had. -/
theorem update_current (h : Fed hash file p whole) (hlt : p.at_ < file.length) (data : List UInt8) :
    hash.update (p.current.getD (p.new (whole * p.len))) data =
      hash.update (p.new (whole * p.len)) ((file.drop (whole * p.len)).take (p.at_ - whole * p.len) ++ data) := by
  rcases h.place with ⟨hnone, hat⟩ | ⟨hsome, -, -⟩
  · have hzero : p.at_ - whole * p.len = 0 := by omega
    rw [hnone, hzero, List.take_zero, List.nil_append]
    rfl
  · rw [hsome, Option.getD_some, hash.update_update]

/-- A round takes at least a byte of what the file goes on with. -/
theorem round (h : Fed hash file p whole) (hfile : file.length < 2 ^ 63) (hword : p.len ≤ wordMax) {data rest : List UInt8}
    (hdata : data ≠ []) (hnext : file.drop p.at_ = data ++ rest) :
    ∃ p' whole' n, p.round hash data = .ok (p', data.drop n) ∧ 0 < n ∧ n ≤ data.length ∧ Fed hash file p' whole' ∧
      p'.at_ = p.at_ + n ∧ p'.len = p.len ∧ p'.new = p.new := by
  have hlen := p.len_pos
  have hpos : 0 < data.length := List.length_pos_of_ne_nil hdata
  have hroom : file.length - p.at_ = data.length + rest.length := by
    rw [← List.length_drop, hnext, List.length_append]
  have hlt : p.at_ < file.length := by omega
  obtain ⟨hge, hnot⟩ := h.within hlt
  have hstop : (whole + 1) * p.len = whole * p.len + p.len := Nat.add_one_mul whole p.len
  have hdiv : p.at_ / p.len = whole := Nat.div_eq_of_lt_le hge hnot
  have hmod : p.at_ - p.at_ % p.len = whole * p.len := by
    have hsplit := Nat.div_add_mod' p.at_ p.len
    rw [hdiv] at hsplit
    omega
  have hsmall : whole ≤ whole * p.len := Nat.le_mul_of_pos_right whole hlen
  -- neither the product nor a sum leaves the word: a piece ends within twice the file, or is the first
  have hproduct : (whole + 1) * p.len ≤ wordMax := by
    rcases Nat.eq_zero_or_pos whole with rfl | hwhole
    · omega
    · have hone : p.len ≤ whole * p.len := Nat.le_mul_of_pos_left p.len hwhole
      unfold wordMax
      omega
  obtain ⟨stop, hstopEq⟩ : ∃ stop, stop = min ((whole + 1) * p.len) file.length := ⟨_, rfl⟩
  obtain ⟨n, hn⟩ : ∃ n, n = min (stop - p.at_) data.length := ⟨_, rfl⟩
  have hnpos : 0 < n := by omega
  have htaken : data.take n = (file.drop p.at_).take n := by
    rw [hnext, List.take_append_of_le_length (by omega)]
  have hpart : (file.drop (whole * p.len)).take (p.at_ - whole * p.len) ++ data.take n =
      (file.drop (whole * p.len)).take (p.at_ + n - whole * p.len) := by
    have hat : file.drop p.at_ = (file.drop (whole * p.len)).drop (p.at_ - whole * p.len) := by
      rw [List.drop_drop, Nat.add_sub_cancel' hge]
    rw [htaken, hat, ← List.take_add]
    congr 1
    omega
  have hsum : (Checked.add (p.at_ / p.len) 1 : Checked Empty Nat) = .ok (whole + 1) := by
    rw [hdiv]
    exact add_eq (by unfold wordMax; omega)
  have hafter : (Checked.add p.at_ n : Checked Empty Nat) = .ok (p.at_ + n) := add_eq (by unfold wordMax; omega)
  have hfirst : (sub p.at_ (p.at_ % p.len) : Checked Empty Nat) = .ok (whole * p.len) := by
    rw [sub_eq (Nat.mod_le _ _), hmod]
  have hsub : (sub stop p.at_ : Checked Empty Nat) = .ok (stop - p.at_) := sub_eq (by omega)
  have hmul : mulWord (whole + 1) p.len = .ok ((whole + 1) * p.len) := if_pos hproduct
  have hround : p.round hash data =
      if p.at_ + n = stop then
        .ok ({ p with
          at_ := p.at_ + n
          current := none
          done := p.done ++ [hash.finish (hash.update (p.new (whole * p.len))
            ((file.drop (whole * p.len)).take (p.at_ + n - whole * p.len)))] }, data.drop n)
      else
        .ok ({ p with
          at_ := p.at_ + n
          current := some (hash.update (p.new (whole * p.len))
            ((file.drop (whole * p.len)).take (p.at_ + n - whole * p.len))) }, data.drop n) := by
    rw [Pieced.round, hsum, ok_bind, hmul, ok_bind, h.size, ← hstopEq, hsub, ok_bind, hfirst, ok_bind]
    show (Checked.add p.at_ (min (stop - p.at_) data.length) >>= _) = _
    rw [← hn, hafter, ok_bind, h.update_current hlt, hpart]
    rfl
  by_cases hwhole : p.at_ + n = stop
  · rw [if_pos hwhole] at hround
    refine ⟨_, whole + 1, n, hround, hnpos, by omega, ⟨h.size, ?_, ?_, .inl ⟨rfl, ?_⟩⟩, rfl, rfl, rfl⟩
    · have hpiece : (file.drop (whole * p.len)).take (p.at_ + n - whole * p.len) = pieceOf p.len file whole := by
        rw [pieceOf, List.take_eq_take_iff, List.length_drop]
        omega
      rw [List.range_succ, List.map_append, ← h.done, hpiece]
      rfl
    · exact (lt_pieceCount hlen).mpr (by omega)
    · show p.at_ + n = min ((whole + 1) * p.len) file.length
      omega
  · rw [if_neg hwhole] at hround
    refine ⟨_, whole, n, hround, hnpos, by omega, ⟨h.size, h.done, h.le, .inr ⟨rfl, ?_, ?_⟩⟩, rfl, rfl, rfl⟩
    · show whole * p.len < p.at_ + n
      omega
    · show p.at_ + n < min ((whole + 1) * p.len) file.length
      omega

/-- A buffer is taken whole. -/
theorem rounds (h : Fed hash file p whole) (hfile : file.length < 2 ^ 63) (hword : p.len ≤ wordMax) {turns : Nat}
    {data rest : List UInt8} (hturns : data.length ≤ turns) (hnext : file.drop p.at_ = data ++ rest) :
    ∃ p' whole', p.rounds hash turns data = .ok p' ∧ Fed hash file p' whole' ∧ p'.at_ = p.at_ + data.length ∧
      p'.len = p.len ∧ p'.new = p.new := by
  induction turns generalizing p whole data with
  | zero =>
    obtain rfl := List.length_eq_zero_iff.mp (Nat.le_zero.mp hturns)
    exact ⟨p, whole, rfl, h, rfl, rfl, rfl⟩
  | succ turns ih =>
    cases data with
    | nil => exact ⟨p, whole, rfl, h, rfl, rfl, rfl⟩
    | cons b data =>
      obtain ⟨p₁, whole₁, n, hround, hpos, hn, h₁, hat, hlen, hnew⟩ := h.round hfile hword (List.cons_ne_nil b data) hnext
      have hleft : file.drop p₁.at_ = (b :: data).drop n ++ rest := by
        rw [hat, ← List.drop_drop, hnext, List.drop_append_of_le_length hn]
      have hfewer : ((b :: data).drop n).length ≤ turns := by
        rw [List.length_drop]
        omega
      obtain ⟨p₂, whole₂, hrounds, h₂, hat₂, hlen₂, hnew₂⟩ := ih h₁ (by rwa [hlen]) hfewer hleft
      refine ⟨p₂, whole₂, ?_, h₂, ?_, by rw [hlen₂, hlen], by rw [hnew₂, hnew]⟩
      · rw [Pieced.rounds, hround]
        exact hrounds
      · rw [hat₂, hat, List.length_drop]
        omega

/-- So is one after another. -/
theorem updates (h : Fed hash file p whole) (hfile : file.length < 2 ^ 63) (hword : p.len ≤ wordMax)
    {buffers : List (List UInt8)} (hnext : file.drop p.at_ = buffers.flatten) :
    ∃ p' whole', buffers.foldlM (Pieced.update hash) p = .ok p' ∧ Fed hash file p' whole' ∧
      p'.at_ = p.at_ + buffers.flatten.length ∧ p'.len = p.len ∧ p'.new = p.new := by
  induction buffers generalizing p whole with
  | nil => exact ⟨p, whole, rfl, h, rfl, rfl, rfl⟩
  | cons data buffers ih =>
    rw [List.flatten_cons] at hnext
    obtain ⟨p₁, whole₁, hupdate, h₁, hat, hlen, hnew⟩ := h.rounds hfile hword (Nat.le_refl data.length) hnext
    have hleft : file.drop p₁.at_ = buffers.flatten := by
      rw [hat, ← List.drop_drop, hnext, List.drop_left]
    obtain ⟨p₂, whole₂, hall, h₂, hat₂, hlen₂, hnew₂⟩ := ih h₁ (by rwa [hlen]) hleft
    refine ⟨p₂, whole₂, ?_, h₂, ?_, by rw [hlen₂, hlen], by rw [hnew₂, hnew]⟩
    · rw [List.foldlM_cons]
      show (Pieced.rounds hash data.length p data >>= _) = _
      rw [hupdate]
      exact hall
    · rw [hat₂, hat, List.flatten_cons, List.length_append, Nat.add_assoc]

/-- At the end all pieces are whole. -/
theorem finish (h : Fed hash file p whole) (hend : p.at_ = file.length) :
    p.finish hash = pieceDigests hash p.new p.len file := by
  have hlen := p.len_pos
  have hall : whole = pieceCount p.len file.length := by
    rcases h.place with ⟨-, hat⟩ | ⟨-, -, hlt⟩
    · have hnot : ¬whole < pieceCount p.len file.length := by
        rw [lt_pieceCount hlen]
        omega
      exact Nat.le_antisymm h.le (Nat.le_of_not_lt hnot)
    · omega
  rw [Pieced.finish, pieceDigests, h.size]
  split
  next hempty =>
    obtain rfl := List.length_eq_zero_iff.mp hempty
    have hnone : pieceCount p.len ([] : List UInt8).length = 0 := by
      rw [pieceCount, List.length_nil, Nat.zero_add]
      exact Nat.div_eq_of_lt (Nat.sub_lt hlen Nat.zero_lt_one)
    have hone : List.range (max 1 0) = [0] := rfl
    rw [h.done, hall, hnone, hone, List.range_zero, List.map_nil, List.nil_append, List.map_singleton, pieceDigest, pieceOf,
      Nat.zero_mul, List.drop_zero, List.take_nil, hash.update_nil]
  next hsome =>
    have hone : 0 < pieceCount p.len file.length := by
      rw [lt_pieceCount hlen, Nat.zero_mul]
      exact Nat.pos_of_ne_zero hsome
    rw [h.done, hall, Nat.max_eq_right hone]

end Fed

/-- The digests are the pieces' own, however the file is cut into buffers. -/
theorem digests_of_buffers (hash : Hashing H D) (new : Nat → H) {file : List UInt8} (hfile : file.length < 2 ^ 63)
    {len : Nat} (hword : len ≤ wordMax) {buffers : List (List UInt8)} (hcut : buffers.flatten = file) :
    ∃ p, buffers.foldlM (Pieced.update hash) (Pieced.start len file.length new) = .ok p ∧
      p.finish hash = pieceDigests hash new (max len 1) file := by
  have hlen : (Pieced.start len file.length new : Pieced H D).len ≤ wordMax := Nat.max_le.mpr ⟨hword, by decide⟩
  have hall : file.drop (Pieced.start len file.length new : Pieced H D).at_ = buffers.flatten := hcut.symm
  obtain ⟨p, whole, hrun, hfed, hat, hplen, hpnew⟩ := (Fed.start hash file len new).updates hfile hlen hall
  refine ⟨p, hrun, ?_⟩
  have hend : p.at_ = file.length := by
    rw [hat, hcut]
    exact Nat.zero_add _
  rw [hfed.finish hend, hplen, hpnew]
  rfl

/-! ## One read of a finished file -/

/-- `READ_BLOCK`. -/
def readBlock : Nat := 4 * 1024 * 1024

/-- The blocks a file is read in. -/
def blocks (file : List UInt8) : List (List UInt8) :=
  (List.range (pieceCount readBlock file.length)).map (pieceOf readBlock file)

/-- `format!("{b:02x}")` of each byte. -/
def hex (digest : List UInt8) : Text := digest.flatMap fun b => [Nat.digitChar (b.toNat / 16), Nat.digitChar (b.toNat % 16)]

/-- `is_ascii_hexdigit`. -/
def isHexDigit (c : Char) : Bool := c.isDigit || ('a' ≤ c && c ≤ 'f') || ('A' ≤ c && c ≤ 'F')

/-- A metalink's `Pieces`. -/
structure Pieces where
  length : Nat
  algo : Text
  /-- Each piece's hash in file order, lowercase hex. -/
  hashes : List Text
  length_le : length ≤ wordMax

/-- `Pieces::fit`. -/
def Pieces.fit (m : Pieces) (size : Nat) : Bool :=
  let hexLen := if m.algo = "sha256".toList then 64 else 40
  0 < m.length && m.hashes.length == pieceCount m.length size &&
    m.hashes.all fun h => (Utf8.encode h).length == hexLen && h.all isHexDigit

structure Pass where
  published : Option Text
  bad : List ByteRange
  blake3 : List (List UInt8)
  deriving DecidableEq

section ReadPass

variable (hash : Hashing H (List UInt8))

/-- The digests of a file, read block by block. -/
def readDigests (new : Nat → H) (len : Nat) (file : List UInt8) : Checked Empty (List (List UInt8)) := do
  let p ← (blocks file).foldlM (Pieced.update hash) (Pieced.start len file.length new)
  pure (p.finish hash)

/-- The ranges of the pieces, from piece `i` on, whose digest is not the one expected. -/
def badFrom (len size : Nat) : Nat → List (List UInt8 × Text) → Checked Empty (List ByteRange)
  | _, [] => .ok []
  | i, (digest, expected) :: rest =>
    if hex digest = expected then badFrom len size (i + 1) rest
    else do
      let start ← mulWord i len
      let room ← sub size start
      let bad ← badFrom len size (i + 1) rest
      pure ((ByteRange.fromLen start (min len room)).toOption.toList ++ bad)

/-- `read_pass` of a file that is read without an error; `flat` gives the hashers of an
algorithm and `tree` BLAKE3's for a piece at some place. -/
def readPass (flat : Text → Option (Nat → H)) (tree : Nat → H) (file : List UInt8) (published : Option Text)
    (metalink : Option Pieces) (piece : Option Nat) : Checked Empty Pass :=
  let wholeAlgo := (published.bind (splitOnce ':')).bind fun cut => flat cut.1
  if wholeAlgo.isNone && metalink.isNone && piece.isNone then .ok ⟨none, [], []⟩
  else do
    let size := file.length
    let whole ← wholeAlgo.mapM fun new => readDigests hash new size file
    let metalink := metalink.filter fun m => m.fit size
    let pieces ← (metalink.bind fun m => flat m.algo).mapM fun new =>
      readDigests hash new ((metalink.map Pieces.length).getD 0) file
    let blake ← (piece.filter (· < size)).mapM fun p => readDigests hash tree p file
    let bad ←
      match pieces, metalink with
      | some pieces, some m => badFrom m.length size 0 (pieces.zip m.hashes)
      | _, _ => .ok []
    pure {
      published := whole.bind fun digests => digests.head?.map hex
      bad
      blake3 := (blake.getD []).map fun d => if d.length = 32 then d else List.replicate 32 0 }

/-! ## What it reports -/

/-- The bytes of a piece in the file. -/
def pieceRange (len size i : Nat) : ByteRange := ⟨i * len, min ((i + 1) * len) size - 1⟩

/-- The hash listed for piece `i` is this digest. -/
def Pieces.lists (m : Pieces) (i : Nat) (digest : List UInt8) : Bool := m.hashes[i]? == some (hex digest)

/-- The ranges of the pieces of `file` whose digest is not the one listed. -/
def Pieces.wrong (m : Pieces) (new : Nat → H) (file : List UInt8) : List ByteRange :=
  ((List.range m.hashes.length).filter fun i => !m.lists i (pieceDigest hash new m.length file i)).map
    (pieceRange m.length file.length)

/-- The hashes that a file of this size is compared with. -/
def comparedWith (flat : Text → Option (Nat → H)) (size : Nat) (metalink : Option Pieces) : Option (Pieces × (Nat → H)) :=
  (metalink.filter fun m => m.fit size).bind fun m => (flat m.algo).map fun new => (m, new)

variable {hash} {file : List UInt8}

theorem flatten_blocks (file : List UInt8) : (blocks file).flatten = file := by
  rw [blocks, flatten_pieces]
  refine List.take_of_length_le ?_
  have hcount := @lt_pieceCount readBlock file.length (pieceCount readBlock file.length) (by decide)
  exact Nat.le_of_not_lt fun h => Nat.lt_irrefl _ (hcount.mpr h)

theorem readDigests_eq (hfile : file.length < 2 ^ 63) {len : Nat} (hword : len ≤ wordMax) (new : Nat → H) :
    readDigests hash new len file = .ok (pieceDigests hash new (max len 1) file) := by
  obtain ⟨p, hrun, hfinish⟩ := digests_of_buffers hash new hfile hword (flatten_blocks file)
  rw [readDigests, hrun, ok_bind, hfinish]
  rfl

theorem fromLen_piece {len size i : Nat} (hlen : 0 < len) (hi : i * len < size) (hsize : size < 2 ^ 63) :
    ByteRange.fromLen (i * len) (min len (size - i * len)) = .ok (pieceRange len size i) := by
  have hword : u64Max = 2 ^ 64 - 1 := rfl
  have hnext : (i + 1) * len = i * len + len := Nat.add_one_mul i len
  rw [ByteRange.fromLen_eq_ok (by omega) (by omega), pieceRange]
  congr 2
  omega

theorem badFrom_eq {len size : Nat} (hlen : 0 < len) (hsize : size < 2 ^ 63) (digest : Nat → List UInt8)
    (expected : Nat → Text) {i n : Nat} (hn : i + n ≤ pieceCount len size) :
    badFrom len size i ((List.range' i n).map fun j => (digest j, expected j)) =
      .ok (((List.range' i n).filter fun j => !(expected j == hex (digest j))).map (pieceRange len size)) := by
  induction n generalizing i with
  | zero => rfl
  | succ n ih =>
    have hi : i * len < size := (lt_pieceCount hlen).mp (by omega)
    rw [List.range'_succ, List.map_cons, badFrom, ih (by omega), List.filter_cons]
    by_cases hsame : hex (digest i) = expected i
    · rw [if_pos hsame, hsame, beq_self_eq_true]
      rfl
    · have hmul : mulWord i len = .ok (i * len) := if_pos (by unfold wordMax; omega)
      have hsub : (sub size (i * len) : Checked Empty Nat) = .ok (size - i * len) := sub_eq (Nat.le_of_lt hi)
      have hdiffers : (expected i == hex (digest i)) = false := beq_false_of_ne (Ne.symm hsame)
      rw [if_neg hsame, hmul, ok_bind, hsub, ok_bind, ok_bind, fromLen_piece hlen hi hsize, hdiffers]
      rfl

/-- Comparing the digests with the hashes finds the wrong pieces. -/
theorem badFrom_digests {m : Pieces} (hfit : m.fit file.length = true) (hfile : file.length < 2 ^ 63) (new : Nat → H) :
    badFrom m.length file.length 0 ((pieceDigests hash new (max m.length 1) file).zip m.hashes) =
      .ok (m.wrong hash new file) := by
  simp only [Pieces.fit, Bool.and_eq_true, decide_eq_true_eq, beq_iff_eq] at hfit
  obtain ⟨⟨hlen, hcount⟩, -⟩ := hfit
  have hmax : max m.length 1 = m.length := Nat.max_eq_left hlen
  have hhashes : m.hashes = (List.range m.hashes.length).map fun i => m.hashes.getD i [] := by
    refine List.ext_getElem (by simp) fun i hi _ => ?_
    simp [List.getElem?_eq_getElem hi]
  have hzip : (pieceDigests hash new m.length file).zip m.hashes =
      (List.range' 0 m.hashes.length).map fun i => (pieceDigest hash new m.length file i, m.hashes.getD i []) := by
    rw [pieceDigests, ← hcount, ← List.range_eq_range']
    cases hnone : m.hashes with
    | nil => rfl
    | cons h hashes =>
      rw [← hnone]
      have hone : max 1 m.hashes.length = m.hashes.length := Nat.max_eq_right (by simp [hnone])
      conv_lhs => rw [hone, hhashes]
      rw [List.length_map, List.length_range, List.zip_map']
  rw [hmax, hzip, badFrom_eq hlen hfile _ _ (by omega), Pieces.wrong, ← List.range_eq_range']
  congr 2
  refine List.filter_congr fun i hi => ?_
  have hget : m.hashes[i]? = some (m.hashes.getD i []) := by
    simp [List.getElem?_eq_getElem (List.mem_range.mp hi)]
  rw [Pieces.lists, hget, Option.some_beq_some]

theorem wrong_spec {m : Pieces} (hfit : m.fit file.length = true) (new : Nat → H) :
    ((m.wrong hash new file).Pairwise fun a b => a.end_ < b.start) ∧
      ∀ r ∈ m.wrong hash new file, r.start ≤ r.end_ ∧ r.end_ < file.length := by
  simp only [Pieces.fit, Bool.and_eq_true, decide_eq_true_eq, beq_iff_eq] at hfit
  obtain ⟨⟨hlen, hcount⟩, -⟩ := hfit
  have hin (i : Nat) (hi : i ∈ List.range m.hashes.length) : i * m.length < file.length := by
    rw [List.mem_range, hcount] at hi
    exact (lt_pieceCount hlen).mp hi
  constructor
  · refine List.pairwise_map.mpr (List.Pairwise.filter _ ?_)
    refine List.pairwise_lt_range.imp_of_mem fun {i j} hi hj hij => ?_
    have hnext : (i + 1) * m.length ≤ j * m.length := Nat.mul_le_mul_right m.length hij
    have hi' := hin i hi
    have hstop : (i + 1) * m.length = i * m.length + m.length := Nat.add_one_mul i m.length
    show min ((i + 1) * m.length) file.length - 1 < j * m.length
    omega
  · intro r hr
    obtain ⟨i, hi, rfl⟩ := List.mem_map.mp hr
    have hi' := hin i (List.mem_of_mem_filter hi)
    have hstop : (i + 1) * m.length = i * m.length + m.length := Nat.add_one_mul i m.length
    show i * m.length ≤ min ((i + 1) * m.length) file.length - 1 ∧ min ((i + 1) * m.length) file.length - 1 < file.length
    omega

theorem mapM_of_ok {α β : Type} {f : α → Checked Empty β} {g : α → β} {o : Option α} (h : ∀ a, o = some a → f a = .ok (g a)) :
    o.mapM f = .ok (o.map g) := by
  cases o with
  | none => rfl
  | some a =>
    show (some <$> f a) = _
    rw [h a rfl]
    rfl

theorem mapM_readDigests (hfile : file.length < 2 ^ 63) {len : Nat} (hword : len ≤ wordMax) (o : Option (Nat → H)) :
    o.mapM (fun new => readDigests hash new len file) =
      (.ok (o.map fun new => pieceDigests hash new (max len 1) file) : Checked Empty _) :=
  mapM_of_ok fun new _ => readDigests_eq hfile hword new

theorem readPass_eq (hfile : file.length < 2 ^ 63) (flat : Text → Option (Nat → H)) (tree : Nat → H)
    (published : Option Text) (metalink : Option Pieces) (piece : Option Nat) :
    ∃ pass, readPass hash flat tree file published metalink piece = .ok pass ∧
      pass.bad = (comparedWith flat file.length metalink).elim [] fun c => c.1.wrong hash c.2 file := by
  have hsize : file.length ≤ wordMax := by
    unfold wordMax
    omega
  simp only [readPass]
  split
  next hnothing =>
    have hnone : metalink = none := by
      simp only [Bool.and_eq_true, Option.isNone_iff_eq_none] at hnothing
      exact hnothing.1.2
    refine ⟨⟨none, [], []⟩, rfl, ?_⟩
    rw [hnone]
    rfl
  next =>
    have hpiece : (piece.filter (· < file.length)).mapM (fun p => readDigests hash tree p file) =
        (.ok ((piece.filter (· < file.length)).map fun p => pieceDigests hash tree (max p 1) file) : Checked Empty _) := by
      refine mapM_of_ok fun p hfilter => readDigests_eq hfile ?_ tree
      have hp : p < file.length := by simpa using (Option.filter_eq_some_iff.mp hfilter).2
      omega
    simp only [mapM_readDigests hfile hsize, ok_bind, hpiece]
    cases hm : metalink.filter fun m => m.fit file.length with
    | none =>
      refine ⟨_, rfl, ?_⟩
      rw [comparedWith, hm]
      rfl
    | some m =>
      have hfit : m.fit file.length = true := (Option.filter_eq_some_iff.mp hm).2
      simp only [Option.bind_some, Option.map_some, Option.getD_some, mapM_readDigests hfile m.length_le, ok_bind]
      cases hflat : flat m.algo with
      | none =>
        refine ⟨_, rfl, ?_⟩
        rw [comparedWith, hm, Option.bind_some, hflat]
        rfl
      | some new =>
        simp only [Option.map_some, badFrom_digests hfit hfile new, ok_bind]
        refine ⟨_, rfl, ?_⟩
        rw [comparedWith, hm, Option.bind_some, hflat]
        rfl

end ReadPass

/-- Piece hashes do not depend on how the file is read, and exactly the pieces that differ
from a metalink's are reported. -/
theorem piece_hashes_of_content (hash : Hashing H (List UInt8)) {file : List UInt8} (hfile : file.length < 2 ^ 63) :
    (∀ (new : Nat → H) (len : Nat) (buffers : List (List UInt8)), 1 ≤ len → len ≤ wordMax → buffers.flatten = file →
      ∃ p, buffers.foldlM (Pieced.update hash) (Pieced.start len file.length new) = .ok p ∧
        p.finish hash = pieceDigests hash new len file) ∧
      ∀ flat tree published metalink piece, ∃ pass,
        readPass hash flat tree file published metalink piece = .ok pass ∧
          (pass.bad = (comparedWith flat file.length metalink).elim [] fun c => c.1.wrong hash c.2 file) ∧
          (pass.bad.Pairwise fun a b => a.end_ < b.start) ∧ ∀ r ∈ pass.bad, r.start ≤ r.end_ ∧ r.end_ < file.length := by
  constructor
  · intro new len buffers hlen hword hcut
    obtain ⟨p, hrun, hfinish⟩ := digests_of_buffers hash new hfile hword hcut
    rw [Nat.max_eq_left hlen] at hfinish
    exact ⟨p, hrun, hfinish⟩
  · intro flat tree published metalink piece
    obtain ⟨pass, hpass, hbad⟩ := readPass_eq hfile flat tree published metalink piece
    refine ⟨pass, hpass, hbad, ?_⟩
    rw [hbad]
    cases hcompared : comparedWith flat file.length metalink with
    | none => exact ⟨List.Pairwise.nil, fun r hr => absurd hr List.not_mem_nil⟩
    | some c =>
      obtain ⟨m, new⟩ := c
      obtain ⟨m', hm, hnew⟩ := Option.bind_eq_some_iff.mp hcompared
      obtain ⟨new', -, hpair⟩ := Option.map_eq_some_iff.mp hnew
      obtain ⟨rfl, rfl⟩ := Prod.mk.inj hpair
      exact wrong_spec (Option.filter_eq_some_iff.mp hm).2 new'

/-- SHA-1, as far as two short pieces need it. -/
def sha1 : Hashing (List UInt8) (List UInt8) where
  update fed data := fed ++ data
  finish fed :=
    if fed = [0x61, 0x62] then
      [218, 35, 97, 78, 2, 70, 154, 13, 124, 123, 209, 189, 171, 92, 156, 71, 75, 25, 4, 220]
    else if fed = [0x63] then
      [132, 165, 22, 132, 27, 167, 122, 91, 70, 72, 222, 44, 208, 223, 203, 48, 234, 70, 219, 180]
    else []
  update_update := List.append_assoc
  update_nil := List.append_nil

/-- A metalink of a file of three bytes, whose second piece is another. -/
def abcPieces : Pieces where
  length := 2
  algo := "sha1".toList
  hashes := ["da23614e02469a0d7c7bd1bdab5c9c474b1904dc".toList, "3c363836cf4e16666669a25da280a1865c2d2874".toList]
  length_le := by decide

theorem piece_hashes_of_abc :
    (∃ p, [[0x61], [], [0x62, 0x63]].foldlM (Pieced.update sha1) (Pieced.start 2 3 fun _ => []) = .ok p ∧
        p.finish sha1 = pieceDigests sha1 (fun _ => []) 2 [0x61, 0x62, 0x63]) ∧
      ∃ pass, readPass sha1 (fun _ => some fun _ => []) (fun _ => []) [0x61, 0x62, 0x63] none (some abcPieces) none = .ok pass ∧
        pass.bad = [⟨2, 2⟩] := by
  have hpieces := @piece_hashes_of_content _ sha1 [0x61, 0x62, 0x63] (by decide)
  refine ⟨hpieces.1 (fun _ => []) 2 [[0x61], [], [0x62, 0x63]] (by decide) (by decide) rfl, ?_⟩
  obtain ⟨pass, hpass, hbad, -⟩ := hpieces.2 (fun _ => some fun _ => []) (fun _ => []) none (some abcPieces) none
  refine ⟨pass, hpass, hbad.trans ?_⟩
  decide +kernel

end Hyperfetch.Storage
