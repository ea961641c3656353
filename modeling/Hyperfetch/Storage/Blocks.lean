import Hyperfetch.Weft.Pieces
import Hyperfetch.Weft.TreeHash
import Mathlib.Tactic

/-!
# The blocks of a file being written (`storage.rs`)

A writer cuts its file into blocks, each a subtree of the file's hash tree,
and keeps of each what it hashed. Here are the layout, the written ranges and
what one write into a block goes on from. BLAKE3's compressions and the other
digests are any functions of their bytes.
-/

namespace Hyperfetch

open Weft

namespace Storage

/-- What of a writer does not change: the file's size, how many leaves a block
has, as a power of two, the tree hash and the other digests a checksum may
need, by algorithm. -/
structure Layout (D X H : Type) where
  size : Nat
  level : Nat
  tree : TreeHash UInt8 D
  other : X → List UInt8 → H

variable {D X H : Type}

namespace Layout

variable (L : Layout D X H)

/-- Bytes per block. -/
def block : Nat := L.tree.width L.level

def blocks : Nat := (L.size + L.block - 1) / L.block

/-- Where block `i` starts, and where it ends. -/
def start (i : Nat) : Nat := i * L.block

def stop (i : Nat) : Nat := min (L.start i + L.block) L.size

/-- Hash of block `i`, which holds `data`: its chaining value, or the file's
hash when it is the only block. -/
def hashBlock (i : Nat) (data : List UInt8) : D :=
  if L.size ≤ L.block then L.tree.hash data else L.tree.value (i * 2 ^ L.level) data

/-- Merges the hashes of a file's blocks, in order, into the file's hash. -/
def merge : List D → D
  | [] => L.tree.hash []
  | [only] => only
  | level =>
    match L.tree.joinToTwo level with
    | left :: right :: _ => L.tree.nodeRoot left right
    | _ => L.tree.hash []

theorem merge_of_two (a b : D) (rest : List D) :
    L.merge (a :: b :: rest) =
      match L.tree.joinToTwo (a :: b :: rest) with
      | left :: right :: _ => L.tree.nodeRoot left right
      | _ => L.tree.hash [] := rfl

theorem block_pos : 0 < L.block := L.tree.width_pos L.level

end Layout

/-! ## Written ranges

Sorted, disjoint and not touching; a range is its start and its end. -/

/-- How many ranges from the first on satisfy `p`. -/
def partitionPoint (set : List (Nat × Nat)) (p : Nat × Nat → Bool) : Nat := (set.takeWhile p).length

/-- End of the written prefix of the file. -/
def writtenPrefix (written : List (Nat × Nat)) : Nat :=
  ((written.head?.filter fun r => r.1 == 0).map Prod.snd).getD 0

/-- Adds a range, merging whatever it touches. -/
def add (set : List (Nat × Nat)) (range : Nat × Nat) : List (Nat × Nat) :=
  let first := partitionPoint set fun r => decide (r.2 < range.1)
  let last := partitionPoint set fun r => decide (r.1 ≤ range.2)
  let merged := if first < last then
      (min range.1 (set.getD first (0, 0)).1, max range.2 (set.getD (last - 1) (0, 0)).2)
    else range
  set.take first ++ merged :: set.drop last

/-- Whether the set covers all of a range. -/
def covers (set : List (Nat × Nat)) (start stop : Nat) : Bool :=
  let i := partitionPoint set fun r => decide (r.1 ≤ start)
  decide (0 < i ∧ stop ≤ (set.getD (i - 1) (0, 0)).2)

theorem writtenPrefix_le {written : List (Nat × Nat)} {n : Nat} (h : ∀ r ∈ written, r.2 ≤ n) :
    writtenPrefix written ≤ n := by
  unfold writtenPrefix
  cases written with
  | nil => exact Nat.zero_le _
  | cons r rest =>
    rw [List.head?_cons]
    by_cases hstart : (r.1 == 0) = true
    · rw [Option.filter_some, if_pos hstart]
      exact h r List.mem_cons_self
    · rw [Option.filter_some, if_neg hstart]
      exact Nat.zero_le _

/-- Adding a range within the file leaves all of them there. -/
theorem add_le {set : List (Nat × Nat)} {range : Nat × Nat} {n : Nat} (h : ∀ r ∈ set, r.2 ≤ n)
    (hrange : range.2 ≤ n) : ∀ r ∈ add set range, r.2 ≤ n := by
  have hget : ∀ i, (set.getD i (0, 0)).2 ≤ n := by
    intro i
    rw [List.getD_eq_getElem?_getD]
    cases hi : set[i]? with
    | none => exact Nat.zero_le _
    | some r => exact h r (List.mem_of_getElem? hi)
  intro r hr
  unfold add at hr
  simp only [List.mem_append, List.mem_cons] at hr
  rcases hr with hr | rfl | hr
  · exact h r (List.mem_of_mem_take hr)
  · split
    · exact max_le hrange (hget _)
    · exact hrange
  · exact h r (List.mem_of_mem_drop hr)

/-! ## What is known of a block -/

/-- A block's first bytes, fed to a hasher, and where in the file they end. -/
structure Head where
  bytes : List UInt8
  end_ : Nat
  deriving DecidableEq, Repr

/-- `version` counts the writes into the block. The code keeps it in 32 bits,
which is what versions are compared by (`sameVersion`). -/
structure Block (D : Type) where
  version : Nat := 0
  hash : Option D := none
  hashing : Bool := false
  head : Option Head := none

def sameVersion (a b : Nat) : Bool := a % 2 ^ 32 == b % 2 ^ 32

/-- A block a write went into, as the write left it and what it took. -/
structure Touched where
  block : Nat
  version : Nat
  complete : Bool
  head : Option Head
  deriving DecidableEq, Repr

/-- Of the head taken from the block, what the write goes on from: nothing if
it rewrites some of it. -/
def Touched.base (L : Layout D X H) (t : Touched) (offset : Nat) : Head :=
  match t.head.filter fun head => decide (head.end_ ≤ max offset (L.start t.block)) with
  | some head => head
  | none => ⟨[], L.start t.block⟩

/-- The block's first bytes hashed once the write fed its own, if they come
next. -/
def Touched.goOn (L : Layout D X H) (t : Touched) (offset : Nat) (data : List UInt8) : Head :=
  let base := t.base L offset
  let pieceStart := max offset (L.start t.block)
  let pieceEnd := min (offset + data.length) (L.stop t.block)
  if base.end_ = pieceStart then
    ⟨base.bytes ++ slice data ⟨pieceStart - offset, pieceEnd - pieceStart⟩, pieceEnd⟩
  else base

end Storage

end Hyperfetch
