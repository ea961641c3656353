import Mathlib.Tactic

/-!
# Working on a sequence piece by piece

A piece is a place and a length; `slice` reads one and `splice` writes one.
Pieces that tile a sequence are worked on in any order: `foldl_splice_slices`
rebuilds a sequence from its slices, and `foldl_inPlace_mask` carries a
transformation that acts on each place on its own (`mask`) over the sequence.
-/

namespace Weft

variable {α κ : Type*}

structure Piece where
  start : Nat
  len : Nat
  deriving DecidableEq, Repr

def Piece.Holds (p : Piece) (b : Nat) : Prop := p.start ≤ b ∧ b < p.start + p.len

instance (p : Piece) (b : Nat) : Decidable (p.Holds b) := inferInstanceAs (Decidable (_ ∧ _))

/-- How many of the pieces hold place `b`. -/
def cuts (ps : List Piece) (b : Nat) : Nat := ps.countP fun p => p.Holds b

/-- Every place below `n` is in exactly one piece, and no piece reaches past
`n`. The pieces may come in any order, empty ones among them. -/
structure Tiles (n : Nat) (ps : List Piece) : Prop where
  within : ∀ p ∈ ps, p.start + p.len ≤ n
  once : ∀ b < n, cuts ps b = 1

/-- The symbols of a sequence a piece holds, fewer where the sequence ends. -/
def slice (xs : List α) (p : Piece) : List α := (xs.drop p.start).take p.len

/-- The sequence with `data` in place of the symbols from `start` on. -/
def splice (xs : List α) (start : Nat) (data : List α) : List α :=
  xs.take start ++ data ++ xs.drop (start + data.length)

/-- Rewrites one piece with what `f` makes of it there. -/
def inPlace (f : Nat → List α → List α) (xs : List α) (p : Piece) : List α :=
  splice xs p.start (f p.start (slice xs p))

/-- Combines each symbol with the stream's at its place, the first at `n`. -/
def mask (op : α → κ → α) (stream : Nat → κ) (n : Nat) (data : List α) : List α :=
  data.mapIdx fun i x => op x (stream (n + i))

/-! ## Slices and splices -/

theorem cuts_cons (p : Piece) (ps : List Piece) (b : Nat) :
    cuts (p :: ps) b = cuts ps b + if p.Holds b then 1 else 0 := by
  simp [cuts, List.countP_cons]

theorem getElem?_slice (xs : List α) (p : Piece) (i : Nat) :
    (slice xs p)[i]? = if i < p.len then xs[p.start + i]? else none := by
  rw [slice, List.getElem?_take]
  split
  · rw [List.getElem?_drop]
  · rfl

theorem length_slice {xs : List α} {p : Piece} (h : p.start + p.len ≤ xs.length) :
    (slice xs p).length = p.len := by
  rw [slice, List.length_take, List.length_drop]
  omega

theorem length_splice {xs data : List α} {start : Nat} (h : start + data.length ≤ xs.length) :
    (splice xs start data).length = xs.length := by
  simp only [splice, List.length_append, List.length_take, List.length_drop]
  omega

theorem getElem?_splice {xs data : List α} {start : Nat} (h : start + data.length ≤ xs.length) (b : Nat) :
    (splice xs start data)[b]? =
      if (Piece.mk start data.length).Holds b then data[b - start]? else xs[b]? := by
  have htake : (xs.take start).length = start := by rw [List.length_take]; omega
  unfold splice
  by_cases hlo : start ≤ b
  · rw [List.append_assoc, List.getElem?_append_right (by omega), htake]
    by_cases hhi : b < start + data.length
    · rw [List.getElem?_append_left (by omega), if_pos ⟨hlo, hhi⟩]
    · rw [List.getElem?_append_right (by omega), if_neg (fun hin => hhi hin.2), List.getElem?_drop]
      congr 1
      omega
  · rw [List.append_assoc, List.getElem?_append_left (by omega), if_neg (fun hin => hlo hin.1),
      List.getElem?_take, if_pos (by omega)]

/-- A slice of a sequence as long, spliced in where it was, brings its
symbols, also where it reaches past the end. -/
theorem getElem?_splice_slice {xs source : List α} (hlen : xs.length = source.length) (p : Piece) (b : Nat) :
    (splice xs p.start (slice source p))[b]? = if p.Holds b then source[b]? else xs[b]? := by
  by_cases hstart : p.start ≤ source.length
  · have hslice : (slice source p).length = min p.len (source.length - p.start) := by
      rw [slice, List.length_take, List.length_drop]
    rw [getElem?_splice (by omega), hslice]
    by_cases hb : p.Holds b
    · obtain ⟨hlo, hhi⟩ := hb
      by_cases hend : b < source.length
      · rw [if_pos ⟨hlo, by dsimp only; omega⟩, if_pos ⟨hlo, hhi⟩, getElem?_slice, if_pos (by omega),
          Nat.add_sub_cancel' hlo]
      · rw [if_neg fun hin => hend (by have := hin.2; dsimp only at this; omega), if_pos ⟨hlo, hhi⟩,
          List.getElem?_eq_none (by omega), List.getElem?_eq_none (by omega)]
    · rw [if_neg fun hin => hb ⟨hin.1, by have := hin.2; dsimp only at this; omega⟩, if_neg hb]
  · have hnone : slice source p = [] := by
      rw [slice, List.drop_eq_nil_of_le (by omega), List.take_nil]
    have hsame : splice xs p.start (slice source p) = xs := by
      rw [hnone, splice, List.append_nil, List.length_nil, Nat.add_zero, List.take_append_drop]
    rw [hsame]
    split
    · rename_i hb
      have := hb.1
      rw [List.getElem?_eq_none (by omega), List.getElem?_eq_none (by omega)]
    · rfl

theorem length_splice_slice {xs source : List α} (hlen : xs.length = source.length) (p : Piece) :
    (splice xs p.start (slice source p)).length = source.length := by
  simp only [splice, slice, List.length_append, List.length_take, List.length_drop]
  omega

/-- Splicing slices of one sequence into another leaves, at each place, its
symbol if some slice held the place, whatever the order of the slices. -/
theorem getElem?_foldl_splice {xs : List α} {ps : List Piece} {ys : List α}
    (hlen : ys.length = xs.length) (hin : ∀ p ∈ ps, p.start + p.len ≤ xs.length) (b : Nat) :
    (ps.foldl (fun acc p => splice acc p.start (slice xs p)) ys)[b]? =
      if 0 < cuts ps b then xs[b]? else ys[b]? := by
  induction ps generalizing ys with
  | nil => rfl
  | cons p ps ih =>
    have hp := hin p List.mem_cons_self
    have hslice := length_slice hp
    have hfit : p.start + (slice xs p).length ≤ ys.length := by omega
    rw [List.foldl_cons, ih ((length_splice hfit).trans hlen) (fun q hq => hin q (List.mem_cons_of_mem _ hq)),
      getElem?_splice hfit, cuts_cons, hslice]
    by_cases hb : p.Holds b
    · have hplace : (slice xs p)[b - p.start]? = xs[b]? := by
        rw [getElem?_slice, if_pos (by obtain ⟨_, _⟩ := hb; omega), Nat.add_sub_cancel' hb.1]
      rw [if_pos hb, if_pos hb, hplace, if_pos (Nat.succ_pos _), ite_self]
    · rw [if_neg hb, if_neg hb, Nat.add_zero]

/-- The slices of a tiling rebuild the sequence. -/
theorem foldl_splice_slices {xs ys : List α} {ps : List Piece} (hlen : ys.length = xs.length)
    (htiles : Tiles xs.length ps) :
    ps.foldl (fun acc p => splice acc p.start (slice xs p)) ys = xs := by
  apply List.ext_getElem?
  intro b
  rw [getElem?_foldl_splice hlen htiles.within]
  by_cases hb : b < xs.length
  · rw [htiles.once b hb, if_pos Nat.one_pos]
  · rw [List.getElem?_eq_none (by omega), List.getElem?_eq_none (by omega), ite_self]

/-! ## Masks -/

variable (op : α → κ → α) (stream : Nat → κ)

@[simp] theorem length_mask (n : Nat) (data : List α) : (mask op stream n data).length = data.length := by
  simp [mask]

theorem getElem?_mask (n : Nat) (data : List α) (i : Nat) :
    (mask op stream n data)[i]? = data[i]?.map fun x => op x (stream (n + i)) := by
  simp [mask]

/-- Masking a piece where it stands is a piece of the whole masked. -/
theorem mask_slice (xs : List α) (p : Piece) :
    mask op stream p.start (slice xs p) = slice (mask op stream 0 xs) p := by
  apply List.ext_getElem?
  intro i
  rw [getElem?_mask, getElem?_slice, getElem?_slice, getElem?_mask, Nat.zero_add]
  split <;> rfl

theorem mask_append (n : Nat) (front back : List α) :
    mask op stream n (front ++ back) = mask op stream n front ++ mask op stream (n + front.length) back := by
  unfold mask
  rw [List.mapIdx_append]
  simp only [Nat.add_assoc, Nat.add_comm front.length]

theorem mask_mask (hop : ∀ x k, op (op x k) k = x) (n : Nat) (data : List α) :
    mask op stream n (mask op stream n data) = data := by
  apply List.ext_getElem?
  intro i
  rw [getElem?_mask, getElem?_mask, Option.map_map]
  cases data[i]? with
  | none => rfl
  | some x => exact congrArg some (hop x _)

/-- Masking pieces in place masks each place once for each piece it is in. -/
theorem getElem?_foldl_mask {ps : List Piece} {xs : List α}
    (hin : ∀ p ∈ ps, p.start + p.len ≤ xs.length) (b : Nat) :
    (ps.foldl (inPlace (mask op stream)) xs)[b]? =
      xs[b]?.map (fun x => op x (stream b))^[cuts ps b] := by
  induction ps generalizing xs with
  | nil => cases h : xs[b]? <;> simp [cuts, h]
  | cons p ps ih =>
    have hp := hin p List.mem_cons_self
    have hpiece : (mask op stream p.start (slice xs p)).length = p.len := by
      rw [length_mask, length_slice hp]
    have hfit : p.start + (mask op stream p.start (slice xs p)).length ≤ xs.length := by omega
    have hlen : (inPlace (mask op stream) xs p).length = xs.length := length_splice hfit
    rw [List.foldl_cons, ih (fun q hq => hlen ▸ hin q (List.mem_cons_of_mem _ hq)), cuts_cons, inPlace,
      getElem?_splice hfit, hpiece]
    by_cases hb : p.Holds b
    · have hplace : p.start + (b - p.start) = b := Nat.add_sub_cancel' hb.1
      rw [if_pos hb, if_pos hb, getElem?_mask, getElem?_slice, if_pos (by obtain ⟨_, _⟩ := hb; omega), hplace,
        Option.map_map, Function.iterate_succ]
    · rw [if_neg hb, if_neg hb, Nat.add_zero]

/-- Masking the pieces of a tiling in place, in any order, masks the whole. -/
theorem foldl_inPlace_mask {ps : List Piece} {xs : List α} (htiles : Tiles xs.length ps) :
    ps.foldl (inPlace (mask op stream)) xs = mask op stream 0 xs := by
  apply List.ext_getElem?
  intro b
  rw [getElem?_foldl_mask op stream htiles.within, getElem?_mask, Nat.zero_add]
  by_cases hb : b < xs.length
  · rw [htiles.once b hb, Function.iterate_one]
  · rw [List.getElem?_eq_none (by omega)]
    rfl

end Weft
