import Mathlib.Tactic

/-!
# Tilings of an initial segment

A list of closed intervals of natural numbers tiles `[0, n)` when every
number below `n` lies in exactly one of them and no other number in any
(`ExactCover`). Counting members makes this indifferent to the list's order,
so splitting or replacing an interval anywhere in the list is arithmetic on
counts. `ExactCover.chain` recovers the picture: sorted by start, the
intervals abut.
-/

namespace Weft

variable {α : Type*} (lo hi : α → Nat)

/-- Whether the interval holds `b`. -/
def holds (b : Nat) (x : α) : Bool := decide (lo x ≤ b) && decide (b ≤ hi x)

/-- How many intervals of `xs` hold `b`. -/
def cover (b : Nat) (xs : List α) : Nat := xs.countP (holds lo hi b)

/-- The intervals abut: the first starts at `a`, each next one just past the
one before, and the last ends just before `b`. -/
def Chain : Nat → Nat → List α → Prop
  | a, b, [] => a = b
  | a, b, x :: xs => lo x = a ∧ lo x ≤ hi x ∧ Chain (hi x + 1) b xs

/-- Every number of `[a, n)` lies in exactly one interval, others in none,
and no interval is empty. -/
structure ExactCover (a n : Nat) (xs : List α) : Prop where
  nonempty : ∀ x ∈ xs, lo x ≤ hi x
  once : ∀ b, cover lo hi b xs = if a ≤ b ∧ b < n then 1 else 0

variable {lo hi}

theorem holds_iff {b : Nat} {x : α} : holds lo hi b x = true ↔ lo x ≤ b ∧ b ≤ hi x := by
  simp [holds]

@[simp] theorem cover_nil (b : Nat) : cover lo hi b [] = 0 := rfl

theorem cover_cons (b : Nat) (x : α) (xs : List α) :
    cover lo hi b (x :: xs) = cover lo hi b xs + if lo x ≤ b ∧ b ≤ hi x then 1 else 0 := by
  simp [cover, List.countP_cons, holds]

@[simp] theorem cover_append (b : Nat) (xs ys : List α) :
    cover lo hi b (xs ++ ys) = cover lo hi b xs + cover lo hi b ys := by
  simp [cover]

theorem cover_singleton (b : Nat) (x : α) :
    cover lo hi b [x] = if lo x ≤ b ∧ b ≤ hi x then 1 else 0 := by
  simp [cover_cons]

theorem cover_perm {xs ys : List α} (h : xs.Perm ys) (b : Nat) :
    cover lo hi b xs = cover lo hi b ys := h.countP_eq _

theorem cover_map {β : Type*} (f : β → α) (b : Nat) (xs : List β) :
    cover lo hi b (xs.map f) = cover (fun x => lo (f x)) (fun x => hi (f x)) b xs := by
  simp only [cover, List.countP_map]
  rfl

theorem cover_pos_iff {b : Nat} {xs : List α} :
    0 < cover lo hi b xs ↔ ∃ x ∈ xs, lo x ≤ b ∧ b ≤ hi x := by
  simp [cover, List.countP_pos_iff, holds]

/-- Replacing the `i`-th interval trades its count for the new one's. -/
theorem cover_set {xs : List α} {i : Nat} {x : α} (hx : xs[i]? = some x) (y : α) (b : Nat) :
    cover lo hi b (xs.set i y) + (if lo x ≤ b ∧ b ≤ hi x then 1 else 0) =
      cover lo hi b xs + if lo y ≤ b ∧ b ≤ hi y then 1 else 0 := by
  obtain ⟨hlt, rfl⟩ := List.getElem?_eq_some_iff.mp hx
  have hmem : holds lo hi b xs[i] = true → 0 < cover lo hi b xs := fun h =>
    List.countP_pos_iff.mpr ⟨xs[i], List.getElem_mem hlt, h⟩
  simp only [cover, List.countP_set hlt, holds_iff] at hmem ⊢
  split_ifs with h1 h2 h2 <;> simp_all

theorem ExactCover.perm {a n : Nat} {xs ys : List α} (hp : xs.Perm ys)
    (h : ExactCover lo hi a n xs) : ExactCover lo hi a n ys :=
  ⟨fun x hx => h.nonempty x (hp.mem_iff.mpr hx), fun b => cover_perm hp b ▸ h.once b⟩

/-- An interval may be replaced by one with the same ends. -/
theorem ExactCover.replace {a n : Nat} {xs : List α} (h : ExactCover lo hi a n xs) {i : Nat}
    {x y : α} (hx : xs[i]? = some x) (hlo : lo y = lo x) (hhi : hi y = hi x) :
    ExactCover lo hi a n (xs.set i y) := by
  refine ⟨fun z hz => ?_, fun b => ?_⟩
  · rcases List.mem_or_eq_of_mem_set hz with hz | rfl
    · exact h.nonempty z hz
    · rw [hlo, hhi]
      exact h.nonempty x (List.mem_of_getElem? hx)
  · have := @cover_set α lo hi xs i x hx y b
    rw [hlo, hhi] at this
    rw [← h.once b]
    omega

/-- An interval may be cut in two, one piece in its place and the other at the
end of the list. -/
theorem ExactCover.split {a n : Nat} {xs : List α} (h : ExactCover lo hi a n xs) {i : Nat}
    {x y z : α} (hx : xs[i]? = some x) (hy : lo y ≤ hi y) (hz : lo z ≤ hi z)
    (hcut : (lo y = lo x ∧ hi y + 1 = lo z ∧ hi z = hi x) ∨
      (lo z = lo x ∧ hi z + 1 = lo y ∧ hi y = hi x)) :
    ExactCover lo hi a n (xs.set i y ++ [z]) := by
  refine ⟨fun v hv => ?_, fun b => ?_⟩
  · rcases List.mem_append.mp hv with hv | hv
    · rcases List.mem_or_eq_of_mem_set hv with hv | rfl
      · exact h.nonempty v hv
      · exact hy
    · exact List.mem_singleton.mp hv ▸ hz
  · have hset := @cover_set α lo hi xs i x hx y b
    rw [cover_append, cover_singleton, ← h.once b]
    split_ifs at hset ⊢ <;> omega

theorem two_le_cover {xs : List α} {i j : Nat} {x y : α} (hij : i < j) (hx : xs[i]? = some x)
    (hy : xs[j]? = some y) {b : Nat} (hbx : lo x ≤ b ∧ b ≤ hi x) (hby : lo y ≤ b ∧ b ≤ hi y) :
    2 ≤ cover lo hi b xs := by
  rw [← List.take_append_drop j xs, cover_append]
  have hbefore : 0 < cover lo hi b (xs.take j) :=
    cover_pos_iff.mpr ⟨x, List.mem_of_getElem? ((List.getElem?_take_of_lt hij).trans hx), hbx⟩
  have hfrom : 0 < cover lo hi b (xs.drop j) :=
    cover_pos_iff.mpr ⟨y, List.mem_of_getElem? (i := 0) (by simpa using hy), hby⟩
  omega

/-- Two entries holding a common number are one and the same. -/
theorem ExactCover.unique {a n : Nat} {xs : List α} (h : ExactCover lo hi a n xs)
    {i j : Nat} {x y : α} (hx : xs[i]? = some x) (hy : xs[j]? = some y) {b : Nat}
    (hbx : lo x ≤ b ∧ b ≤ hi x) (hby : lo y ≤ b ∧ b ≤ hi y) : i = j := by
  have hone : cover lo hi b xs ≤ 1 := by rw [h.once b]; split <;> omega
  rcases Nat.lt_trichotomy i j with hij | hij | hij
  · have := two_le_cover hij hx hy hbx hby; omega
  · exact hij
  · have := two_le_cover hij hy hx hby hbx; omega

/-- An exact cover sorted by start abuts. -/
theorem chain_of_sorted {a n : Nat} {xs : List α} (han : a ≤ n)
    (hsorted : xs.Pairwise (fun x y => lo x ≤ lo y)) (h : ExactCover lo hi a n xs) :
    Chain lo hi a n xs := by
  induction xs generalizing a with
  | nil =>
    have := h.once a
    simp only [cover_nil] at this
    show a = n
    split at this <;> omega
  | cons x xs ih =>
    rw [List.pairwise_cons] at hsorted
    have hne := h.nonempty x List.mem_cons_self
    have hin : ∀ b, lo x ≤ b → b ≤ hi x → a ≤ b ∧ b < n := by
      intro b h1 h2
      have := h.once b
      rw [cover_cons, if_pos ⟨h1, h2⟩] at this
      by_contra hout
      rw [if_neg hout] at this
      omega
    have hstart : lo x = a := by
      by_contra hlo
      have hlt : a < lo x := by have := hin (lo x) le_rfl hne; omega
      -- `a` itself must lie in a later interval, which starts no earlier than `x`
      have hcov : 0 < cover lo hi a xs := by
        have := h.once a
        have hn := hin (lo x) le_rfl hne
        rw [cover_cons, if_neg (by omega), if_pos (by omega)] at this
        omega
      obtain ⟨y, hy, hya, _⟩ := cover_pos_iff.mp hcov
      have := hsorted.1 y hy
      omega
    refine ⟨hstart, hne, ih ?_ hsorted.2 ⟨fun y hy => h.nonempty y (List.mem_cons_of_mem _ hy), ?_⟩⟩
    · have := hin (hi x) hne le_rfl
      omega
    · intro b
      have hb := h.once b
      have hx := hin b
      rw [cover_cons] at hb
      split_ifs at hb ⊢ <;> omega

/-- Sorted by start, an exact cover abuts from `a` to `n`. -/
theorem ExactCover.chain {a n : Nat} {xs : List α} (han : a ≤ n) (h : ExactCover lo hi a n xs) :
    Chain lo hi a n (xs.mergeSort (fun x y => decide (lo x ≤ lo y))) := by
  refine chain_of_sorted han ?_ (h.perm (List.mergeSort_perm _ _).symm)
  have := @List.pairwise_mergeSort α (fun x y => decide (lo x ≤ lo y))
    (fun x y z h1 h2 => by simp only [decide_eq_true_eq] at *; omega)
    (fun x y => by simp only [Bool.or_eq_true, decide_eq_true_eq]; omega) xs
  simpa using this

/-- One more interval, just past the last. -/
theorem chain_concat {a n : Nat} {xs : List α} {x : α} :
    Chain lo hi a n (xs ++ [x]) ↔ Chain lo hi a (lo x) xs ∧ lo x ≤ hi x ∧ hi x + 1 = n := by
  induction xs generalizing a with
  | nil => simp only [List.nil_append, Chain, eq_comm]
  | cons y ys ih => simp only [List.cons_append, Chain, ih, and_assoc]

theorem Chain.start_le {a n : Nat} {xs : List α} (h : Chain lo hi a n xs) : ∀ x ∈ xs, a ≤ lo x := by
  induction xs generalizing a with
  | nil => exact fun x hx => absurd hx List.not_mem_nil
  | cons x xs ih =>
    obtain ⟨rfl, hne, hrest⟩ := h
    refine List.forall_mem_cons.mpr ⟨Nat.le_refl _, fun y hy => ?_⟩
    have hle := ih hrest y hy
    omega

/-- Abutting intervals are in order. -/
theorem Chain.pairwise {a n : Nat} {xs : List α} (h : Chain lo hi a n xs) : xs.Pairwise fun x y => hi x < lo y := by
  induction xs generalizing a with
  | nil => exact List.Pairwise.nil
  | cons x xs ih =>
    obtain ⟨rfl, hne, hrest⟩ := h
    exact List.pairwise_cons.mpr ⟨hrest.start_le, ih hrest⟩

/-- An interval of `len` cut every `step`, but the last piece as it is left. -/
theorem chain_cut {piece : Nat → α} {a len step : Nat} (hlo : ∀ k, lo (piece k) = a + k * step)
    (hhi : ∀ k, k * step < len → hi (piece k) + 1 = min (a + (k + 1) * step) (a + len)) {count : Nat}
    (hcount : ∀ k, k < count ↔ k * step < len) (hstep : 0 < step) : Chain lo hi a (a + len) ((List.range count).map piece) := by
  have hfront : ∀ m, m ≤ count → Chain lo hi a (min (a + m * step) (a + len)) ((List.range m).map piece) := by
    intro m hm
    induction m with
    | zero => simp [Chain]
    | succ m ih =>
      have hlt := (hcount m).mp hm
      have hnext := hhi m hlt
      have hmul : (m + 1) * step = m * step + step := Nat.succ_mul m step
      rw [List.range_succ, List.map_append, List.map_singleton, chain_concat, hlo m]
      refine ⟨?_, by omega, hnext⟩
      have hmin : min (a + m * step) (a + len) = a + m * step := by omega
      exact hmin ▸ ih (Nat.le_of_succ_le hm)
  have hlast : len ≤ count * step := Nat.not_lt.mp fun h => absurd ((hcount count).mpr h) (Nat.lt_irrefl count)
  have hmin : min (a + count * step) (a + len) = a + len := by omega
  exact hmin ▸ hfront count (Nat.le_refl count)

theorem Chain.le {a n : Nat} {xs : List α} (h : Chain lo hi a n xs) : a ≤ n := by
  induction xs generalizing a with
  | nil => exact le_of_eq h
  | cons x xs ih =>
    obtain ⟨rfl, hne, hrest⟩ := h
    have hle := ih hrest
    omega

/-- Abutting intervals cover exactly what lies between their ends. -/
theorem Chain.exactCover {a n : Nat} {xs : List α} (h : Chain lo hi a n xs) :
    ExactCover lo hi a n xs := by
  induction xs generalizing a with
  | nil => exact ⟨by simp, fun b => by have : a = n := h; simp only [cover_nil]; split <;> omega⟩
  | cons x xs ih =>
    obtain ⟨rfl, hne, hrest⟩ := h
    have hxn := hrest.le
    refine ⟨List.forall_mem_cons.mpr ⟨hne, (ih hrest).nonempty⟩, fun b => ?_⟩
    rw [cover_cons, (ih hrest).once b]
    split_ifs <;> omega

end Weft
