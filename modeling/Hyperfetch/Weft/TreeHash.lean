import Mathlib.Tactic

/-!
# Tree hashes

Bytes are cut into leaves of equal length, the last one shorter if need be.
More than one leaf is a node over two subtrees, the left one complete and as
large as can be with something left for the right one; the last compression
is a different one (`hash`). Leaf and node compressions are any functions.

A stretch of a power of two leaves, starting at a multiple of it, is a
subtree. `cvs` are the chaining values of the stretches of one length, and
joining neighbours gives those of twice the length (`pairUp_cvs`). So joining
until two are left, and these by the last compression, is the hash of the
whole (`joinAll_cvs`).
-/

namespace Weft

/-- A tree hash of sequences over `α` with values in `D`. A leaf's chaining
value takes the index of the leaf. -/
structure TreeHash (α D : Type) where
  leaf : Nat
  leaf_pos : 0 < leaf
  leafValue : Nat → List α → D
  leafRoot : List α → D
  node : D → D → D
  nodeRoot : D → D → D

namespace TreeHash

variable {α D : Type} (t : TreeHash α D)

/-- The length of a subtree of `2 ^ level` leaves. -/
def width (level : Nat) : Nat := t.leaf * 2 ^ level

/-- The level of the left subtree over `n` symbols: the largest with less. -/
def leftLevel (n : Nat) : Nat := Nat.log 2 ((n - 1) / t.leaf)

theorem width_pos (level : Nat) : 0 < t.width level := Nat.mul_pos t.leaf_pos (Nat.two_pow_pos _)

theorem width_succ (level : Nat) : t.width (level + 1) = 2 * t.width level := by
  unfold width
  rw [pow_succ]
  ring

/-- The left subtree leaves something for the right one. -/
theorem width_leftLevel_lt {n : Nat} (h : t.leaf < n) : t.width (t.leftLevel n) < n := by
  have hne : (n - 1) / t.leaf ≠ 0 := (Nat.div_pos (by omega) t.leaf_pos).ne'
  have hpow : 2 ^ t.leftLevel n ≤ (n - 1) / t.leaf := Nat.pow_log_le_self 2 hne
  have hle : t.width (t.leftLevel n) ≤ n - 1 :=
    (Nat.mul_le_mul_left _ hpow).trans (Nat.mul_div_le _ _)
  omega

theorem leftLevel_eq {level n : Nat} (hlo : t.width level < n) (hhi : n ≤ t.width (level + 1)) :
    t.leftLevel n = level := by
  have hge : 2 ^ level ≤ (n - 1) / t.leaf := by
    rw [Nat.le_div_iff_mul_le t.leaf_pos, Nat.mul_comm]
    show t.width level ≤ n - 1
    omega
  have hlt : (n - 1) / t.leaf < 2 ^ (level + 1) := by
    rw [Nat.div_lt_iff_lt_mul t.leaf_pos, Nat.mul_comm]
    show n - 1 < t.width (level + 1)
    have := t.width_pos level
    omega
  exact Nat.log_eq_of_pow_le_of_lt_pow hge hlt

/-- The chaining value of a subtree whose first leaf is the `first`-th. -/
def value (first : Nat) (data : List α) : D :=
  if h : t.leaf < data.length then
    t.node (value first (data.take (t.width (t.leftLevel data.length))))
      (value (first + 2 ^ t.leftLevel data.length) (data.drop (t.width (t.leftLevel data.length))))
  else t.leafValue first data
termination_by data.length
decreasing_by
  · have := t.width_leftLevel_lt h
    rw [List.length_take]
    omega
  · have := t.width_pos (t.leftLevel data.length)
    rw [List.length_drop]
    omega

/-- The hash of a whole sequence. -/
def hash (data : List α) : D :=
  if t.leaf < data.length then
    t.nodeRoot (t.value 0 (data.take (t.width (t.leftLevel data.length))))
      (t.value (2 ^ t.leftLevel data.length) (data.drop (t.width (t.leftLevel data.length))))
  else t.leafRoot data

/-- Joins neighbours; an odd one out stays as it is. -/
def pairUp : List D → List D
  | a :: b :: rest => t.node a b :: pairUp rest
  | rest => rest

theorem length_pairUp (xs : List D) : (t.pairUp xs).length = (xs.length + 1) / 2 := by
  induction xs using pairUp.induct with
  | case1 a b rest ih =>
    rw [pairUp, List.length_cons, ih, List.length_cons, List.length_cons]
    omega
  | case2 rest h =>
    match rest, h with
    | [], _ => simp [pairUp]
    | [_], _ => simp [pairUp]
    | a :: b :: rest, h => exact (h a b rest rfl).elim

/-- Joins neighbours level by level until two or fewer are left. -/
def joinToTwo (level : List D) : List D :=
  if 2 < level.length then joinToTwo (t.pairUp level) else level
termination_by level.length
decreasing_by
  rw [t.length_pairUp]
  omega

/-! ## Stretches of one length -/

/-- The chaining values of the stretches of `2 ^ level` leaves, the first one
starting at leaf `first`. -/
def cvs (level : Nat) (first : Nat) (data : List α) : List D :=
  if h : data = [] then []
  else t.value first (data.take (t.width level)) ::
    cvs level (first + 2 ^ level) (data.drop (t.width level))
termination_by data.length
decreasing_by
  have := t.width_pos level
  have := List.length_pos_iff.mpr h
  rw [List.length_drop]
  omega

/-- Two stretches, the right one not longer, are a subtree of the next level. -/
theorem value_split {level first : Nat} {data : List α} (hlo : t.width level < data.length)
    (hhi : data.length ≤ t.width (level + 1)) :
    t.value first data =
      t.node (t.value first (data.take (t.width level)))
        (t.value (first + 2 ^ level) (data.drop (t.width level))) := by
  have hleaf : t.leaf < data.length :=
    lt_of_le_of_lt (Nat.le_mul_of_pos_right _ (Nat.two_pow_pos _)) hlo
  rw [value, dif_pos hleaf, t.leftLevel_eq hlo hhi]

theorem hash_split {level : Nat} {data : List α} (hlo : t.width level < data.length)
    (hhi : data.length ≤ t.width (level + 1)) :
    t.hash data =
      t.nodeRoot (t.value 0 (data.take (t.width level))) (t.value (2 ^ level) (data.drop (t.width level))) := by
  have hleaf : t.leaf < data.length :=
    lt_of_le_of_lt (Nat.le_mul_of_pos_right _ (Nat.two_pow_pos _)) hlo
  rw [hash, if_pos hleaf, t.leftLevel_eq hlo hhi]

theorem cvs_nil (level first : Nat) : t.cvs level first [] = [] := by
  rw [cvs, dif_pos rfl]

theorem cvs_of_ne {level first : Nat} {data : List α} (h : data ≠ []) :
    t.cvs level first data = t.value first (data.take (t.width level)) ::
      t.cvs level (first + 2 ^ level) (data.drop (t.width level)) := by
  rw [cvs, dif_neg h]

/-- A single stretch. -/
theorem cvs_of_le {level first : Nat} {data : List α} (h : data ≠ []) (hle : data.length ≤ t.width level) :
    t.cvs level first data = [t.value first data] := by
  rw [t.cvs_of_ne h, List.take_of_length_le hle, List.drop_eq_nil_of_le hle, t.cvs_nil]

theorem pairUp_cvs (level first : Nat) (data : List α) :
    t.pairUp (t.cvs level first data) = t.cvs (level + 1) first data := by
  induction hn : data.length using Nat.strongRecOn generalizing first data with
  | ind n ih =>
    subst hn
    have hwidth := t.width_succ level
    have hpos := t.width_pos level
    by_cases hnil : data = []
    · rw [hnil, t.cvs_nil, t.cvs_nil]
      rfl
    by_cases hone : data.length ≤ t.width level
    · rw [t.cvs_of_le hnil hone, t.cvs_of_le hnil (by omega)]
      rfl
    -- a pair, and what comes after it
    have hrest : data.drop (t.width level) ≠ [] := by
      rw [ne_eq, List.drop_eq_nil_iff]
      exact hone
    have hpair : t.value first (data.take (t.width (level + 1))) =
        t.node (t.value first (data.take (t.width level)))
          (t.value (first + 2 ^ level) ((data.drop (t.width level)).take (t.width level))) := by
      have hlo : t.width level < (data.take (t.width (level + 1))).length := by
        rw [List.length_take]
        omega
      have hhi : (data.take (t.width (level + 1))).length ≤ t.width (level + 1) := List.length_take_le _ _
      rw [t.value_split hlo hhi, List.take_take, min_eq_left (by omega), List.drop_take, hwidth]
      congr 3
      omega
    rw [t.cvs_of_ne hnil, t.cvs_of_ne hrest, pairUp, t.cvs_of_ne hnil, hpair, List.drop_drop,
      ih _ (by rw [List.length_drop]; have := List.length_pos_iff.mpr hnil; omega) _ _ rfl]
    congr 2
    · rw [pow_succ]
      ring
    · rw [hwidth]
      congr 1
      omega

theorem length_cvs (level first : Nat) (data : List α) :
    (t.cvs level first data).length * t.width level < data.length + t.width level ∧
      data.length ≤ (t.cvs level first data).length * t.width level := by
  induction hn : data.length using Nat.strongRecOn generalizing first data with
  | ind n ih =>
    subst hn
    have hpos := t.width_pos level
    by_cases hnil : data = []
    · rw [hnil, t.cvs_nil]
      simp [hpos]
    have hlen := List.length_pos_iff.mpr hnil
    by_cases hone : data.length ≤ t.width level
    · rw [t.cvs_of_le hnil hone, List.length_singleton, Nat.one_mul]
      omega
    · have hdrop : (data.drop (t.width level)).length = data.length - t.width level := List.length_drop
      have hih := ih _ (by rw [hdrop]; omega) (first + 2 ^ level) (data.drop (t.width level)) rfl
      rw [t.cvs_of_ne hnil, List.length_cons, Nat.succ_mul]
      omega

/-- The stretches by their numbers. -/
theorem cvs_eq_map (level first : Nat) (data : List α) :
    t.cvs level first data = (List.range ((data.length + t.width level - 1) / t.width level)).map fun i =>
      t.value (first + i * 2 ^ level) ((data.drop (i * t.width level)).take (t.width level)) := by
  induction hn : data.length using Nat.strongRecOn generalizing first data with
  | ind n ih =>
    subst hn
    have hpos := t.width_pos level
    by_cases hnil : data = []
    · have hnone : (0 + t.width level - 1) / t.width level = 0 := Nat.div_eq_of_lt (by omega)
      rw [hnil, t.cvs_nil, List.length_nil, hnone]
      rfl
    · have hlen := List.length_pos_iff.mpr hnil
      have hdrop : (data.drop (t.width level)).length = data.length - t.width level := List.length_drop
      have hcount : (data.length + t.width level - 1) / t.width level =
          ((data.drop (t.width level)).length + t.width level - 1) / t.width level + 1 := by
        rw [hdrop]
        by_cases hone : data.length ≤ t.width level
        · rw [Nat.div_eq_of_lt (by omega : data.length - t.width level + t.width level - 1 < t.width level)]
          exact Nat.div_eq_of_lt_le (by omega) (by omega)
        · rw [← Nat.add_div_right _ hpos]
          congr 1
          omega
      rw [t.cvs_of_ne hnil, hcount, List.range_succ_eq_map, List.map_cons, List.map_map,
        ih _ (by rw [hdrop]; omega) _ _ rfl]
      simp only [Nat.zero_mul, Nat.add_zero, List.drop_zero, List.cons.injEq, true_and]
      apply List.map_congr_left
      intro i _
      have hfirst : first + 2 ^ level + i * 2 ^ level = first + (i + 1) * 2 ^ level := by ring
      have hstart : t.width level + i * t.width level = (i + 1) * t.width level := by ring
      simp only [Function.comp_apply, Nat.succ_eq_add_one, List.drop_drop, hfirst, hstart]

/-- Joined until two are left, the values of a sequence longer than one stretch
are those of the halves of its tree. -/
theorem joinToTwo_cvs_halves {level : Nat} (first : Nat) {data : List α} (h : t.width level < data.length) :
    ∃ half, t.width half < data.length ∧ data.length ≤ t.width (half + 1) ∧
      t.joinToTwo (t.cvs level first data) =
        [t.value first (data.take (t.width half)), t.value (first + 2 ^ half) (data.drop (t.width half))] := by
  induction hn : (t.cvs level first data).length using Nat.strongRecOn generalizing level with
  | ind n ih =>
    have hlen := t.length_cvs level first data
    have hwidth := t.width_succ level
    by_cases htwo : 2 < (t.cvs level first data).length
    · -- more than two: the next level has half as many
      have hlong : t.width (level + 1) < data.length := by
        have : 3 * t.width level ≤ (t.cvs level first data).length * t.width level :=
          Nat.mul_le_mul_right _ htwo
        omega
      rw [joinToTwo, if_pos htwo, t.pairUp_cvs]
      refine ih _ ?_ hlong rfl
      rw [← t.pairUp_cvs, t.length_pairUp]
      omega
    · rw [joinToTwo, if_neg htwo]
      have hshort : data.length ≤ t.width (level + 1) := by
        have : (t.cvs level first data).length * t.width level ≤ 2 * t.width level :=
          Nat.mul_le_mul_right _ (by omega)
        omega
      have hnil : data ≠ [] := List.ne_nil_of_length_pos (by omega)
      have hrest : data.drop (t.width level) ≠ [] := by
        rw [ne_eq, List.drop_eq_nil_iff]
        omega
      refine ⟨level, h, hshort, ?_⟩
      rw [t.cvs_of_ne hnil, t.cvs_of_le hrest (by rw [List.length_drop]; omega)]

/-- Joined until two are left, the values of a sequence longer than one
stretch give its hash. -/
theorem joinToTwo_cvs {level : Nat} {data : List α} (h : t.width level < data.length) :
    ∃ a b, t.joinToTwo (t.cvs level 0 data) = [a, b] ∧ t.nodeRoot a b = t.hash data := by
  obtain ⟨half, hlo, hhi, hjoin⟩ := t.joinToTwo_cvs_halves 0 h
  rw [Nat.zero_add] at hjoin
  exact ⟨_, _, hjoin, (t.hash_split hlo hhi).symm⟩

/-- And, as part of a longer one, its chaining value. -/
theorem joinToTwo_cvs_value {level : Nat} (first : Nat) {data : List α} (h : t.width level < data.length) :
    ∃ a b, t.joinToTwo (t.cvs level first data) = [a, b] ∧ t.node a b = t.value first data := by
  obtain ⟨half, hlo, hhi, hjoin⟩ := t.joinToTwo_cvs_halves first h
  exact ⟨_, _, hjoin, (t.value_split hlo hhi).symm⟩

end TreeHash

end Weft
