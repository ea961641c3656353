import Hyperfetch.Weft.Table
import Mathlib.Data.Multiset.Sort

/-!
# Keeping the foremost of a table

`foremost t rank n` cuts a table down to the `n` values of the highest ranks.
The cut is at a rank and not at a count, so what has the rank of the last one
kept stays as well.
-/

namespace Weft

/-! ## Ranks in falling order -/

/-- Before a place stand no more members than the place's number, so no more
are greater than the one there. -/
theorem countP_lt_getElem {l : List Nat} (hl : l.Pairwise (· ≥ ·)) {i : Nat} (hi : i < l.length) :
    l.countP (l[i] < ·) ≤ i := by
  have hbehind : (l.drop i).countP (l[i] < ·) = 0 := by
    rw [List.countP_eq_zero]
    intro x hx
    obtain ⟨j, hj, rfl⟩ := List.getElem_of_mem hx
    rw [List.getElem_drop, decide_eq_true_eq, not_lt]
    rcases Nat.eq_zero_or_pos j with rfl | hpos
    · exact Nat.le_refl _
    · exact List.pairwise_iff_getElem.mp hl i (i + j) hi _ (by omega)
  calc l.countP (l[i] < ·)
      = (l.take i).countP (l[i] < ·) + (l.drop i).countP (l[i] < ·) := by
        rw [← List.countP_append, List.take_append_drop]
    _ ≤ (l.take i).length + 0 := Nat.add_le_add List.countP_le_length (Nat.le_of_eq hbehind)
    _ ≤ i := by
        rw [List.length_take]
        omega

/-- Those up to a place are at least the one there. -/
theorem lt_countP_getElem_le {l : List Nat} (hl : l.Pairwise (· ≥ ·)) {i : Nat} (hi : i < l.length) :
    i < l.countP (l[i] ≤ ·) := by
  have hfront : (l.take (i + 1)).countP (l[i] ≤ ·) = (l.take (i + 1)).length := by
    rw [List.countP_eq_length]
    intro x hx
    obtain ⟨j, hj, rfl⟩ := List.getElem_of_mem hx
    rw [List.length_take] at hj
    rw [List.getElem_take, decide_eq_true_eq]
    rcases Nat.lt_or_ge j i with hlt | hge
    · exact List.pairwise_iff_getElem.mp hl j i _ hi hlt
    · have heq : j = i := by omega
      subst heq
      exact Nat.le_refl _
  calc i < (l.take (i + 1)).length := by
        rw [List.length_take]
        omega
    _ = (l.take (i + 1)).countP (l[i] ≤ ·) := hfront.symm
    _ ≤ l.countP (l[i] ≤ ·) := (List.take_sublist _ _).countP_le

namespace Table

variable {κ ν : Type*}

/-! ## Counting by rank -/

/-- The ranks of all values. -/
def ranks (t : Table κ ν) (rank : ν → Nat) : Multiset Nat :=
  t.keys.val.filterMap fun k => (t.get k).map rank

theorem countP_filterMap {α β : Type*} (f : α → Option β) (p : β → Bool) (s : Multiset α) :
    (s.filterMap f).countP (p · = true) = s.countP fun a => ((f a).filter p).isSome = true := by
  induction s using Multiset.induction with
  | empty => rfl
  | cons a s ih =>
    rw [Multiset.filterMap_cons, Multiset.countP_add, Multiset.countP_cons, ih, Nat.add_comm]
    cases hfa : f a with
    | none => simp
    | some b =>
      rw [show (Option.map singleton (some b)).getD 0 = b ::ₘ 0 from rfl, Multiset.countP_cons]
      cases hb : p b <;> simp [hb]

/-- As many values have a rank `p` holds of as the filter by it keeps. -/
theorem countP_ranks (t : Table κ ν) (rank : ν → Nat) (p : Nat → Bool) :
    (t.ranks rank).countP (p · = true) = (t.filter fun _ v => p (rank v)).keys.card := by
  rw [ranks, countP_filterMap, Multiset.countP_eq_card_filter]
  show _ = (t.keys.val.filter fun k => ((t.get k).filter fun v => p (rank v)).isSome = true).card
  congr 1
  refine Multiset.filter_congr fun k _ => ?_
  rw [Option.filter_map, Option.isSome_map]
  rfl

theorem card_ranks (t : Table κ ν) (rank : ν → Nat) : (t.ranks rank).card = t.keys.card := by
  have hall := countP_ranks t rank fun _ => true
  have hkept : t.filter (fun _ _ => true) = t := ext_get fun k => by
    rw [get_filter]
    cases t.get k <;> rfl
  rw [hkept] at hall
  rw [← hall]
  simp

theorem get_filter_eq_some {t : Table κ ν} {p : κ → ν → Bool} {k : κ} {v : ν} :
    (t.filter p).get k = some v ↔ t.get k = some v ∧ p k v = true := Option.filter_eq_some_iff

theorem mem_keys_filter {t : Table κ ν} {p : κ → ν → Bool} {k : κ} :
    k ∈ (t.filter p).keys ↔ ∃ v, t.get k = some v ∧ p k v = true := by
  rw [mem_keys, Option.isSome_iff_exists]
  exact exists_congr fun v => get_filter_eq_some

/-! ## The cut -/

/-- The values whose rank is among the `n` highest. -/
def foremost (t : Table κ ν) (rank : ν → Nat) (n : Nat) : Table κ ν :=
  if n < t.keys.card then
    t.filter fun _ v => decide (((t.ranks rank).sort (· ≥ ·)).getD (n - 1) 0 ≤ rank v)
  else t

section

variable {t : Table κ ν} {rank : ν → Nat} {n : Nat}

theorem foremost_of_le (h : t.keys.card ≤ n) : t.foremost rank n = t := if_neg (Nat.not_lt.mpr h)

/-- A cut is at a rank that at least `n` values reach and fewer than `n`
exceed. -/
theorem foremost_of_lt (hn : 0 < n) (h : n < t.keys.card) :
    ∃ cut, t.foremost rank n = (t.filter fun _ v => decide (cut ≤ rank v)) ∧
      (t.filter fun _ v => decide (cut < rank v)).keys.card < n ∧
      n ≤ (t.filter fun _ v => decide (cut ≤ rank v)).keys.card := by
  set ages := (t.ranks rank).sort (· ≥ ·) with hages
  have hsorted : ages.Pairwise (· ≥ ·) := Multiset.pairwise_sort _ _
  have hcoe : (ages : Multiset Nat) = t.ranks rank := Multiset.sort_eq _ _
  have hi : n - 1 < ages.length := by
    rw [hages, Multiset.length_sort, card_ranks]
    omega
  have hcut : ages.getD (n - 1) 0 = ages[n - 1] := (List.getElem_eq_getD 0).symm
  refine ⟨ages[n - 1], ?_, ?_, ?_⟩
  · rw [foremost, if_pos h, ← hages, hcut]
  · have hahead := countP_lt_getElem hsorted hi
    rw [← countP_ranks t rank fun r => decide (ages[n - 1] < r), ← hcoe, Multiset.coe_countP]
    simp only [decide_eq_true_eq] at hahead ⊢
    omega
  · have hup := lt_countP_getElem_le hsorted hi
    rw [← countP_ranks t rank fun r => decide (ages[n - 1] ≤ r), ← hcoe, Multiset.coe_countP]
    simp only [decide_eq_true_eq] at hup ⊢
    omega

theorem get_of_foremost {k : κ} {v : ν} (h : (t.foremost rank n).get k = some v) : t.get k = some v := by
  rw [foremost] at h
  split at h
  · exact (get_filter_eq_some.mp h).1
  · exact h

/-- What is cut ranks below all that is kept. -/
theorem lt_of_foremost (hn : 0 < n) {k k' : κ} {v v' : ν} (hget : t.get k = some v)
    (hdropped : (t.foremost rank n).get k = none) (hkept : (t.foremost rank n).get k' = some v') :
    rank v < rank v' := by
  rcases Nat.lt_or_ge n t.keys.card with hlt | hge
  · obtain ⟨cut, hcut, -, -⟩ := foremost_of_lt hn hlt
    rw [hcut] at hdropped hkept
    have hhigh : cut ≤ rank v' := of_decide_eq_true (get_filter_eq_some.mp hkept).2
    have hlow : ¬ cut ≤ rank v := fun hle => by
      rw [get_filter_eq_some.mpr ⟨hget, decide_eq_true hle⟩] at hdropped
      cases hdropped
    exact Nat.lt_of_lt_of_le (Nat.not_le.mp hlow) hhigh
  · rw [foremost_of_le hge, hget] at hdropped
    cases hdropped

/-- Fewer than `n` of what is kept rank above any one of it. -/
theorem card_above_lt (hn : 0 < n) {k : κ} {v : ν} (hkept : (t.foremost rank n).get k = some v) :
    ((t.foremost rank n).filter fun _ w => decide (rank v < rank w)).keys.card < n := by
  rcases Nat.lt_or_ge n t.keys.card with hlt | hge
  · obtain ⟨cut, hcut, habove, -⟩ := foremost_of_lt hn hlt
    rw [hcut] at hkept ⊢
    have hv : cut ≤ rank v := of_decide_eq_true (get_filter_eq_some.mp hkept).2
    refine Nat.lt_of_le_of_lt (Finset.card_le_card fun j hj => ?_) habove
    obtain ⟨w, hw, hvw⟩ := mem_keys_filter.mp hj
    have hcw : cut < rank w := Nat.lt_of_le_of_lt hv (of_decide_eq_true hvw)
    exact mem_keys_filter.mpr ⟨w, (get_filter_eq_some.mp hw).1, decide_eq_true hcw⟩
  · rw [foremost_of_le hge] at hkept ⊢
    have hproper : (t.filter fun _ w => decide (rank v < rank w)).keys ⊂ t.keys := by
      refine Finset.ssubset_iff_subset_ne.mpr ⟨Finset.filter_subset _ _, fun heq => ?_⟩
      have hmem : k ∈ (t.filter fun _ w => decide (rank v < rank w)).keys := heq ▸ mem_keys_of_get hkept
      obtain ⟨w, hw, hvw⟩ := mem_keys_filter.mp hmem
      rw [hkept] at hw
      cases hw
      exact Nat.lt_irrefl _ (of_decide_eq_true hvw)
    exact Nat.lt_of_lt_of_le (Finset.card_lt_card hproper) hge

/-- Nothing more is cut than what is too many. -/
theorem min_le_card_foremost (rank : ν → Nat) (hn : 0 < n) : min n t.keys.card ≤ (t.foremost rank n).keys.card := by
  rcases Nat.lt_or_ge n t.keys.card with hlt | hge
  · obtain ⟨cut, hcut, -, hreach⟩ := foremost_of_lt hn hlt
    rw [hcut]
    omega
  · rw [foremost_of_le hge]
    omega

/-- Nothing is cut from values all of one rank. -/
theorem foremost_of_level (hn : 0 < n)
    (hlevel : ∀ k k' v v', t.get k = some v → t.get k' = some v' → rank v = rank v') :
    t.foremost rank n = t := by
  refine ext_get fun k => ?_
  cases hkept : (t.foremost rank n).get k with
  | some v => exact (get_of_foremost hkept).symm
  | none =>
    cases hget : t.get k with
    | none => rfl
    | some v =>
      have hsome : 0 < t.keys.card := Finset.card_pos.mpr ⟨k, mem_keys_of_get hget⟩
      have hleast := min_le_card_foremost (t := t) rank hn
      obtain ⟨k', hk'⟩ := Finset.card_pos.mp (Nat.lt_of_lt_of_le (Nat.lt_min.mpr ⟨hn, hsome⟩) hleast)
      obtain ⟨v', hv'⟩ := Option.isSome_iff_exists.mp ((mem_keys _ k').mp hk')
      have hbelow := lt_of_foremost hn hget hkept hv'
      exact absurd (hlevel k k' v v' hget (get_of_foremost hv')) (Nat.ne_of_lt hbelow)

/-- Where no two that are kept have one rank, at most `n` are. -/
theorem card_foremost_le (hn : 0 < n)
    (hdistinct : ∀ k k' v v', (t.foremost rank n).get k = some v → (t.foremost rank n).get k' = some v' →
      rank v = rank v' → k = k') : (t.foremost rank n).keys.card ≤ n := by
  classical
  by_cases hsome : (t.foremost rank n).keys.Nonempty
  · -- the lowest kept has every other above it
    obtain ⟨k, hk, hlowest⟩ := Finset.exists_min_image _
      (fun j => (((t.foremost rank n).get j).map rank).getD 0) hsome
    obtain ⟨v, hv⟩ := Option.isSome_iff_exists.mp ((mem_keys _ k).mp hk)
    have habove := card_above_lt hn hv
    have hothers : (t.foremost rank n).keys.erase k ⊆
        ((t.foremost rank n).filter fun _ w => decide (rank v < rank w)).keys := by
      intro j hj
      obtain ⟨hne, hin⟩ := Finset.mem_erase.mp hj
      obtain ⟨w, hw⟩ := Option.isSome_iff_exists.mp ((mem_keys _ j).mp hin)
      have hle := hlowest j hin
      simp only [hv, hw, Option.map_some, Option.getD_some] at hle
      have hvw : rank v ≠ rank w := fun heq => hne (hdistinct j k w v hw hv heq.symm)
      exact mem_keys_filter.mpr ⟨w, hw, decide_eq_true (lt_of_le_of_ne hle hvw)⟩
    have hcard := Finset.card_le_card hothers
    rw [Finset.card_erase_of_mem hk] at hcard
    omega
  · rw [Finset.not_nonempty_iff_eq_empty.mp hsome]
    exact Nat.zero_le n

end

end Table

end Weft
