import Mathlib.Data.List.Sort
import Mathlib.Data.List.Nodup
import Mathlib.Tactic.Tauto

/-!
# The newest, one for each key

Sorting newest first, keeping the first of each key and cutting off at a limit:
what a bounded list of recent things is brought back to after every change.
-/

namespace Weft

universe u v

variable {α : Type u} {κ : Type v} [DecidableEq κ] (key : α → κ) (recency : α → Nat)

/-- The first element of each key not seen yet. -/
def keepFirst (seen : List κ) : List α → List α
  | [] => []
  | a :: rest => if key a ∈ seen then keepFirst seen rest else a :: keepFirst (key a :: seen) rest

/-- At most `limit` elements, newest first, one for each key: of equally new
ones the earlier come first. -/
def newestFirst (limit : Nat) (xs : List α) : List α :=
  (keepFirst key [] (xs.mergeSort fun a b => decide (recency b ≤ recency a))).take limit

variable {key recency}

theorem keepFirst_sublist (seen : List κ) (xs : List α) : (keepFirst key seen xs).Sublist xs := by
  induction xs generalizing seen with
  | nil => exact List.Sublist.refl []
  | cons a rest ih =>
    unfold keepFirst
    split
    · exact (ih seen).cons a
    · exact (ih _).cons_cons a

/-- Nothing kept has a key seen before or kept twice. -/
theorem keepFirst_nodup (seen : List κ) (xs : List α) :
    ((keepFirst key seen xs).map key).Nodup ∧ ∀ a ∈ keepFirst key seen xs, key a ∉ seen := by
  induction xs generalizing seen with
  | nil => simp [keepFirst]
  | cons a rest ih =>
    unfold keepFirst
    split
    · exact ih seen
    · rename_i hnew
      obtain ⟨hnodup, hfresh⟩ := ih (key a :: seen)
      refine ⟨?_, ?_⟩
      · rw [List.map_cons, List.nodup_cons]
        refine ⟨fun hin => ?_, hnodup⟩
        obtain ⟨b, hb, hkey⟩ := List.mem_map.mp hin
        exact hfresh b hb (hkey ▸ List.mem_cons_self)
      · intro b hb
        rcases List.mem_cons.mp hb with rfl | hb
        · exact hnew
        · exact fun hin => hfresh b hb (List.mem_cons_of_mem _ hin)

/-- Of what was seen only which keys it holds matters. -/
theorem keepFirst_congr {seen seen' : List κ} (h : ∀ k, k ∈ seen ↔ k ∈ seen') (xs : List α) :
    keepFirst key seen xs = keepFirst key seen' xs := by
  induction xs generalizing seen seen' with
  | nil => rfl
  | cons a rest ih =>
    have hnext : ∀ k, k ∈ key a :: seen ↔ k ∈ key a :: seen' := by
      intro k
      rw [List.mem_cons, List.mem_cons, h k]
    rw [keepFirst, keepFirst, ih h, ih hnext]
    simp only [h (key a)]

theorem keepFirst_append (seen : List κ) (xs ys : List α) :
    keepFirst key seen (xs ++ ys) = keepFirst key seen xs ++ keepFirst key (xs.map key ++ seen) ys := by
  induction xs generalizing seen with
  | nil => rfl
  | cons a rest ih =>
    rw [List.cons_append, keepFirst, keepFirst]
    split
    · rename_i hseen
      rw [ih]
      congr 1
      refine keepFirst_congr ?_ ys
      intro k
      simp only [List.map_cons, List.mem_append, List.mem_cons]
      constructor
      · exact fun hk => hk.imp Or.inr id
      · rintro ((rfl | hk) | hk)
        · exact Or.inr hseen
        · exact Or.inl hk
        · exact Or.inr hk
    · rw [ih, List.cons_append]
      congr 2
      refine keepFirst_congr ?_ ys
      intro k
      simp only [List.map_cons, List.mem_append, List.mem_cons]
      tauto

theorem keepFirst_eq_nil {seen : List κ} {xs : List α} (h : ∀ a ∈ xs, key a ∈ seen) : keepFirst key seen xs = [] := by
  induction xs with
  | nil => rfl
  | cons a rest ih =>
    rw [keepFirst, if_pos (h a List.mem_cons_self)]
    exact ih fun b hb => h b (List.mem_cons_of_mem a hb)

/-- Every key is kept once. -/
theorem mem_map_keepFirst {seen : List κ} {xs : List α} {k : κ} (hk : k ∉ seen) :
    k ∈ (keepFirst key seen xs).map key ↔ k ∈ xs.map key := by
  induction xs generalizing seen with
  | nil => rfl
  | cons a rest ih =>
    rw [keepFirst]
    split
    · rename_i hseen
      rw [ih hk, List.map_cons, List.mem_cons]
      refine (or_iff_right ?_).symm
      rintro rfl
      exact hk hseen
    · rw [List.map_cons, List.mem_cons, List.map_cons, List.mem_cons]
      by_cases heq : k = key a
      · simp [heq]
      · rw [ih]
        rw [List.mem_cons, not_or]
        exact ⟨heq, hk⟩

/-- What is kept of a key comes from the first part that has the key. -/
theorem mem_of_mem_keepFirst {xs ys zs : List α} {a : α} (h : a ∈ keepFirst key [] (xs ++ ys ++ zs)) (hxs : key a ∉ xs.map key)
    (hys : key a ∈ ys.map key) : a ∈ ys := by
  rw [keepFirst_append, keepFirst_append] at h
  rcases List.mem_append.mp h with h | h
  · rcases List.mem_append.mp h with h | h
    · exact absurd (List.mem_map_of_mem ((keepFirst_sublist [] xs).subset h)) hxs
    · exact (keepFirst_sublist _ ys).subset h
  · refine absurd ?_ ((keepFirst_nodup _ zs).2 a h)
    rw [List.map_append]
    exact List.mem_append_left _ (List.mem_append_right _ hys)

theorem newestFirst_length (limit : Nat) (xs : List α) : (newestFirst key recency limit xs).length ≤ limit :=
  List.length_take_le _ _

theorem newestFirst_nodup (limit : Nat) (xs : List α) : ((newestFirst key recency limit xs).map key).Nodup :=
  (keepFirst_nodup [] _).1.sublist ((List.take_sublist _ _).map key)

theorem newestFirst_sorted (limit : Nat) (xs : List α) :
    (newestFirst key recency limit xs).Pairwise fun a b => recency b ≤ recency a := by
  have hsorted : (xs.mergeSort fun a b => decide (recency b ≤ recency a)).Pairwise
      fun a b => decide (recency b ≤ recency a) = true := by
    apply List.pairwise_mergeSort
    · intro a b c hab hbc
      simp only [decide_eq_true_eq] at *
      omega
    · intro a b
      simp only [Bool.or_eq_true, decide_eq_true_eq]
      omega
  have hkept := (hsorted.sublist (@keepFirst_sublist _ _ _ key [] _)).sublist (List.take_sublist limit _)
  exact hkept.imp fun h => of_decide_eq_true h

theorem mem_of_mem_newestFirst {limit : Nat} {xs : List α} {a : α} (h : a ∈ newestFirst key recency limit xs) :
    a ∈ xs :=
  List.mem_mergeSort.mp ((@keepFirst_sublist _ _ _ key [] _).subset (List.mem_of_mem_take h))

end Weft
