import Mathlib.Data.List.Destutter
import Mathlib.Tactic

/-!
# The first of each time, in order

Put in order of their times, stably, and less every neighbour of the same time, elements
are left that were the first of their times (`mem_firsts`), each time once
(`pairwise_firsts`).
-/

namespace Weft

section

variable {α τ : Type*} [LinearOrder τ] (time : α → τ)

/-- No later than. -/
def byTime (a b : α) : Bool := decide (time a ≤ time b)

/-- The first of each time, in order of time. -/
def firsts (l : List α) : List α := (l.mergeSort (byTime time)).destutter fun a b => time a ≠ time b

theorem byTime_trans (a b c : α) (hab : byTime time a b = true) (hbc : byTime time b c = true) : byTime time a c = true := by
  rw [byTime, decide_eq_true_eq] at *
  exact le_trans hab hbc

theorem byTime_total (a b : α) : (byTime time a b || byTime time b a) = true := by
  rw [byTime, byTime, Bool.or_eq_true, decide_eq_true_eq, decide_eq_true_eq]
  exact le_total (time a) (time b)

theorem pairwise_byTime (l : List α) : (l.mergeSort (byTime time)).Pairwise fun a b => time a ≤ time b := by
  have hsorted := List.pairwise_mergeSort (byTime_trans time) (byTime_total time) l
  exact hsorted.imp fun h => of_decide_eq_true h

variable {time} {l : List α}

/-- Elements of one time keep their order. -/
theorem filter_byTime (l : List α) (t : τ) :
    (l.mergeSort (byTime time)).filter (fun a => decide (time a = t)) = l.filter fun a => decide (time a = t) := by
  have hsame : (l.filter fun a => decide (time a = t)).Pairwise fun a b => byTime time a b = true := by
    rw [List.pairwise_iff_forall_sublist]
    intro a b hab
    have ha := List.of_mem_filter (hab.subset (List.mem_cons_self (a := a)))
    have hb := List.of_mem_filter (hab.subset (List.mem_cons_of_mem a (List.mem_singleton_self b)))
    rw [decide_eq_true_eq] at ha hb
    rw [byTime, decide_eq_true_eq, ha, hb]
  have hsub := List.sublist_mergeSort (byTime_trans time) (byTime_total time) hsame List.filter_sublist
  have hkept := hsub.filter fun a => decide (time a = t)
  rw [List.filter_filter] at hkept
  simp only [Bool.and_self] at hkept
  refine (hkept.eq_of_length ?_).symm
  exact ((List.mergeSort_perm l _).filter _).length_eq.symm

theorem mem_destutter' {a x : α} (hsorted : (a :: l).Pairwise fun a b => time a ≤ time b) :
    x ∈ l.destutter' (fun a b => time a ≠ time b) a ↔ (a :: l).find? (fun b => decide (time b = time x)) = some x := by
  induction l generalizing a with
  | nil =>
    rw [List.destutter'_nil, List.mem_singleton, List.find?_cons]
    split
    next h =>
      rw [Option.some_inj, eq_comm]
    next h =>
      constructor
      · rintro rfl
        simp at h
      · intro hnone
        cases hnone
  | cons b l ih =>
    obtain ⟨hfirst, hrest⟩ := List.pairwise_cons.mp hsorted
    by_cases hab : time a ≠ time b
    · have hlt : ∀ c ∈ b :: l, time a < time c := by
        intro c hc
        have hb : time a < time b := lt_of_le_of_ne (hfirst b List.mem_cons_self) hab
        rcases List.mem_cons.mp hc with rfl | hc
        · exact hb
        · exact lt_of_lt_of_le hb ((List.pairwise_cons.mp hrest).1 c hc)
      rw [List.destutter'_cons_pos l hab, List.mem_cons, ih hrest, List.find?_cons (a := a)]
      split
      next h =>
        rw [decide_eq_true_eq] at h
        constructor
        · rintro (rfl | hx)
          · rfl
          · exact absurd h (ne_of_lt (hlt x (List.mem_of_find?_eq_some hx)))
        · intro hx
          exact .inl (Option.some.inj hx).symm
      next h =>
        refine or_iff_right ?_
        rintro rfl
        simp at h
    · rw [List.destutter'_cons_neg l hab, ih (hsorted.sublist (List.Sublist.cons_cons a (List.sublist_cons_self b l)))]
      rw [not_not] at hab
      rw [List.find?_cons, List.find?_cons (a := a), List.find?_cons (a := b), hab]
      cases decide (time b = time x) <;> rfl

/-- What is left is the first of its time. -/
theorem mem_firsts {x : α} : x ∈ firsts time l ↔ l.find? (fun b => decide (time b = time x)) = some x := by
  have hstable : (l.mergeSort (byTime time)).find? (fun b => decide (time b = time x)) =
      l.find? fun b => decide (time b = time x) := by
    rw [← List.head?_filter, ← List.head?_filter, filter_byTime]
  have hsorted := pairwise_byTime time l
  rw [← hstable, firsts]
  cases hsort : l.mergeSort (byTime time) with
  | nil => simp
  | cons a rest =>
    rw [hsort] at hsorted
    exact mem_destutter' hsorted

theorem pairwise_destutter' {a : α} (hsorted : (a :: l).Pairwise fun a b => time a ≤ time b) :
    (l.destutter' (fun a b => time a ≠ time b) a).Pairwise fun a b => time a < time b := by
  have hsub := List.destutter'_sublist (fun a b => time a ≠ time b) (l := l) a
  have hapart := List.isChain_destutter' (fun a b => time a ≠ time b) l a
  generalize l.destutter' (fun a b => time a ≠ time b) a = kept at hsub hapart
  have hkept := hsorted.sublist hsub
  clear hsub
  induction kept with
  | nil => exact .nil
  | cons b kept ih =>
    obtain ⟨hfirst, hrest⟩ := List.pairwise_cons.mp hkept
    refine List.pairwise_cons.mpr ⟨?_, ih hapart.tail hrest⟩
    cases kept with
    | nil => simp
    | cons c kept =>
      have hbc : time b < time c := lt_of_le_of_ne (hfirst c List.mem_cons_self) (List.isChain_cons_cons.mp hapart).1
      intro d hd
      rcases List.mem_cons.mp hd with rfl | hd
      · exact hbc
      · exact lt_of_lt_of_le hbc ((List.pairwise_cons.mp hrest).1 d hd)

theorem pairwise_firsts (l : List α) : (firsts time l).Pairwise fun a b => time a < time b := by
  have hsorted := pairwise_byTime time l
  rw [firsts]
  cases hsort : l.mergeSort (byTime time) with
  | nil => exact .nil
  | cons a rest =>
    rw [hsort] at hsorted
    exact pairwise_destutter' hsorted

theorem firsts_subperm (l : List α) : (firsts time l).Subperm l :=
  (List.destutter_sublist _ _).subperm.trans (List.mergeSort_perm l _).subperm

end

end Weft
