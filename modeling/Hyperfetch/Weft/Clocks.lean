import Mathlib.Data.List.GetD
import Hyperfetch.Weft.Firsts

/-!
# Elements by the clock they ran on

Each element has a time and a size. One with both of an earlier element is taken for that
element come again; a new one no later than all before it is the first on a new clock.
`epochs` gathers the new ones, clock by clock, as they come; `OnClock` says the same of
the list alone (`mem_epochs`), and so does `Kept` of the first of each time
(`mem_firsts_epochs`).
-/

namespace Weft

section

variable {α τ σ : Type*} [LinearOrder τ] [DecidableEq σ] (time : α → τ) (size : α → σ)

/-- No earlier element has its time and size. -/
def Fresh (before : List α) (e : α) : Prop := ∀ a ∈ before, (time a, size a) ≠ (time e, size e)

/-- It is the first on a new clock. -/
def StartsClock (before : List α) (e : α) : Prop := Fresh time size before e ∧ ∀ a ∈ before, time e ≤ time a

instance (before : List α) (e : α) : Decidable (Fresh time size before e) :=
  inferInstanceAs (Decidable (∀ a ∈ before, (time a, size a) ≠ (time e, size e)))

instance (before : List α) (e : α) : Decidable (StartsClock time size before e) :=
  inferInstanceAs (Decidable (_ ∧ _))

/-- How many clocks were started, the latest element first. -/
def clocksBack : List α → Nat
  | [] => 0
  | e :: before => clocksBack before + if StartsClock time size before e then 1 else 0

def clocks (l : List α) : Nat := clocksBack time size l.reverse

/-- A new element, on the clock `i`. -/
def OnClock (l : List α) (i : Nat) (e : α) : Prop :=
  ∃ before after, l = before ++ e :: after ∧ Fresh time size before e ∧ clocks time size (before ++ [e]) = i + 1

/-- A new element, on the clock `i`, that has none of its time before it there. -/
def FirstOn (l : List α) (i : Nat) (e : α) : Prop :=
  ∃ before after, l = before ++ e :: after ∧ Fresh time size before e ∧ clocks time size (before ++ [e]) = i + 1 ∧
    ∀ g, OnClock time size before i g → time g ≠ time e

/-- Puts an element on the clock that runs, or on a new one. -/
def put (groups : List (List α)) (e : α) : List (List α) :=
  match groups.getLast? with
  | some (first :: rest) =>
    if time first < time e then groups.dropLast ++ [first :: rest ++ [e]] else groups ++ [[e]]
  | _ => groups ++ [[e]]

/-- One turn, with the times and sizes seen so far. -/
def gather (s : List (τ × σ) × List (List α)) (e : α) : List (τ × σ) × List (List α) :=
  if (time e, size e) ∈ s.1 then s else ((time e, size e) :: s.1, put time s.2 e)

/-- The new elements, by their clocks. -/
def epochs (l : List α) : List (List α) := (l.foldl (gather time size) ([], [])).2

/-! ## One more element -/

variable {time size}

theorem clocks_concat (l : List α) (e : α) :
    clocks time size (l ++ [e]) = clocks time size l + if StartsClock time size l e then 1 else 0 := by
  rw [clocks, List.reverse_append, List.reverse_singleton, List.singleton_append, clocksBack, ← clocks]
  simp [StartsClock, Fresh]

theorem mem_seen (l : List α) (k : τ × σ) : k ∈ (l.foldl (gather time size) ([], [])).1 ↔ ∃ a ∈ l, (time a, size a) = k := by
  induction l using List.reverseRecOn with
  | nil => simp
  | append_singleton l e ih =>
    simp only [List.foldl_append, List.foldl_cons, List.foldl_nil, List.mem_append, List.mem_singleton, or_and_right, exists_or,
      exists_eq_left]
    rw [← ih, gather]
    split
    next hseen =>
      rw [iff_self_or]
      rintro rfl
      exact hseen
    next =>
      rw [List.mem_cons, eq_comm, or_comm]

theorem epochs_concat (l : List α) (e : α) :
    epochs time size (l ++ [e]) = if Fresh time size l e then put time (epochs time size l) e else epochs time size l := by
  rw [epochs, List.foldl_append, List.foldl_cons, List.foldl_nil, gather]
  by_cases hseen : (time e, size e) ∈ (l.foldl (gather time size) ([], [])).1
  · obtain ⟨a, ha, hae⟩ := (mem_seen l _).mp hseen
    have hnew : ¬ Fresh time size l e := fun h => h a ha hae
    rw [if_pos hseen, if_neg hnew, epochs]
  · have hnew : Fresh time size l e := fun a ha hae => hseen ((mem_seen l _).mpr ⟨a, ha, hae⟩)
    rw [if_neg hseen, if_pos hnew, epochs]

theorem onClock_concat {l : List α} {e x : α} {i : Nat} :
    OnClock time size (l ++ [e]) i x ↔
      OnClock time size l i x ∨ x = e ∧ Fresh time size l e ∧ clocks time size (l ++ [e]) = i + 1 := by
  constructor
  · rintro ⟨before, after, hl, hnew, hclock⟩
    rcases List.eq_nil_or_concat after with rfl | ⟨after, last, rfl⟩
    · obtain ⟨rfl, hx⟩ := List.append_inj' hl rfl
      obtain rfl := List.singleton_inj.mp hx
      exact .inr ⟨rfl, hnew, hclock⟩
    · rw [List.concat_eq_append, ← List.cons_append, ← List.append_assoc] at hl
      obtain ⟨rfl, -⟩ := List.append_inj' hl rfl
      exact .inl ⟨before, after, rfl, hnew, hclock⟩
  · rintro (⟨before, after, rfl, hnew, hclock⟩ | ⟨rfl, hnew, hclock⟩)
    · exact ⟨before, after ++ [e], by simp, hnew, hclock⟩
    · exact ⟨l, [], rfl, hnew, hclock⟩

/-! ## Putting an element on a clock -/

/-- A clock runs that was started before the time `t`. -/
def Runs (groups : List (List α)) (t : τ) (time : α → τ) : Prop :=
  ∃ first rest, groups.getLast? = some (first :: rest) ∧ time first < t

theorem put_of_runs {groups : List (List α)} {e : α} (h : Runs groups (time e) time) :
    ∃ front group, groups = front ++ [group] ∧ put time groups e = front ++ [group ++ [e]] := by
  obtain ⟨first, rest, hlast, hlt⟩ := h
  refine ⟨groups.dropLast, first :: rest, (List.dropLast_append_getLast? _ hlast).symm, ?_⟩
  simp only [put, hlast, if_pos hlt]

theorem put_of_not_runs {groups : List (List α)} {e : α} (h : ¬ Runs groups (time e) time) :
    put time groups e = groups ++ [[e]] := by
  rw [put]
  split
  next first rest hlast =>
    exact if_neg fun hlt => h ⟨first, rest, hlast, hlt⟩
  next => rfl

theorem flatten_put (groups : List (List α)) (e : α) : (put time groups e).flatten = groups.flatten ++ [e] := by
  by_cases h : Runs groups (time e) time
  · obtain ⟨front, group, rfl, hput⟩ := put_of_runs h
    rw [hput]
    simp
  · rw [put_of_not_runs h]
    simp

theorem length_put (groups : List (List α)) (e : α) [Decidable (Runs groups (time e) time)] :
    (put time groups e).length = groups.length + if Runs groups (time e) time then 0 else 1 := by
  split
  next h =>
    obtain ⟨front, group, rfl, hput⟩ := put_of_runs h
    rw [hput]
    simp
  next h =>
    rw [put_of_not_runs h]
    simp

/-- It goes to the end of the last group. -/
theorem getD_put (groups : List (List α)) (e : α) (j : Nat) :
    (put time groups e).getD j [] = groups.getD j [] ++ if j + 1 = (put time groups e).length then [e] else [] := by
  by_cases h : Runs groups (time e) time
  · obtain ⟨front, group, rfl, hput⟩ := put_of_runs h
    rw [hput]
    rcases Nat.lt_trichotomy j front.length with hj | rfl | hj
    · simp [List.getD, List.getElem?_append_left hj, hj.ne]
    · simp [List.getD]
    · have hout : (front ++ [group ++ [e]])[j]? = none := List.getElem?_eq_none (by simp; omega)
      have hout' : (front ++ [group])[j]? = none := List.getElem?_eq_none (by simp; omega)
      simp [List.getD, hout, hout', hj.ne']
  · rw [put_of_not_runs h]
    rcases Nat.lt_trichotomy j groups.length with hj | rfl | hj
    · simp [List.getD, List.getElem?_append_left hj, hj.ne]
    · simp [List.getD]
    · have hout : (groups ++ [[e]])[j]? = none := List.getElem?_eq_none (by simp; omega)
      simp [List.getD, hout, hj.ne', List.getElem?_eq_none hj.le]

/-! ## The clocks of a list -/

theorem runs_epochs (l : List α) (t : τ) : Runs (epochs time size l) t time ↔ ∃ a ∈ l, time a < t := by
  induction l using List.reverseRecOn generalizing t with
  | nil => simp [Runs, epochs]
  | append_singleton l e ih =>
    simp only [List.mem_append, List.mem_singleton, or_and_right, exists_or, exists_eq_left]
    rw [epochs_concat]
    split
    next hnew =>
      by_cases hruns : Runs (epochs time size l) (time e) time
      · -- the clock that runs was started before `e`
        have hlow : time e < t → Runs (epochs time size l) t time := by
          obtain ⟨first, rest, hlast, hlt⟩ := hruns
          exact fun het => ⟨first, rest, hlast, hlt.trans het⟩
        rw [← ih, or_iff_left_of_imp hlow]
        obtain ⟨first, rest, hlast, hlt⟩ := hruns
        simp only [put, hlast, if_pos hlt, Runs, List.getLast?_append, List.getLast?_singleton, Option.some_or, Option.some_inj,
          List.cons_append, List.cons.injEq]
        constructor
        · rintro ⟨_, _, ⟨rfl, _⟩, hft⟩
          exact ⟨first, rest, ⟨rfl, rfl⟩, hft⟩
        · rintro ⟨_, _, ⟨rfl, _⟩, hft⟩
          exact ⟨first, rest ++ [e], ⟨rfl, rfl⟩, hft⟩
      · -- `e` is no later than all before it
        have hlow : (∃ a ∈ l, time a < t) → time e < t := by
          rintro ⟨a, ha, hat⟩
          refine lt_of_le_of_lt ?_ hat
          rw [ih] at hruns
          exact not_lt.mp fun hae => hruns ⟨a, ha, hae⟩
        rw [or_iff_right_of_imp hlow, put_of_not_runs hruns]
        simp [Runs]
    next hold =>
      have hlow : time e < t → ∃ a ∈ l, time a < t := by
        intro het
        rw [Fresh, not_forall] at hold
        obtain ⟨a, hold⟩ := hold
        rw [Classical.not_imp, not_not, Prod.mk.injEq] at hold
        exact ⟨a, hold.1, hold.2.1 ▸ het⟩
      rw [ih, or_iff_left_of_imp hlow]

theorem length_epochs (l : List α) : (epochs time size l).length = clocks time size l := by
  induction l using List.reverseRecOn with
  | nil => rfl
  | append_singleton l e ih =>
    classical
    rw [epochs_concat, clocks_concat, ← ih]
    by_cases hnew : Fresh time size l e
    · have hstarts : StartsClock time size l e ↔ ¬ Runs (epochs time size l) (time e) time := by
        rw [runs_epochs, StartsClock, and_iff_right hnew]
        push Not
        rfl
      rw [if_pos hnew, length_put]
      simp only [hstarts, ite_not]
    · have hstarts : ¬ StartsClock time size l e := fun h => hnew h.1
      rw [if_neg hnew, if_neg hstarts, Nat.add_zero]

theorem getD_epochs_concat {l : List α} {e : α} (hnew : Fresh time size l e) (i : Nat) :
    (epochs time size (l ++ [e])).getD i [] =
      (epochs time size l).getD i [] ++ if i + 1 = clocks time size (l ++ [e]) then [e] else [] := by
  rw [← length_epochs, epochs_concat, if_pos hnew, getD_put]

/-- The new elements are gathered by their clocks. -/
theorem mem_epochs {l : List α} {i : Nat} {x : α} : x ∈ (epochs time size l).getD i [] ↔ OnClock time size l i x := by
  induction l using List.reverseRecOn with
  | nil => simp [epochs, OnClock]
  | append_singleton l e ih =>
    rw [onClock_concat, ← ih]
    by_cases hnew : Fresh time size l e
    · rw [getD_epochs_concat hnew, List.mem_append, and_iff_right hnew]
      split
      next hclock => rw [List.mem_singleton, and_iff_left hclock.symm]
      next hclock => simp [Ne.symm hclock]
    · rw [epochs_concat, if_neg hnew]
      simp [hnew]

theorem flatten_epochs (l : List α) : (epochs time size l).flatten.Sublist l := by
  induction l using List.reverseRecOn with
  | nil => exact List.Sublist.refl []
  | append_singleton l e ih =>
    rw [epochs_concat]
    split
    · rw [flatten_put]
      exact ih.append (List.Sublist.refl [e])
    · exact ih.trans (List.sublist_append_left l [e])

theorem epochs_prefix (l more : List α) (i : Nat) : (epochs time size l).getD i [] <+: (epochs time size (l ++ more)).getD i [] := by
  induction more using List.reverseRecOn with
  | nil => rw [List.append_nil]
  | append_singleton more e ih =>
    refine ih.trans ?_
    rw [← List.append_assoc]
    by_cases hnew : Fresh time size (l ++ more) e
    · rw [getD_epochs_concat hnew]
      exact List.prefix_append _ _
    · rw [epochs_concat, if_neg hnew]

/-! ## The first of each time -/

theorem mem_of_onClock {l : List α} {i : Nat} {x : α} (h : OnClock time size l i x) : x ∈ l := by
  obtain ⟨before, after, rfl, -, -⟩ := h
  simp

omit [LinearOrder τ] [DecidableEq σ] in
theorem Fresh.not_mem {before : List α} {x : α} (h : Fresh time size before x) : x ∉ before := fun hx => h x hx rfl

theorem mem_firsts_of_onClock {before after : List α} {x : α} {i : Nat} (hnew : Fresh time size before x)
    (hclock : clocks time size (before ++ [x]) = i + 1) :
    x ∈ firsts time ((epochs time size (before ++ x :: after)).getD i []) ↔ ∀ g, OnClock time size before i g → time g ≠ time x := by
  obtain ⟨later, hlater⟩ : (epochs time size (before ++ [x])).getD i [] <+: (epochs time size (before ++ [x] ++ after)).getD i [] :=
    epochs_prefix (before ++ [x]) after i
  rw [List.append_assoc, List.singleton_append] at hlater
  rw [mem_firsts, ← hlater, getD_epochs_concat hnew, if_pos hclock.symm, List.append_assoc, List.find?_append]
  cases hfirst : ((epochs time size before).getD i []).find? fun b => decide (time b = time x) with
  | none =>
    rw [List.find?_eq_none] at hfirst
    simp only [mem_epochs, decide_eq_true_eq] at hfirst
    simpa using hfirst
  | some g =>
    have hg := mem_epochs.mp (List.mem_of_find?_eq_some hfirst)
    have htime : time g = time x := of_decide_eq_true (List.find?_some hfirst :)
    have hne : g ≠ x := by
      rintro rfl
      exact hnew.not_mem (mem_of_onClock hg)
    refine iff_of_false ?_ fun h => h g hg htime
    rw [Option.some_or, Option.some_inj]
    exact hne

theorem mem_firsts_epochs {l : List α} {i : Nat} {x : α} :
    x ∈ firsts time ((epochs time size l).getD i []) ↔ FirstOn time size l i x := by
  constructor
  · intro hx
    have hmem := (firsts_subperm _).subset hx
    obtain ⟨before, after, rfl, hnew, hclock⟩ := mem_epochs.mp hmem
    exact ⟨before, after, rfl, hnew, hclock, (mem_firsts_of_onClock hnew hclock).mp hx⟩
  · rintro ⟨before, after, rfl, hnew, hclock, hfirst⟩
    exact (mem_firsts_of_onClock hnew hclock).mpr hfirst

/-- Some element of each time on a clock is kept. -/
theorem exists_mem_firsts {l : List α} {i : Nat} {t : τ} :
    (∃ r ∈ firsts time ((epochs time size l).getD i []), time r = t) ↔ ∃ g, OnClock time size l i g ∧ time g = t := by
  constructor
  · rintro ⟨r, hr, rfl⟩
    exact ⟨r, mem_epochs.mp ((firsts_subperm _).subset hr), rfl⟩
  · rintro ⟨g, hg, rfl⟩
    have hg := mem_epochs.mpr hg
    cases hfirst : ((epochs time size l).getD i []).find? fun b => decide (time b = time g) with
    | none => simpa using List.find?_eq_none.mp hfirst g hg
    | some r =>
      have htime : time r = time g := of_decide_eq_true (List.find?_some hfirst :)
      refine ⟨r, mem_firsts.mpr ?_, htime⟩
      rw [htime, hfirst]

/-! ## What is kept -/

/-- The first of its time on some clock. -/
def Kept (time : α → τ) (size : α → σ) (l : List α) (x : α) : Prop := ∃ i, FirstOn time size l i x

theorem mem_map_firsts {l : List α} {x : α} : x ∈ ((epochs time size l).map (firsts time)).flatten ↔ Kept time size l x := by
  simp only [List.mem_flatten, List.mem_map, exists_exists_and_eq_and]
  constructor
  · rintro ⟨group, hgroup, hx⟩
    obtain ⟨i, hi, rfl⟩ := List.mem_iff_getElem.mp hgroup
    refine ⟨i, mem_firsts_epochs.mp ?_⟩
    rwa [List.getD_eq_getElem _ _ hi]
  · rintro ⟨i, hx⟩
    have hx := mem_firsts_epochs.mpr hx
    have hi : i < (epochs time size l).length := by
      by_contra hi
      rw [List.getD_eq_default _ _ (not_lt.mp hi)] at hx
      exact absurd ((firsts_subperm []).subset hx) List.not_mem_nil
    rw [List.getD_eq_getElem _ _ hi] at hx
    exact ⟨_, List.getElem_mem hi, hx⟩

theorem OnClock.lt {l : List α} {i : Nat} {x : α} (h : OnClock time size l i x) : i < clocks time size l := by
  have hx := mem_epochs.mpr h
  rw [← length_epochs]
  by_contra hi
  rw [List.getD_eq_default _ _ (not_lt.mp hi)] at hx
  exact List.not_mem_nil hx

theorem clocks_pos {l : List α} {a : α} (ha : a ∈ l) : 0 < clocks time size l := by
  cases l with
  | nil => cases ha
  | cons b l =>
    have hclock : clocks time size [b] = 0 + 1 := by simp [clocks, clocksBack, StartsClock, Fresh]
    exact OnClock.lt ⟨[], l, rfl, fun _ h => absurd h List.not_mem_nil, hclock⟩

theorem Kept.mem {l : List α} {x : α} (h : Kept time size l x) : x ∈ l := by
  obtain ⟨i, before, after, rfl, -⟩ := h
  simp

/-- A new element is kept, or another of its time on the clock that runs. -/
theorem kept_or_beside {before : List α} {e : α} (hnew : Fresh time size before e) (after : List α) :
    Kept time size (before ++ e :: after) e ∨
      (∃ a ∈ before, time a < time e) ∧ ∃ i, clocks time size before = i + 1 ∧
        ∃ r ∈ firsts time ((epochs time size (before ++ e :: after)).getD i []), r ≠ e ∧ time r = time e := by
  by_cases hstarts : StartsClock time size before e
  · have hclock : clocks time size (before ++ [e]) = clocks time size before + 1 := by rw [clocks_concat, if_pos hstarts]
    exact .inl ⟨_, before, after, rfl, hnew, hclock, fun g hg => absurd hg.lt (lt_irrefl _)⟩
  · have hlater : ∃ a ∈ before, time a < time e := by
      rw [StartsClock, and_iff_right hnew] at hstarts
      push Not at hstarts
      exact hstarts
    have ⟨a, ha, _⟩ := hlater
    have hpos : 0 < clocks time size before := clocks_pos ha
    obtain ⟨i, hi⟩ := Nat.exists_eq_add_one_of_ne_zero hpos.ne'
    have hclock : clocks time size (before ++ [e]) = i + 1 := by rw [clocks_concat, if_neg hstarts, Nat.add_zero, hi]
    have hon : OnClock time size (before ++ e :: after) i e := ⟨before, after, rfl, hnew, hclock⟩
    obtain ⟨r, hr, htime⟩ := exists_mem_firsts.mpr ⟨e, hon, rfl⟩
    rcases eq_or_ne r e with rfl | hne
    · exact .inl ⟨i, mem_firsts_epochs.mp hr⟩
    · exact .inr ⟨hlater, i, hi, r, hr, hne, htime⟩

omit [LinearOrder τ] [DecidableEq σ] in
theorem eq_before_of_nodup {before after before' after' : List α} {x : α} (hnodup : (before ++ x :: after).Nodup)
    (h : before ++ x :: after = before' ++ x :: after') : before = before' ∧ after = after' := by
  have hnodup' := hnodup
  rw [h] at hnodup'
  have hx := (List.nodup_cons.mp (List.nodup_middle.mp hnodup)).1
  have hx' := (List.nodup_cons.mp (List.nodup_middle.mp hnodup')).1
  rw [List.mem_append, not_or] at hx hx'
  obtain ⟨hbefore, -, hafter⟩ := (List.append_cons_inj_of_notMem hx'.1 hx'.2).mp h.symm
  exact ⟨hbefore.symm, hafter.symm⟩

theorem not_kept_of_not_fresh {before after : List α} {e : α} (hnodup : (before ++ e :: after).Nodup)
    (hold : ¬ Fresh time size before e) : ¬ Kept time size (before ++ e :: after) e := by
  rintro ⟨i, before', after', hl, hnew, -⟩
  obtain ⟨rfl, -⟩ := eq_before_of_nodup hnodup hl
  exact hold hnew

theorem kept_append {before : List α} {x : α} (hx : x ∈ before) {more : List α} (hnodup : (before ++ more).Nodup) :
    Kept time size (before ++ more) x ↔ Kept time size before x := by
  constructor
  · rintro ⟨i, before', after', hl, hrest⟩
    obtain ⟨front, back, rfl⟩ := List.append_of_mem hx
    rw [List.append_assoc, List.cons_append] at hl hnodup
    obtain ⟨rfl, -⟩ := eq_before_of_nodup hnodup hl
    exact ⟨i, front, back, rfl, hrest⟩
  · rintro ⟨i, front, back, rfl, hrest⟩
    exact ⟨i, front, back ++ more, by simp, hrest⟩

end

end Weft
