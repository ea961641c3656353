import Hyperfetch.Storage.Blocks

/-!
# The set of written ranges (`add`, `covers`, `written_prefix`)

The ranges that a new one does not reach lie in front of those it touches, or behind them
(`exists_split`), so `add` puts one range in the place of all it touches. `Form` is what
the set keeps through that (`form_add`), and `Holds` what it stands for (`holds_add`).
-/

namespace Hyperfetch.Storage

/-- Sorted, pairwise disjoint and not touching. -/
structure Form (set : List (Nat × Nat)) : Prop where
  spans : ∀ r ∈ set, r.1 ≤ r.2
  apart : set.Pairwise fun a b => a.2 < b.1

/-- The byte `b` is in a range of the set. -/
def Holds (set : List (Nat × Nat)) (b : Nat) : Prop := ∃ r ∈ set, r.1 ≤ b ∧ b < r.2

theorem form_nil : Form [] := ⟨fun _ hr => absurd hr List.not_mem_nil, List.Pairwise.nil⟩

theorem holds_append {front back : List (Nat × Nat)} {b : Nat} : Holds (front ++ back) b ↔ Holds front b ∨ Holds back b := by
  simp only [Holds, List.mem_append, or_and_right, exists_or]

theorem holds_cons {r : Nat × Nat} {back : List (Nat × Nat)} {b : Nat} :
    Holds (r :: back) b ↔ (r.1 ≤ b ∧ b < r.2) ∨ Holds back b := by
  simp only [Holds, List.mem_cons, or_and_right, exists_or, exists_eq_left]

/-- A part of the set has the form too. -/
theorem Form.sublist {set part : List (Nat × Nat)} (h : Form set) (hpart : part.Sublist set) : Form part :=
  ⟨fun r hr => h.spans r (hpart.subset hr), h.apart.sublist hpart⟩

/-! ## Where the search stops -/

theorem partitionPoint_append {front back : List (Nat × Nat)} {p : Nat × Nat → Bool} (hfront : ∀ r ∈ front, p r = true)
    (hback : ∀ r ∈ back, p r = false) : partitionPoint (front ++ back) p = front.length := by
  have hnone : back.takeWhile p = [] := by
    cases back with
    | nil => rfl
    | cons r back => rw [List.takeWhile_cons_of_neg (by rw [hback r List.mem_cons_self]; exact Bool.false_ne_true)]
  rw [partitionPoint, List.takeWhile_append_of_pos hfront, hnone, List.append_nil]

/-- A condition that holds of no range behind one it fails for. -/
theorem exists_partition {set : List (Nat × Nat)} (h : Form set) {p : Nat × Nat → Bool}
    (hp : ∀ a b, a.1 ≤ a.2 → a.2 < b.1 → b.1 ≤ b.2 → p b = true → p a = true) :
    ∃ front back, set = front ++ back ∧ (∀ r ∈ front, p r = true) ∧ ∀ r ∈ back, p r = false := by
  induction set with
  | nil => exact ⟨[], [], rfl, by simp, by simp⟩
  | cons a set ih =>
    obtain ⟨hfirst, -⟩ := List.pairwise_cons.mp h.apart
    cases ha : p a with
    | true =>
      obtain ⟨front, back, rfl, hfront, hback⟩ := ih (h.sublist (List.sublist_cons_self a set))
      exact ⟨a :: front, back, rfl, List.forall_mem_cons.mpr ⟨ha, hfront⟩, hback⟩
    | false =>
      refine ⟨[], a :: set, rfl, by simp, List.forall_mem_cons.mpr ⟨ha, fun b hb => ?_⟩⟩
      have hspan := h.spans a List.mem_cons_self
      have hspan' := h.spans b (List.mem_cons_of_mem a hb)
      cases hpb : p b with
      | false => rfl
      | true => exact absurd (hp a b hspan (hfirst b hb) hspan' hpb) (by rw [ha]; exact Bool.false_ne_true)

/-- The ranges in front of a new one, those it touches and those behind it. -/
structure Split (set : List (Nat × Nat)) (range : Nat × Nat) (front touched back : List (Nat × Nat)) : Prop where
  eq : set = front ++ (touched ++ back)
  before : ∀ r ∈ front, r.2 < range.1
  touches : ∀ r ∈ touched, range.1 ≤ r.2 ∧ r.1 ≤ range.2
  behind : ∀ r ∈ back, range.2 < r.1

theorem exists_split {set : List (Nat × Nat)} (h : Form set) (range : Nat × Nat) :
    ∃ front touched back, Split set range front touched back := by
  obtain ⟨front, rest, rfl, hfront, hrest⟩ := exists_partition h (p := fun r => decide (r.2 < range.1)) (by
    intro a b ha hab hb hp
    rw [decide_eq_true_eq] at *
    omega)
  obtain ⟨touched, back, rfl, htouched, hback⟩ := exists_partition (h.sublist (List.sublist_append_right front rest))
    (p := fun r => decide (r.1 ≤ range.2)) (by
    intro a b ha hab hb hp
    rw [decide_eq_true_eq] at *
    omega)
  refine ⟨front, touched, back, rfl, fun r hr => ?_, fun r hr => ⟨?_, ?_⟩, fun r hr => ?_⟩
  · exact of_decide_eq_true (hfront r hr)
  · exact Nat.not_lt.mp (of_decide_eq_false (hrest r (List.mem_append_left back hr)))
  · exact of_decide_eq_true (htouched r hr)
  · exact Nat.not_le.mp (of_decide_eq_false (hback r hr))

/-! ## One range in the place of those it touches -/

section

variable {set : List (Nat × Nat)} {range : Nat × Nat} {front touched back : List (Nat × Nat)}

theorem getD_last {l : List (Nat × Nat)} (hne : l ≠ []) (back : List (Nat × Nat)) (d : Nat × Nat) :
    (l ++ back).getD (l.length - 1) d = l.getLast hne := by
  have hlt : l.length - 1 < l.length := Nat.sub_lt (List.length_pos_iff.mpr hne) Nat.one_pos
  rw [List.getD, List.getElem?_append_left hlt, List.getElem?_eq_getElem hlt, Option.getD_some, List.getLast_eq_getElem]

/-- The range made one with all it touches. -/
def joined (range : Nat × Nat) : List (Nat × Nat) → Nat × Nat
  | [] => range
  | t :: more => (min range.1 t.1, max range.2 ((t :: more).getLast (List.cons_ne_nil t more)).2)

theorem add_split (hs : Split set range front touched back) (hform : Form set) (hrange : range.1 ≤ range.2) :
    add set range = front ++ joined range touched :: back := by
  have hfirst : partitionPoint set (fun r => decide (r.2 < range.1)) = front.length := by
    rw [hs.eq]
    refine partitionPoint_append (fun r hr => decide_eq_true (hs.before r hr)) fun r hr => decide_eq_false ?_
    rcases List.mem_append.mp hr with hr | hr
    · exact Nat.not_lt.mpr (hs.touches r hr).1
    · have hlate := hs.behind r hr
      have hspan := hform.spans r (by rw [hs.eq]; simp [hr])
      omega
  have hlast : partitionPoint set (fun r => decide (r.1 ≤ range.2)) = (front ++ touched).length := by
    rw [hs.eq, ← List.append_assoc]
    refine partitionPoint_append (fun r hr => decide_eq_true ?_) fun r hr => decide_eq_false (Nat.not_le.mpr (hs.behind r hr))
    rcases List.mem_append.mp hr with hr | hr
    · have hearly := hs.before r hr
      have hspan := hform.spans r (by rw [hs.eq]; simp [hr])
      omega
    · exact (hs.touches r hr).2
  have htake : set.take front.length = front := by rw [hs.eq, List.take_left]
  have hdrop : set.drop (front ++ touched).length = back := by rw [hs.eq, ← List.append_assoc, List.drop_left]
  rw [add, hfirst, hlast, htake, hdrop]
  congr 2
  cases touched with
  | nil => rw [List.append_nil, if_neg (Nat.lt_irrefl _), joined]
  | cons t more =>
    have hfirst' : set.getD front.length (0, 0) = t := by rw [hs.eq]; simp [List.getD]
    have hlast' : set.getD ((front ++ t :: more).length - 1) (0, 0) = (t :: more).getLast (List.cons_ne_nil t more) := by
      rw [hs.eq, ← List.append_assoc, getD_last (by simp), List.getLast_append_of_ne_nil]
    rw [if_pos (by simp), hfirst', hlast', joined]

/-- The joined range ends where the range does, or the first or last that it touches. -/
theorem joined_ends (hform : Form touched) :
    ((joined range touched).1 ≤ range.1 ∧ ∀ r ∈ touched, (joined range touched).1 ≤ r.1) ∧
      (range.2 ≤ (joined range touched).2 ∧ ∀ r ∈ touched, r.2 ≤ (joined range touched).2) ∧
      ((joined range touched).1 = range.1 ∨ ∃ r ∈ touched, r.1 = (joined range touched).1) ∧
      ((joined range touched).2 = range.2 ∨ ∃ r ∈ touched, r.2 = (joined range touched).2) := by
  cases touched with
  | nil => simp [joined]
  | cons t more =>
    have hlast : (t :: more).getLast (List.cons_ne_nil t more) ∈ t :: more := List.getLast_mem _
    have hstarts : ∀ r ∈ t :: more, t.1 ≤ r.1 := by
      refine List.forall_mem_cons.mpr ⟨Nat.le_refl _, fun r hr => ?_⟩
      have hspan := hform.spans t List.mem_cons_self
      have hapart := (List.pairwise_cons.mp hform.apart).1 r hr
      omega
    have hstops : ∀ r ∈ t :: more, r.2 ≤ ((t :: more).getLast (List.cons_ne_nil t more)).2 := by
      have hordered : (t :: more).Pairwise fun a b => a.2 ≤ b.2 :=
        hform.apart.imp_of_mem fun {a b} _ hb hab => (Nat.le_of_lt hab).trans (hform.spans b hb)
      exact fun r hr => hordered.rel_getLast_of_rel_getLast_getLast hr (Nat.le_refl _)
    rw [joined]
    generalize (t :: more).getLast (List.cons_ne_nil t more) = last at hlast hstops
    refine ⟨⟨Nat.min_le_left _ _, fun r hr => ?_⟩, ⟨Nat.le_max_left _ _, fun r hr => ?_⟩, ?_, ?_⟩
    · exact (Nat.min_le_right _ _).trans (hstarts r hr)
    · exact (hstops r hr).trans (Nat.le_max_right _ _)
    · rcases Nat.le_total range.1 t.1 with h | h
      · exact .inl (Nat.min_eq_left h)
      · exact .inr ⟨t, List.mem_cons_self, (Nat.min_eq_right h).symm⟩
    · rcases Nat.le_total last.2 range.2 with h | h
      · exact .inl (Nat.max_eq_left h)
      · exact .inr ⟨last, hlast, (Nat.max_eq_right h).symm⟩

theorem form_add (hform : Form set) (range : Nat × Nat) (hrange : range.1 ≤ range.2) : Form (add set range) := by
  obtain ⟨front, touched, back, hs⟩ := exists_split hform range
  have hfront : Form front := hform.sublist (by rw [hs.eq]; exact List.sublist_append_left _ _)
  have hrest : Form (touched ++ back) := hform.sublist (by rw [hs.eq]; exact List.sublist_append_right _ _)
  have htouched : Form touched := hrest.sublist (List.sublist_append_left _ _)
  have hback : Form back := hrest.sublist (List.sublist_append_right _ _)
  have hacross := (List.pairwise_append.mp (hs.eq ▸ hform.apart)).2.2
  have hacross' := (List.pairwise_append.mp hrest.apart).2.2
  obtain ⟨⟨hstart, -⟩, ⟨hstop, -⟩, hfirst, hlast⟩ := @joined_ends range _ htouched
  rw [add_split hs hform hrange]
  refine ⟨fun r hr => ?_, List.pairwise_append.mpr ⟨hfront.apart, List.pairwise_cons.mpr ⟨fun r hr => ?_, hback.apart⟩, ?_⟩⟩
  · rcases List.mem_append.mp hr with hr | hr
    · exact hfront.spans r hr
    · rcases List.mem_cons.mp hr with rfl | hr
      · exact hstart.trans (hrange.trans hstop)
      · exact hback.spans r hr
  · -- what is behind the range is behind all it touches
    rcases hlast with hlast | ⟨t, ht, hlast⟩
    · rw [hlast]
      exact hs.behind r hr
    · rw [← hlast]
      exact hacross' t ht r hr
  · intro a ha b hb
    rcases List.mem_cons.mp hb with rfl | hb
    · rcases hfirst with hfirst | ⟨t, ht, hfirst⟩
      · rw [hfirst]
        exact hs.before a ha
      · rw [← hfirst]
        exact hacross a ha t (List.mem_append_left back ht)
    · exact hacross a ha b (List.mem_append_right touched hb)

theorem holds_joined (hs : Split set range front touched back) (htouched : Form touched) {b : Nat} :
    ((joined range touched).1 ≤ b ∧ b < (joined range touched).2) ↔ (range.1 ≤ b ∧ b < range.2) ∨ Holds touched b := by
  obtain ⟨⟨hstart, hstarts⟩, ⟨hstop, hstops⟩, hfirst, hlast⟩ := @joined_ends range _ htouched
  constructor
  · rintro ⟨hle, hlt⟩
    by_cases hin : range.1 ≤ b ∧ b < range.2
    · exact .inl hin
    · right
      rcases Nat.lt_or_ge b range.1 with hbefore | hafter
      · rcases hfirst with hfirst | ⟨t, ht, hfirst⟩
        · omega
        · have htouch := hs.touches t ht
          exact ⟨t, ht, by omega, by omega⟩
      · rcases hlast with hlast | ⟨t, ht, hlast⟩
        · omega
        · have htouch := hs.touches t ht
          exact ⟨t, ht, by omega, by omega⟩
  · rintro (hin | ⟨t, ht, hin⟩)
    · omega
    · have hts := hstarts t ht
      have hte := hstops t ht
      omega

theorem holds_add (hform : Form set) (hrange : range.1 ≤ range.2) {b : Nat} :
    Holds (add set range) b ↔ Holds set b ∨ (range.1 ≤ b ∧ b < range.2) := by
  obtain ⟨front, touched, back, hs⟩ := exists_split hform range
  have hrest : Form (touched ++ back) := hform.sublist (by rw [hs.eq]; exact List.sublist_append_right _ _)
  have htouched : Form touched := hrest.sublist (List.sublist_append_left _ _)
  rw [add_split hs hform hrange, holds_append, holds_cons, holds_joined hs htouched, hs.eq, holds_append, holds_append]
  tauto

end

/-! ## What the set is asked -/

/-- Two ranges of one byte are one. -/
theorem Form.eq_of_holds {set : List (Nat × Nat)} (h : Form set) {r s : Nat × Nat} (hr : r ∈ set) (hs : s ∈ set) {b : Nat}
    (hrb : r.1 ≤ b ∧ b ≤ r.2) (hsb : s.1 ≤ b ∧ b ≤ s.2) : r = s := by
  by_contra hne
  have hapart : r.2 < s.1 ∨ s.2 < r.1 := by
    obtain ⟨i, hi, rfl⟩ := List.getElem_of_mem hr
    obtain ⟨j, hj, rfl⟩ := List.getElem_of_mem hs
    rcases Nat.lt_trichotomy i j with hlt | rfl | hgt
    · exact .inl (List.pairwise_iff_getElem.mp h.apart i j hi hj hlt)
    · exact absurd rfl hne
    · exact .inr (List.pairwise_iff_getElem.mp h.apart j i hj hi hgt)
  omega

/-- All of a range is held if and only if one range of the set holds it. -/
theorem holds_all_iff {set : List (Nat × Nat)} (h : Form set) {start stop : Nat} (hlt : start < stop) :
    (∀ b, start ≤ b → b < stop → Holds set b) ↔ ∃ r ∈ set, r.1 ≤ start ∧ stop ≤ r.2 := by
  constructor
  · intro hall
    obtain ⟨r, hr, hle, hin⟩ := hall start (Nat.le_refl start) hlt
    refine ⟨r, hr, hle, Nat.not_lt.mp fun hshort => ?_⟩
    -- the range that holds the byte behind `r` touches `r`
    obtain ⟨s, hs, hsle, hslt⟩ := hall r.2 (Nat.le_of_lt hin) hshort
    have hsame : r = s := h.eq_of_holds hr hs ⟨by omega, Nat.le_refl _⟩ ⟨hsle, Nat.le_of_lt hslt⟩
    subst hsame
    exact Nat.lt_irrefl _ hslt
  · rintro ⟨r, hr, hle, hge⟩ b hb hb'
    exact ⟨r, hr, hle.trans hb, Nat.lt_of_lt_of_le hb' hge⟩

theorem covers_iff {set : List (Nat × Nat)} (h : Form set) {start stop : Nat} (hlt : start < stop) :
    covers set start stop = true ↔ ∀ b, start ≤ b → b < stop → Holds set b := by
  obtain ⟨front, back, rfl, hfront, hback⟩ := exists_partition h (p := fun r => decide (r.1 ≤ start)) (by
    intro a b ha hab hb hp
    rw [decide_eq_true_eq] at *
    omega)
  rw [holds_all_iff h hlt, covers, partitionPoint_append hfront hback, decide_eq_true_eq]
  rcases eq_or_ne front [] with rfl | hne
  · refine iff_of_false (fun hpos => Nat.lt_irrefl 0 hpos.1) ?_
    rintro ⟨r, hr, hle, -⟩
    exact of_decide_eq_false (hback r hr) hle
  · rw [getD_last hne, and_iff_right (List.length_pos_iff.mpr hne)]
    have hlast := List.getLast_mem hne
    have hspans : ∀ r ∈ front, r.1 ≤ r.2 := fun r hr => h.spans r (List.mem_append_left back hr)
    have hordered : front.Pairwise fun a b => a.2 ≤ b.2 :=
      (List.pairwise_append.mp h.apart).1.imp_of_mem fun {a b} _ hb hab => (Nat.le_of_lt hab).trans (hspans b hb)
    constructor
    · intro hstop
      exact ⟨_, List.mem_append_left back hlast, of_decide_eq_true (hfront _ hlast), hstop⟩
    · rintro ⟨r, hr, hle, hstop⟩
      rcases List.mem_append.mp hr with hr | hr
      · exact hstop.trans (hordered.rel_getLast_of_rel_getLast_getLast hr (Nat.le_refl _))
      · exact absurd hle (of_decide_eq_false (hback r hr))

theorem writtenPrefix_iff {set : List (Nat × Nat)} (h : Form set) {n : Nat} :
    n ≤ writtenPrefix set ↔ ∀ b < n, Holds set b := by
  rcases Nat.eq_zero_or_pos n with rfl | hpos
  · exact iff_of_true (Nat.zero_le _) fun b hb => absurd hb (Nat.not_lt_zero b)
  · have hall : (∀ b < n, Holds set b) ↔ ∃ r ∈ set, r.1 ≤ 0 ∧ n ≤ r.2 := by
      rw [← holds_all_iff h hpos]
      simp
    rw [hall]
    cases set with
    | nil => simp [writtenPrefix, hpos.ne']
    | cons r set =>
      have hlater : ∀ s ∈ set, 0 < s.1 := fun s hs => Nat.lt_of_le_of_lt (Nat.zero_le _) ((List.pairwise_cons.mp h.apart).1 s hs)
      have hfirst : (∃ s ∈ r :: set, s.1 ≤ 0 ∧ n ≤ s.2) ↔ r.1 = 0 ∧ n ≤ r.2 := by
        constructor
        · rintro ⟨s, hs, hzero, hn⟩
          rcases List.mem_cons.mp hs with rfl | hs
          · exact ⟨Nat.le_zero.mp hzero, hn⟩
          · exact absurd (hlater s hs) (Nat.not_lt.mpr hzero)
        · rintro ⟨hzero, hn⟩
          exact ⟨r, List.mem_cons_self, hzero.le, hn⟩
      rw [hfirst, writtenPrefix, List.head?_cons, Option.filter_some]
      by_cases hzero : r.1 = 0
      · simp [hzero]
      · simp [hzero]
        omega

/-! ## Over a run of adds -/

/-- The set after some ranges were added to none. -/
def addAll (added : List (Nat × Nat)) : List (Nat × Nat) := added.foldl add []

theorem addAll_concat (added : List (Nat × Nat)) (range : Nat × Nat) : addAll (added ++ [range]) = add (addAll added) range := by
  rw [addAll, List.foldl_append]
  rfl

theorem form_addAll {added : List (Nat × Nat)} (h : ∀ r ∈ added, r.1 ≤ r.2) : Form (addAll added) := by
  induction added using List.reverseRecOn with
  | nil => exact form_nil
  | append_singleton added range ih =>
    rw [addAll_concat]
    exact form_add (ih fun r hr => h r (List.mem_append_left _ hr)) range (h range (by simp))

theorem holds_addAll {added : List (Nat × Nat)} (h : ∀ r ∈ added, r.1 ≤ r.2) {b : Nat} :
    Holds (addAll added) b ↔ Holds added b := by
  induction added using List.reverseRecOn with
  | nil => rfl
  | append_singleton added range ih =>
    have hadded : ∀ r ∈ added, r.1 ≤ r.2 := fun r hr => h r (List.mem_append_left _ hr)
    rw [addAll_concat, holds_add (form_addAll hadded) (h range (by simp)), ih hadded, holds_append, holds_cons]
    simp [Holds]

/-- Ranges with a byte each make ranges with a byte each. -/
theorem nonempty_add {set : List (Nat × Nat)} (hform : Form set) (hset : ∀ r ∈ set, r.1 < r.2) {range : Nat × Nat}
    (hrange : range.1 < range.2) : ∀ r ∈ add set range, r.1 < r.2 := by
  obtain ⟨front, touched, back, hs⟩ := exists_split hform range
  have hrest : Form (touched ++ back) := hform.sublist (by rw [hs.eq]; exact List.sublist_append_right _ _)
  obtain ⟨⟨hstart, -⟩, ⟨hstop, -⟩, -⟩ := @joined_ends range _ (hrest.sublist (List.sublist_append_left _ _))
  rw [add_split hs hform hrange.le]
  intro r hr
  rcases List.mem_append.mp hr with hr | hr
  · exact hset r (by rw [hs.eq]; exact List.mem_append_left _ hr)
  · rcases List.mem_cons.mp hr with rfl | hr
    · omega
    · exact hset r (by rw [hs.eq]; simp [hr])

theorem nonempty_addAll {added : List (Nat × Nat)} (h : ∀ r ∈ added, r.1 < r.2) : ∀ r ∈ addAll added, r.1 < r.2 := by
  induction added using List.reverseRecOn with
  | nil => exact fun r hr => absurd hr List.not_mem_nil
  | append_singleton added range ih =>
    have hadded : ∀ r ∈ added, r.1 < r.2 := fun r hr => h r (List.mem_append_left _ hr)
    rw [addAll_concat]
    exact nonempty_add (form_addAll fun r hr => (hadded r hr).le) (ih hadded) (h range (by simp))

/-- After any adds of ranges with a byte each, the set has its form, holds what was added,
and answers by that. -/
theorem written_set_form (added : List (Nat × Nat)) (h : ∀ r ∈ added, r.1 < r.2) :
    (addAll added).Pairwise (fun a b => a.2 < b.1) ∧ (∀ r ∈ addAll added, r.1 < r.2) ∧
      (∀ b, Holds (addAll added) b ↔ Holds added b) ∧
      (∀ start stop, start < stop → (covers (addAll added) start stop = true ↔ ∀ b, start ≤ b → b < stop → Holds added b)) ∧
      ∀ n, n ≤ writtenPrefix (addAll added) ↔ ∀ b < n, Holds added b := by
  have hspans : ∀ r ∈ added, r.1 ≤ r.2 := fun r hr => (h r hr).le
  have hform := form_addAll hspans
  refine ⟨hform.apart, nonempty_addAll h, fun b => holds_addAll hspans, fun start stop hlt => ?_, fun n => ?_⟩
  · rw [covers_iff hform hlt]
    simp only [holds_addAll hspans]
  · rw [writtenPrefix_iff hform]
    simp only [holds_addAll hspans]

theorem written_set_form_touching : addAll [(4, 6), (0, 2), (2, 4)] = [(0, 6)] ∧
    ∀ n, n ≤ writtenPrefix (addAll [(4, 6), (0, 2), (2, 4)]) ↔ ∀ b < n, Holds [(4, 6), (0, 2), (2, 4)] b :=
  ⟨by decide, (written_set_form [(4, 6), (0, 2), (2, 4)] (by decide)).2.2.2.2⟩

/-- An empty range that is added is in the set as it is. -/
theorem empty_range_kept : ¬ ∀ r ∈ addAll [(5, 5)], r.1 < r.2 := by decide

end Hyperfetch.Storage
