import Mathlib.Data.List.Infix
import Mathlib.Tactic

/-!
# Marks and stretches

`findMark` cuts a text before the first place where a mark stands. `mapStretches`
treats each stretch of a text between characters of a kind on its own; every
function that such characters cut in two is of that form (`eq_mapStretches`).
Texts between gaps are told apart by what the gaps are made of (`flatMap_gaps_inj`).
-/

namespace Weft

section Find

variable {α : Type*} [DecidableEq α] {mark : List α}

/-- What is before the first place of `mark`, and the text from there on. -/
def findMark (mark : List α) : List α → Option (List α × List α)
  | [] => none
  | c :: rest =>
    if mark <+: c :: rest then some ([], c :: rest) else (findMark mark rest).map fun cut => (c :: cut.1, cut.2)

theorem findMark_eq_some {text front back : List α} (h : findMark mark text = some (front, back)) :
    text = front ++ back ∧ mark <+: back := by
  induction text generalizing front with
  | nil => cases h
  | cons c rest ih =>
    unfold findMark at h
    split at h
    next hhere =>
      cases h
      exact ⟨rfl, hhere⟩
    next =>
      obtain ⟨⟨front', back'⟩, hrest, hcut⟩ := Option.map_eq_some_iff.mp h
      obtain ⟨rfl, rfl⟩ := Prod.mk.inj hcut
      obtain ⟨rfl, hmark⟩ := ih hrest
      exact ⟨rfl, hmark⟩

theorem findMark_eq_none (hne : mark ≠ []) {text : List α} : findMark mark text = none ↔ ¬mark <:+: text := by
  induction text with
  | nil => simpa [findMark] using hne
  | cons c rest ih =>
    unfold findMark
    rw [List.infix_cons_iff, not_or]
    split
    next hhere => simp [hhere]
    next hhere =>
      rw [Option.map_eq_none_iff, ih]
      exact ⟨fun h => ⟨hhere, h⟩, fun h => h.2⟩

/-- More text behind the mark does not move its first place. -/
theorem findMark_append {text front back : List α} (h : findMark mark text = some (front, back)) (more : List α) :
    findMark mark (text ++ more) = some (front, back ++ more) := by
  induction text generalizing front with
  | nil => cases h
  | cons c rest ih =>
    unfold findMark at h
    rw [List.cons_append, findMark]
    split at h
    next hhere =>
      cases h
      exact if_pos (hhere.trans (List.prefix_append (c :: rest) more))
    next hnot =>
      obtain ⟨⟨front', back'⟩, hrest, hcut⟩ := Option.map_eq_some_iff.mp h
      obtain ⟨rfl, rfl⟩ := Prod.mk.inj hcut
      rw [if_neg, ih hrest]
      · rfl
      · intro hhere
        -- the mark stands in `rest`, so it would stand here too
        obtain ⟨rfl, hmark⟩ := findMark_eq_some hrest
        have hlen := hmark.length_le
        refine hnot (List.prefix_of_prefix_length_le hhere (List.prefix_append (c :: (front' ++ back')) more) ?_)
        rw [List.length_cons, List.length_append]
        omega

/-- Nor does text before a character that is not of the mark. -/
theorem findMark_append_cons {text : List α} {c : α} (hne : mark ≠ []) (hc : c ∉ mark) (h : findMark mark text = none)
    (more : List α) :
    findMark mark (text ++ c :: more) = (findMark mark more).map fun cut => (text ++ c :: cut.1, cut.2) := by
  induction text with
  | nil =>
    show findMark mark (c :: more) = _
    rw [findMark, if_neg]
    · rfl
    · intro hhere
      cases mark with
      | nil => exact hne rfl
      | cons d mark =>
        obtain ⟨rfl, -⟩ := List.cons_prefix_cons.mp hhere
        exact hc List.mem_cons_self
  | cons d rest ih =>
    unfold findMark at h
    split at h
    next => cases h
    next hnot =>
      rw [List.cons_append, findMark, if_neg, ih (Option.map_eq_none_iff.mp h)]
      · cases findMark mark more with
        | none => rfl
        | some cut => rfl
      · intro hhere
        have hstop : d :: rest ++ [c] <+: d :: (rest ++ c :: more) := ⟨more, by simp⟩
        -- a mark that stands here ends before `c`, or holds it
        rcases List.prefix_or_prefix_of_prefix hhere hstop with hmark | hmark
        · rcases List.prefix_concat_iff.mp hmark with rfl | hmark
          · exact hc (by simp)
          · exact hnot hmark
        · exact hc (hmark.subset (by simp))

/-- The mark does not start before its first character does. -/
theorem findMark_of_not_mem {d : α} {front back : List α} (hfront : d ∉ front) (hback : d :: mark <+: back) :
    findMark (d :: mark) (front ++ back) = some (front, back) := by
  induction front with
  | nil =>
    cases back with
    | nil => exact absurd (List.prefix_nil.mp hback) (List.cons_ne_nil d mark)
    | cons c rest => exact if_pos hback
  | cons c front ih =>
    rw [List.cons_append, findMark, if_neg, ih fun h => hfront (List.mem_cons_of_mem c h)]
    · rfl
    · intro hhere
      obtain ⟨rfl, -⟩ := List.cons_prefix_cons.mp hhere
      exact hfront List.mem_cons_self

/-- No mark lies before the first one. -/
theorem not_infix_of_findMark (hne : mark ≠ []) {text front back : List α} (h : findMark mark text = some (front, back)) :
    ¬mark <:+: front := by
  obtain ⟨rfl, -⟩ := findMark_eq_some h
  cases hfront : findMark mark front with
  | none => exact (findMark_eq_none hne).mp hfront
  | some cut =>
    -- then the mark would be found sooner
    obtain ⟨x, y⟩ := cut
    rw [findMark_append hfront back] at h
    obtain ⟨rfl, -⟩ := Prod.mk.inj (Option.some.inj h)
    obtain ⟨hcut, hmark⟩ := findMark_eq_some hfront
    have hnil : y = [] := by simpa using hcut
    subst hnil
    exact absurd (List.prefix_nil.mp hmark) hne

end Find

section Stretches

variable {α : Type*} {p : α → Bool}

/-- `f` on every stretch between characters with `p`; `stretch` is the one being read. -/
def mapStretches (p : α → Bool) (f : List α → List α) (stretch : List α) : List α → List α
  | [] => f stretch
  | c :: rest => if p c then f stretch ++ c :: mapStretches p f [] rest else mapStretches p f (stretch ++ [c]) rest

theorem eq_mapStretches_from {F f : List α → List α} (hplain : ∀ s, (∀ c ∈ s, p c = false) → F s = f s)
    (hcut : ∀ a c b, p c = true → F (a ++ c :: b) = F a ++ c :: F b) {stretch : List α}
    (hstretch : ∀ c ∈ stretch, p c = false) (text : List α) :
    F (stretch ++ text) = mapStretches p f stretch text := by
  induction text generalizing stretch with
  | nil => rw [List.append_nil, mapStretches, hplain stretch hstretch]
  | cons c rest ih =>
    unfold mapStretches
    split
    next hc =>
      have hrest := ih fun c hc => absurd hc List.not_mem_nil
      rw [hcut stretch c rest hc, hplain stretch hstretch, ← hrest, List.nil_append]
    next hc =>
      rw [← ih, List.append_assoc, List.singleton_append]
      intro d hd
      rcases List.mem_append.mp hd with hd | hd
      · exact hstretch d hd
      · rw [List.mem_singleton.mp hd]
        exact Bool.eq_false_iff.mpr hc

/-- A function that characters with `p` cut in two treats each stretch on its own. -/
theorem eq_mapStretches {F f : List α → List α} (hplain : ∀ s, (∀ c ∈ s, p c = false) → F s = f s)
    (hcut : ∀ a c b, p c = true → F (a ++ c :: b) = F a ++ c :: F b) (text : List α) :
    F text = mapStretches p f [] text :=
  eq_mapStretches_from hplain hcut (fun _ hc => absurd hc List.not_mem_nil) text

/-- Two texts without `p` before the same rest, which starts with `p`, are the same. -/
theorem append_inj_of_stop {a a' b b' : List α} (ha : ∀ c ∈ a, p c = false) (ha' : ∀ c ∈ a', p c = false)
    (hb : ∀ c, b.head? = some c → p c = true) (hb' : ∀ c, b'.head? = some c → p c = true) (h : a ++ b = a' ++ b') :
    a = a' ∧ b = b' := by
  have htake {s t : List α} (hs : ∀ c ∈ s, p c = false) (ht : ∀ c, t.head? = some c → p c = true) :
      (s ++ t).takeWhile (fun c => !p c) = s := by
    rw [List.takeWhile_append_of_pos fun c hc => by rw [hs c hc]; rfl]
    cases t with
    | nil => exact List.append_nil s
    | cons c t => rw [List.takeWhile_cons_of_neg (by simp [ht c rfl]), List.append_nil]
  have hsame : a = a' := by rw [← htake ha hb, h, htake ha' hb']
  subst hsame
  exact ⟨rfl, List.append_cancel_left h⟩

/-- What lies between the same gaps is told apart, as long as the gaps part it. -/
theorem flatMap_gaps_inj {β : Type*} {f g : β → List α} {rows : List (List α × β)} {last : List α}
    (hgaps : ∀ row ∈ rows, ∀ c ∈ row.1, p c = true) (hapart : ∀ row ∈ rows.tail, row.1 ≠ [])
    (hlast : ∀ c ∈ last, p c = true) (hf : ∀ row ∈ rows, ∀ c ∈ f row.2, p c = false)
    (hg : ∀ row ∈ rows, ∀ c ∈ g row.2, p c = false)
    (h : rows.flatMap (fun row => row.1 ++ f row.2) ++ last = rows.flatMap (fun row => row.1 ++ g row.2) ++ last) :
    ∀ row ∈ rows, f row.2 = g row.2 := by
  induction rows with
  | nil => exact fun row hrow => absurd hrow List.not_mem_nil
  | cons row rows ih =>
    -- what follows a piece starts with a gap, or is the end
    have hhead (k : β → List α) (c : α)
        (hc : (rows.flatMap (fun row => row.1 ++ k row.2) ++ last).head? = some c) : p c = true := by
      cases rows with
      | nil => exact hlast c (List.mem_of_mem_head? hc)
      | cons next rows =>
        obtain ⟨d, gap, hgap⟩ := List.exists_cons_of_ne_nil (hapart next List.mem_cons_self)
        have hd := hgaps next (by simp) d (by simp [hgap])
        simp only [List.flatMap_cons, hgap, List.cons_append, List.head?_cons, Option.some.injEq] at hc
        rwa [← hc]
    simp only [List.flatMap_cons, List.append_assoc] at h
    obtain ⟨hfirst, hrest⟩ := append_inj_of_stop (hf row List.mem_cons_self) (hg row List.mem_cons_self) (hhead f) (hhead g)
      (List.append_cancel_left h)
    intro other hother
    rcases List.mem_cons.mp hother with rfl | hother
    · exact hfirst
    · refine ih (fun r hr => hgaps r (List.mem_cons_of_mem row hr)) ?_ (fun r hr => hf r (List.mem_cons_of_mem row hr))
        (fun r hr => hg r (List.mem_cons_of_mem row hr)) hrest other hother
      exact fun r hr => hapart r (List.mem_of_mem_tail hr)

end Stretches

end Weft
