import Hyperfetch.Subs.Vtt

/-!
# Reading undoes escaping

`clean_vtt_text` reads back what `escape_vtt` wrote. What is written keeps line
breaks where they are, holds no arrow, and is blank only if the text was.
-/

namespace Hyperfetch.Subs

open Weft

/-! ## One step of each loop -/

/-- A tag found at the front of a text takes some of it off. -/
theorem exists_of_find?_tags {text t : Text} (h : tags.find? (·.isPrefixOf text) = some t) :
    t ∈ tags ∧ ∃ back, text = t ++ back ∧ back.length < text.length := by
  have hmem := List.mem_of_find?_eq_some h
  have hpos : ∀ t ∈ tags, 0 < t.length := by decide
  obtain ⟨back, hback⟩ := List.isPrefixOf_iff_prefix.mp (List.find?_some (p := fun x : Text => x.isPrefixOf text) h)
  have hlen := hpos t hmem
  refine ⟨hmem, back, hback.symm, ?_⟩
  rw [← hback, List.length_append]
  omega

theorem escapeFrom_enough {turns more : Nat} {text : Text} (h : text.length ≤ turns) (hmore : text.length ≤ more) :
    escapeFrom turns text = escapeFrom more text := by
  induction turns generalizing more text with
  | zero =>
    have hnil : text = [] := List.length_eq_zero_iff.mp (by omega)
    subst hnil
    cases more <;> rfl
  | succ turns ih =>
    cases text with
    | nil => cases more <;> rfl
    | cons c rest =>
      rw [List.length_cons] at h hmore
      obtain ⟨more, rfl⟩ : ∃ n, more = n + 1 := ⟨more - 1, by omega⟩
      rw [escapeFrom, escapeFrom]
      cases htag : tags.find? (·.isPrefixOf (c :: rest)) with
      | none =>
        exact congrArg (escapeChar c ++ ·) (ih (by omega) (by omega))
      | some tag =>
        obtain ⟨_, back, hback, hshort⟩ := exists_of_find?_tags htag
        rw [List.length_cons] at hshort
        have hsame : escapeFrom turns back = escapeFrom more back := ih (by omega) (by omega)
        dsimp only
        rw [hback, List.drop_left, hsame]

theorem escapeVtt_cons (c : Char) (rest : Text) : escapeVtt (c :: rest) =
    match tags.find? (·.isPrefixOf (c :: rest)) with
    | some tag => tag ++ escapeVtt ((c :: rest).drop tag.length)
    | none => escapeChar c ++ escapeVtt rest := by
  rw [escapeVtt, List.length_cons, escapeFrom]
  cases htag : tags.find? (·.isPrefixOf (c :: rest)) with
  | none => rfl
  | some tag =>
    obtain ⟨_, back, hback, hshort⟩ := exists_of_find?_tags htag
    rw [List.length_cons] at hshort
    dsimp only
    rw [hback, List.drop_left]
    exact congrArg (tag ++ ·) (escapeFrom_enough (by omega) (Nat.le_refl _))

theorem length_of_splitOnce {sep : Char} {text front back : Text} (h : splitOnce sep text = some (front, back)) :
    back.length < text.length := by
  rw [(splitOnce_eq_some.mp h).1, List.length_append, List.length_cons]
  omega

theorem length_of_reference {rest after : Text} {named : Char} (h : reference rest = some (named, after)) :
    after.length < rest.length := by
  rw [reference, Option.bind_eq_bind, Option.bind_eq_some_iff] at h
  obtain ⟨⟨name, back⟩, hsplit, h⟩ := h
  dsimp only at h
  split at h
  · cases h
  · rw [Option.bind_eq_bind, Option.bind_eq_some_iff] at h
    obtain ⟨c, _, h⟩ := h
    cases h
    exact length_of_splitOnce hsplit

theorem cleanFrom_enough {turns more : Nat} {text : Text} (h : text.length ≤ turns) (hmore : text.length ≤ more) :
    cleanFrom turns text = cleanFrom more text := by
  induction turns generalizing more text with
  | zero =>
    have hnil : text = [] := List.length_eq_zero_iff.mp (by omega)
    subst hnil
    cases more <;> rfl
  | succ turns ih =>
    cases text with
    | nil => cases more <;> rfl
    | cons c rest =>
      rw [List.length_cons] at h hmore
      obtain ⟨more, rfl⟩ : ∃ n, more = n + 1 := ⟨more - 1, by omega⟩
      have hrest : cleanFrom turns rest = cleanFrom more rest := ih (by omega) (by omega)
      rw [cleanFrom, cleanFrom, hrest]
      split
      · cases hclose : splitOnce '>' rest with
        | none => rfl
        | some p =>
          have hlt := length_of_splitOnce hclose
          exact congrArg (keptTag p.1 ++ ·) (ih (by omega) (by omega))
      · split
        · cases href : reference rest with
          | none => rfl
          | some p =>
            have hlt := length_of_reference href
            exact congrArg (p.1 :: ·) (ih (by omega) (by omega))
        · rfl

/-- What is neither a tag nor a reference is kept. -/
theorem cleanVttText_cons {c : Char} (hlt : c ≠ '<') (hamp : c ≠ '&') (rest : Text) :
    cleanVttText (c :: rest) = c :: cleanVttText rest := by
  rw [cleanVttText, List.length_cons, cleanFrom, if_neg hlt, if_neg hamp]
  rfl

theorem cleanVttText_tag {tag : Text} (h : '>' ∉ tag) (rest : Text) :
    cleanVttText ('<' :: (tag ++ '>' :: rest)) = keptTag tag ++ cleanVttText rest := by
  have hclose : splitOnce '>' (tag ++ '>' :: rest) = some (tag, rest) := splitOnce_eq_some.mpr ⟨rfl, h⟩
  rw [cleanVttText, List.length_cons, cleanFrom, if_pos rfl, hclose]
  refine congrArg (keptTag tag ++ ·) (cleanFrom_enough ?_ (Nat.le_refl _))
  rw [List.length_append, List.length_cons]
  omega

theorem cleanVttText_reference {name : Text} {c : Char} (hname : entity name = some c) (hlen : byteLen name ≤ 10)
    (h : ';' ∉ name) (rest : Text) : cleanVttText ('&' :: (name ++ ';' :: rest)) = c :: cleanVttText rest := by
  have hclose : splitOnce ';' (name ++ ';' :: rest) = some (name, rest) := splitOnce_eq_some.mpr ⟨rfl, h⟩
  have href : reference (name ++ ';' :: rest) = some (c, rest) := by
    rw [reference, hclose]
    show (if 10 < byteLen name then none else _) = _
    rw [if_neg (by omega), hname]
    rfl
  have hamp : ('&' : Char) ≠ '<' := by decide
  rw [cleanVttText, List.length_cons, cleanFrom, if_neg hamp, if_pos rfl, href]
  refine congrArg (c :: ·) (cleanFrom_enough ?_ (Nat.le_refl _))
  rw [List.length_append, List.length_cons]
  omega

/-! ## The round trip of a text -/

theorem clean_keptTag {tag : Text} (h : tag ∈ tags) (rest : Text) :
    cleanVttText (tag ++ rest) = tag ++ cleanVttText rest := by
  have hall : ∀ t ∈ tags, ∃ name, t = '<' :: (name ++ ['>']) ∧ '>' ∉ name ∧ keptTag name = t := by
    intro t ht
    simp only [tags, List.mem_cons, List.not_mem_nil, or_false] at ht
    rcases ht with rfl | rfl | rfl | rfl | rfl | rfl
    · exact ⟨['i'], by decide⟩
    · exact ⟨['/', 'i'], by decide⟩
    · exact ⟨['b'], by decide⟩
    · exact ⟨['/', 'b'], by decide⟩
    · exact ⟨['u'], by decide⟩
    · exact ⟨['/', 'u'], by decide⟩
  obtain ⟨name, hname, hclose, hkept⟩ := hall tag h
  have hread := cleanVttText_tag hclose rest
  rw [hkept] at hread
  rw [← hread, hname]
  simp

theorem clean_escapeChar (c : Char) (rest : Text) : cleanVttText (escapeChar c ++ rest) = c :: cleanVttText rest := by
  have hamp : entity "amp".toList = some '&' := by decide
  have hlt : entity "lt".toList = some '<' := by decide
  have hgt : entity "gt".toList = some '>' := by decide
  unfold escapeChar
  split
  · rename_i hc
    subst hc
    exact cleanVttText_reference hamp (by decide) (by decide) rest
  · split
    · rename_i hc
      subst hc
      exact cleanVttText_reference hlt (by decide) (by decide) rest
    · split
      · rename_i hc
        subst hc
        exact cleanVttText_reference hgt (by decide) (by decide) rest
      · rename_i hnotAmp hnotLt _
        exact cleanVttText_cons hnotLt hnotAmp rest

/-- What holds behind a tag and behind a character holds of every text. -/
theorem escape_induction {motive : Text → Prop} (nil : motive [])
    (tag : ∀ t ∈ tags, ∀ rest, escapeVtt (t ++ rest) = t ++ escapeVtt rest → motive rest → motive (t ++ rest))
    (char : ∀ c rest, escapeVtt (c :: rest) = escapeChar c ++ escapeVtt rest → motive rest → motive (c :: rest))
    (text : Text) : motive text := by
  induction hlen : text.length using Nat.strong_induction_on generalizing text with
  | _ n ih =>
    cases text with
    | nil => exact nil
    | cons c rest =>
      have hstep := escapeVtt_cons c rest
      rw [List.length_cons] at hlen
      cases htag : tags.find? (·.isPrefixOf (c :: rest)) with
      | none =>
        rw [htag] at hstep
        exact char c rest hstep (ih rest.length (by omega) rest rfl)
      | some t =>
        rw [htag] at hstep
        obtain ⟨hmem, back, hback, hshort⟩ := exists_of_find?_tags htag
        rw [List.length_cons] at hshort
        dsimp only at hstep
        rw [hback, List.drop_left] at hstep
        rw [hback]
        exact tag t hmem back hstep (ih back.length (by omega) back rfl)

/-- Escaped text is read back. -/
theorem clean_escapeVtt (text : Text) : cleanVttText (escapeVtt text) = text := by
  induction text using escape_induction with
  | nil => rfl
  | tag t ht rest hstep ih => rw [hstep, clean_keptTag ht, ih]
  | char c rest hstep ih => rw [hstep, clean_escapeChar, ih]

/-! ## What escaping keeps -/

theorem tag_head {t : Text} (ht : t ∈ tags) : ∃ more, t = '<' :: more := by
  have hall : ∀ t ∈ tags, t.head? = some '<' := by decide
  have hhead := hall t ht
  cases t with
  | nil => cases hhead
  | cons c more =>
    cases hhead
    exact ⟨more, rfl⟩

theorem find?_tags_of_ne {c : Char} (hc : c ≠ '<') (rest : Text) : tags.find? (·.isPrefixOf (c :: rest)) = none := by
  rw [List.find?_eq_none]
  intro t ht hprefix
  obtain ⟨more, rfl⟩ := tag_head ht
  rw [List.isPrefixOf_cons_cons, Bool.and_eq_true, beq_iff_eq] at hprefix
  exact hc hprefix.1.symm

/-- A character that is not escaped, nor in what escaping writes. -/
structure Kept (s : Char) : Prop where
  tag : ∀ t ∈ tags, s ∉ t
  char : escapeChar s = [s]
  name : ∀ c, escapeChar c = [c] ∨ s ∉ escapeChar c

theorem Kept.escapeVtt_cons {s : Char} (h : Kept s) (rest : Text) : escapeVtt (s :: rest) = s :: escapeVtt rest := by
  have hs : s ≠ '<' := by
    rintro rfl
    exact h.tag "<i>".toList (by decide) (by decide)
  rw [Subs.escapeVtt_cons, find?_tags_of_ne hs]
  dsimp only
  rw [h.char]
  rfl

theorem prefix_append_cons {t a b : Text} {s : Char} (hs : s ∉ t) : t <+: a ++ s :: b ↔ t <+: a := by
  induction a generalizing t with
  | nil =>
    cases t with
    | nil => simp
    | cons d t =>
      have hne : d ≠ s := fun heq => hs (heq ▸ List.mem_cons_self)
      simp [List.cons_prefix_cons, hne]
  | cons c a ih =>
    cases t with
    | nil => simp
    | cons d t =>
      rw [List.cons_append, List.cons_prefix_cons, List.cons_prefix_cons, ih (fun hin => hs (List.mem_cons_of_mem d hin))]

theorem Kept.find?_tags {s : Char} (h : Kept s) (a b : Text) :
    tags.find? (·.isPrefixOf (a ++ s :: b)) = tags.find? (·.isPrefixOf a) := by
  have hsame : ∀ t ∈ tags, t.isPrefixOf (a ++ s :: b) = t.isPrefixOf a := by
    intro t ht
    rw [Bool.eq_iff_iff, List.isPrefixOf_iff_prefix, List.isPrefixOf_iff_prefix]
    exact prefix_append_cons (h.tag t ht)
  revert hsame
  generalize tags = all
  intro hsame
  induction all with
  | nil => rfl
  | cons t all ih =>
    rw [List.find?_cons, List.find?_cons, hsame t List.mem_cons_self,
      ih fun u hu => hsame u (List.mem_cons_of_mem t hu)]

/-- Escaping goes on behind such a character as from the start. -/
theorem Kept.escapeVtt_append {s : Char} (h : Kept s) (a b : Text) :
    escapeVtt (a ++ s :: b) = escapeVtt a ++ s :: escapeVtt b := by
  induction hlen : a.length using Nat.strong_induction_on generalizing a with
  | _ n ih =>
    cases a with
    | nil => exact h.escapeVtt_cons b
    | cons c rest =>
      rw [List.length_cons] at hlen
      have hsame := h.find?_tags (c :: rest) b
      rw [List.cons_append] at hsame
      rw [List.cons_append, Subs.escapeVtt_cons, Subs.escapeVtt_cons, hsame]
      cases htag : tags.find? (·.isPrefixOf (c :: rest)) with
      | none =>
        dsimp only
        rw [ih rest.length (by omega) rest rfl, List.append_assoc]
      | some t =>
        obtain ⟨_, back, hback, hshort⟩ := exists_of_find?_tags htag
        rw [List.length_cons] at hshort
        dsimp only
        rw [← List.cons_append, hback, List.append_assoc, List.drop_left, List.drop_left,
          ih back.length (by omega) back rfl, List.append_assoc]

theorem Kept.not_mem_escapeVtt {s : Char} (h : Kept s) {text : Text} (htext : s ∉ text) : s ∉ escapeVtt text := by
  induction text using escape_induction with
  | nil => exact htext
  | tag t ht rest hstep ih =>
    rw [hstep, List.mem_append, not_or]
    exact ⟨h.tag t ht, ih fun hin => htext (List.mem_append_right t hin)⟩
  | char c rest hstep ih =>
    rw [hstep, List.mem_append, not_or]
    refine ⟨?_, ih fun hin => htext (List.mem_cons_of_mem c hin)⟩
    rcases h.name c with hsame | hnot
    · rw [hsame, List.mem_singleton]
      rintro rfl
      exact htext List.mem_cons_self
    · exact hnot

/-- What escaping writes for the characters it escapes. -/
def escapes : List Text := ["&amp;".toList, "&lt;".toList, "&gt;".toList]

theorem exists_of_mem_escapes {name : Text} (h : name ∈ escapes) : ∃ more, name = '&' :: more := by
  simp only [escapes, List.mem_cons, List.not_mem_nil, or_false] at h
  rcases h with rfl | rfl | rfl
  · exact ⟨"amp;".toList, rfl⟩
  · exact ⟨"lt;".toList, rfl⟩
  · exact ⟨"gt;".toList, rfl⟩

theorem escapeChar_cases (c : Char) :
    escapeChar c = [c] ∧ c ≠ '&' ∧ c ≠ '<' ∧ c ≠ '>' ∨
      escapeChar c ∈ escapes ∧ (c = '&' ∨ c = '<' ∨ c = '>') := by
  unfold escapeChar
  split
  · rename_i hc
    exact .inr ⟨by decide, .inl hc⟩
  · split
    · rename_i hc
      exact .inr ⟨by decide, .inr (.inl hc)⟩
    · split
      · rename_i hc
        exact .inr ⟨by decide, .inr (.inr hc)⟩
      · rename_i hamp hlt hgt
        exact .inl ⟨rfl, hamp, hlt, hgt⟩

theorem kept_of {s : Char} (htag : ∀ t ∈ tags, s ∉ t)
    (hname : ∀ name ∈ escapes, s ∉ name) (hchar : escapeChar s = [s]) : Kept s where
  tag := htag
  char := hchar
  name c := by
    rcases escapeChar_cases c with ⟨hsame, _⟩ | ⟨hmem, _⟩
    · exact .inl hsame
    · exact .inr (hname _ hmem)

theorem kept_lineFeed : Kept '\n' := kept_of (by decide) (by decide) (by decide)

theorem kept_return : Kept '\r' := kept_of (by decide) (by decide) (by decide)

/-- Escaping leaves something of every text. -/
theorem escapeVtt_eq_nil {text : Text} : escapeVtt text = [] ↔ text = [] := by
  constructor
  · intro hnil
    have hclean := clean_escapeVtt text
    rw [hnil] at hclean
    exact hclean.symm
  · rintro rfl
    rfl

/-- A text that does not end in such a character is not escaped to one that does. -/
theorem Kept.getLast?_escapeVtt {s : Char} (h : Kept s) {text : Text} (hlast : text.getLast? ≠ some s) :
    (escapeVtt text).getLast? ≠ some s := by
  intro hends
  obtain ⟨front, hfront⟩ := List.getLast?_eq_some_iff.mp hends
  have hin : s ∈ escapeVtt text := hfront ▸ List.mem_concat_self
  have hmem : s ∈ text := by
    by_contra hnot
    exact h.not_mem_escapeVtt hnot hin
  obtain ⟨a, b, hab, hb⟩ : ∃ a b, text = a ++ s :: b ∧ s ∉ b := by
    obtain ⟨b, a, hba, hb⟩ := List.eq_append_cons_of_mem (List.mem_reverse.mpr hmem)
    refine ⟨a.reverse, b.reverse, ?_, fun hbad => hb (List.mem_reverse.mp hbad)⟩
    rw [← List.reverse_reverse text, hba]
    simp
  rw [hab, h.escapeVtt_append, List.getLast?_append, List.getLast?_cons] at hends
  cases hback : (escapeVtt b).getLast? with
  | none =>
    have hnil : b = [] := escapeVtt_eq_nil.mp (List.getLast?_eq_none_iff.mp hback)
    rw [hab, hnil] at hlast
    exact hlast List.getLast?_concat
  | some c =>
    rw [hback, Option.getD_some, Option.some_or, Option.some_inj] at hends
    subst hends
    exact h.not_mem_escapeVtt hb (List.mem_of_getLast? hback)

/-- Escaping leaves white space and adds none. -/
theorem blank_escapeVtt (text : Text) : blank (escapeVtt text) = blank text := by
  have hall : (∀ c ∈ escapeVtt text, isWhite c = true) ↔ ∀ c ∈ text, isWhite c = true := by
    induction text using escape_induction with
    | nil => exact Iff.rfl
    | tag t ht rest hstep ih =>
      rw [hstep, List.forall_mem_append, List.forall_mem_append, ih]
    | char c rest hstep ih =>
      rw [hstep, List.forall_mem_append, List.forall_mem_cons, ih]
      refine and_congr_left fun _ => ?_
      rcases escapeChar_cases c with ⟨hsame, _⟩ | ⟨hmem, hc⟩
      · rw [hsame, List.forall_mem_singleton]
      · obtain ⟨more, hmore⟩ := exists_of_mem_escapes hmem
        have hamp : isWhite '&' = false := by decide
        have hspecial : isWhite c = false := by
          rcases hc with rfl | rfl | rfl <;> decide
        rw [hmore, List.forall_mem_cons, hamp, hspecial]
        exact iff_of_false (fun h => Bool.false_ne_true h.1) Bool.false_ne_true
  unfold blank
  have hnil : trim (escapeVtt text) = [] ↔ trim text = [] := strip_eq_nil.trans (hall.trans strip_eq_nil.symm)
  exact decide_eq_decide.mpr hnil

/-! ## No arrow -/

theorem splitArrow_append_of_not_mem {a : Text} (h : '-' ∉ a) {b : Text} (hb : splitArrow b = none) :
    splitArrow (a ++ b) = none := by
  induction a with
  | nil => exact hb
  | cons c a ih =>
    have hc : c ≠ '-' := fun heq => h (heq ▸ List.mem_cons_self)
    rw [List.cons_append, splitArrow.eq_2 _ _ (by rintro _ rfl _; exact hc rfl),
      ih fun hin => h (List.mem_cons_of_mem c hin)]
    rfl

/-- What escaped text starts with, if it is not what escaping writes for a tag or a character. -/
theorem escapeVtt_eq_cons {text back : Text} {c : Char} (h : escapeVtt text = c :: back) (hlt : c ≠ '<') (hamp : c ≠ '&') :
    c ≠ '>' ∧ ∃ rest, back = escapeVtt rest := by
  cases text with
  | nil => cases h
  | cons d rest =>
    rw [escapeVtt_cons] at h
    cases htag : tags.find? (·.isPrefixOf (d :: rest)) with
    | some t =>
      obtain ⟨more, rfl⟩ := tag_head (List.mem_of_find?_eq_some htag)
      rw [htag] at h
      cases h
      exact absurd rfl hlt
    | none =>
      rw [htag] at h
      dsimp only at h
      rcases escapeChar_cases d with ⟨hsame, _, _, hgt⟩ | ⟨hmem, _⟩
      · rw [hsame] at h
        cases h
        exact ⟨hgt, rest, rfl⟩
      · obtain ⟨more, hmore⟩ := exists_of_mem_escapes hmem
        rw [hmore] at h
        cases h
        exact absurd rfl hamp

theorem splitArrow_escapeVtt (text : Text) : splitArrow (escapeVtt text) = none := by
  induction text using escape_induction with
  | nil => rfl
  | tag t ht rest hstep ih =>
    have hdash : ∀ t ∈ tags, '-' ∉ t := by decide
    rw [hstep]
    exact splitArrow_append_of_not_mem (hdash t ht) ih
  | char c rest hstep ih =>
    rw [hstep]
    rcases escapeChar_cases c with ⟨hsame, _⟩ | ⟨hmem, _⟩
    · -- Were an arrow to start here, its `>` would be one that is not escaped.
      rw [hsame, List.singleton_append, splitArrow.eq_2 _ _ ?_, ih]
      · rfl
      · rintro back rfl hback
        obtain ⟨_, rest', hrest'⟩ := escapeVtt_eq_cons hback (by decide) (by decide)
        exact (escapeVtt_eq_cons hrest'.symm (by decide) (by decide)).1 rfl
    · have hdash : ∀ name ∈ escapes, '-' ∉ name := by decide
      exact splitArrow_append_of_not_mem (hdash _ hmem) ih

end Hyperfetch.Subs
