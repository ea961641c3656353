import Mathlib
import Hyperfetch.Weft.Utf8

/-!
# Lines and white space

`lines` splits at a separator, of bytes or of characters: a last line without
a separator counts, an empty one after the last separator does not. What is
appended after a separator leaves the lines before it (`lines_append`), and
decoding goes line by line (`lines_lossy`).
-/

namespace Weft

variable {α : Type}

/-! ## Lines -/

section Lines

variable [DecidableEq α] {sep : α}

def lines (sep : α) : List α → List (List α)
  | [] => []
  | c :: rest =>
    if c = sep then [] :: lines sep rest
    else
      match lines sep rest with
      | [] => [[c]]
      | line :: more => (c :: line) :: more

/-- Nothing, or ending in a separator. -/
def Closed (sep : α) (text : List α) : Prop := text = [] ∨ text.getLast? = some sep

theorem lines_sep (rest : List α) : lines sep (sep :: rest) = [] :: lines sep rest := by
  rw [lines, if_pos rfl]

/-- A character that is no separator is at the start of the first line. -/
theorem lines_cons {c : α} (hc : c ≠ sep) {line : List α} {rest : List α} {more : List (List α)}
    (hrest : lines sep rest = line :: more) : lines sep (c :: rest) = (c :: line) :: more := by
  rw [lines, if_neg hc, hrest]

theorem lines_eq_nil {text : List α} : lines sep text = [] ↔ text = [] := by
  constructor
  · intro h
    cases text with
    | nil => rfl
    | cons c rest =>
      exfalso
      rw [lines] at h
      split at h
      · cases h
      · split at h <;> cases h
  · rintro rfl
    rfl

theorem not_mem_of_mem_lines {text line : List α} (h : line ∈ lines sep text) : sep ∉ line := by
  induction text generalizing line with
  | nil => cases h
  | cons c rest ih =>
    by_cases hc : c = sep
    · subst hc
      rw [lines_sep] at h
      rcases List.mem_cons.mp h with rfl | h
      · exact List.not_mem_nil
      · exact ih h
    · cases hrest : lines sep rest with
      | nil =>
        rw [lines, if_neg hc, hrest, List.mem_singleton] at h
        subst h
        rw [List.mem_singleton]
        exact fun heq => hc heq.symm
      | cons first more =>
        rw [lines_cons hc hrest] at h
        rw [hrest] at ih
        rcases List.mem_cons.mp h with rfl | h
        · intro hin
          rcases List.mem_cons.mp hin with heq | hin
          · exact hc heq.symm
          · exact ih List.mem_cons_self hin
        · exact ih (List.mem_cons_of_mem first h)

theorem mem_of_mem_lines {c : α} {text line : List α} (hline : line ∈ lines sep text) (hc : c ∈ line) : c ∈ text := by
  induction text generalizing line with
  | nil => cases hline
  | cons d rest ih =>
    by_cases hd : d = sep
    · subst hd
      rw [lines_sep] at hline
      rcases List.mem_cons.mp hline with rfl | hline
      · cases hc
      · exact List.mem_cons_of_mem d (ih hline hc)
    · cases hrest : lines sep rest with
      | nil =>
        rw [lines, if_neg hd, hrest, List.mem_singleton] at hline
        subst hline
        exact List.mem_singleton.mp hc ▸ List.mem_cons_self
      | cons first more =>
        rw [lines_cons hd hrest] at hline
        rw [hrest] at ih
        rcases List.mem_cons.mp hline with rfl | hline
        · rcases List.mem_cons.mp hc with rfl | hc
          · exact List.mem_cons_self
          · exact List.mem_cons_of_mem d (ih List.mem_cons_self hc)
        · exact List.mem_cons_of_mem d (ih (List.mem_cons_of_mem first hline) hc)

/-- Appending to whole lines leaves them. -/
theorem lines_append {a : List α} (ha : Closed sep a) (b : List α) :
    lines sep (a ++ b) = lines sep a ++ lines sep b := by
  induction a with
  | nil => rfl
  | cons c a ih =>
    rw [List.cons_append]
    rcases eq_or_ne a [] with rfl | hne
    · have hc : c = sep := by simpa [Closed] using ha
      rw [hc, List.nil_append, lines_sep, lines_sep]
      rfl
    · have hclosed : Closed sep a := .inr (by
        have hlast := ha.resolve_left (List.cons_ne_nil _ _)
        rwa [List.getLast?_cons_of_ne_nil hne] at hlast)
      have happend := ih hclosed
      by_cases hc : c = sep
      · rw [hc, lines_sep, lines_sep, happend]
        rfl
      · obtain ⟨line, more, hlines⟩ := List.exists_cons_of_ne_nil (mt lines_eq_nil.mp hne)
        rw [lines_cons hc hlines]
        rw [hlines, List.cons_append] at happend
        rw [lines_cons hc happend]
        rfl

/-- A separator closes the last line. -/
theorem lines_close {a : List α} (ha : ¬ Closed sep a) (b : List α) :
    lines sep (a ++ sep :: b) = lines sep a ++ lines sep b := by
  induction a with
  | nil => exact absurd (.inl rfl) ha
  | cons c a ih =>
    rw [List.cons_append]
    rcases eq_or_ne a [] with rfl | hne
    · have hc : c ≠ sep := by simpa [Closed] using ha
      rw [List.nil_append, lines_cons hc (lines_sep b), lines, if_neg hc]
      rfl
    · have hopen : ¬ Closed sep a := by
        intro hclosed
        refine ha (.inr ?_)
        rw [List.getLast?_cons_of_ne_nil hne]
        exact hclosed.resolve_left hne
      have happend := ih hopen
      by_cases hc : c = sep
      · rw [hc, lines_sep, lines_sep, happend]
        rfl
      · obtain ⟨line, more, hlines⟩ := List.exists_cons_of_ne_nil (mt lines_eq_nil.mp hne)
        rw [lines_cons hc hlines]
        rw [hlines, List.cons_append] at happend
        rw [lines_cons hc happend]
        rfl

/-- A text without a separator is one line. -/
theorem lines_single {line : List α} (hne : line ≠ []) (hsep : sep ∉ line) : lines sep line = [line] := by
  induction line with
  | nil => exact absurd rfl hne
  | cons c line ih =>
    rw [List.mem_cons, not_or] at hsep
    rw [lines, if_neg (Ne.symm hsep.1)]
    rcases eq_or_ne line [] with rfl | hline
    · rfl
    · rw [ih hline hsep.2]

omit [DecidableEq α] in
theorem not_closed {line : List α} (hne : line ≠ []) (hsep : sep ∉ line) : ¬ Closed sep line := by
  rintro (rfl | hlast)
  · exact hne rfl
  · exact hsep (List.mem_of_getLast? hlast)

/-- A line and the lines after it. -/
theorem lines_line {line : List α} (hsep : sep ∉ line) (rest : List α) :
    lines sep (line ++ sep :: rest) = line :: lines sep rest := by
  rcases eq_or_ne line [] with rfl | hne
  · exact lines_sep rest
  · rw [lines_close (not_closed hne hsep), lines_single hne hsep]
    rfl

/-- Every text without a separator at its end is lines and an open one. -/
theorem exists_line_or (sep : α) (text : List α) :
    sep ∉ text ∨ ∃ line rest, sep ∉ line ∧ text = line ++ sep :: rest := by
  by_cases h : sep ∈ text
  · obtain ⟨line, rest, rfl, hline⟩ := List.eq_append_cons_of_mem h
    exact .inr ⟨line, rest, hline, rfl⟩
  · exact .inl h

omit [DecidableEq α] in
/-- Whether a text is whole lines is decided after its first line. -/
theorem closed_line {line rest : List α} : Closed sep (line ++ sep :: rest) ↔ Closed sep rest := by
  unfold Closed
  rw [List.getLast?_append_of_ne_nil _ (List.cons_ne_nil _ _)]
  rcases eq_or_ne rest [] with rfl | hne
  · exact ⟨fun _ => .inl rfl, fun _ => .inr rfl⟩
  · rw [List.getLast?_cons_of_ne_nil hne]
    exact ⟨fun h => .inr (h.resolve_left (List.append_ne_nil_of_right_ne_nil _ (List.cons_ne_nil _ _))),
      fun h => .inr (h.resolve_left hne)⟩

/-- Lines with a separator each, cut anywhere: each is whole, or the last one
and how a line starts. -/
theorem mem_lines_cut {all : List (List α)} (hsep : ∀ line ∈ all, sep ∉ line) (kept : Nat) {line : List α}
    (hline : line ∈ lines sep ((all.flatMap (· ++ [sep])).take kept)) :
    ∃ whole ∈ all, line <+: whole ∧
      (line = whole ∨ (lines sep ((all.flatMap (· ++ [sep])).take kept)).getLast? = some line) := by
  induction all generalizing kept with
  | nil =>
    rw [List.flatMap_nil, List.take_nil] at hline
    cases hline
  | cons whole all ih =>
    have hwhole := hsep whole List.mem_cons_self
    rw [List.flatMap_cons, List.append_assoc, List.singleton_append] at hline ⊢
    by_cases hkept : kept ≤ whole.length
    · -- the cut is in this line
      rw [List.take_append_of_le_length hkept] at hline ⊢
      have hcut : sep ∉ whole.take kept := fun hmem => hwhole (List.mem_of_mem_take hmem)
      rcases eq_or_ne (whole.take kept) [] with hnil | hne
      · rw [hnil] at hline
        cases hline
      · rw [lines_single hne hcut] at hline ⊢
        obtain rfl := List.mem_singleton.mp hline
        exact ⟨whole, List.mem_cons_self, List.take_prefix _ _, .inr rfl⟩
    · obtain ⟨more, rfl⟩ : ∃ more, kept = whole.length + (more + 1) := ⟨kept - whole.length - 1, by omega⟩
      rw [List.take_length_add_append, List.take_succ_cons, lines_line hwhole] at hline ⊢
      rcases List.mem_cons.mp hline with rfl | hline
      · exact ⟨line, List.mem_cons_self, List.prefix_refl _, .inl rfl⟩
      · obtain ⟨found, hmem, hstarts, hlast⟩ := ih (fun l hl => hsep l (List.mem_cons_of_mem _ hl)) more hline
        refine ⟨found, List.mem_cons_of_mem _ hmem, hstarts, hlast.imp id fun hlast => ?_⟩
        rw [List.getLast?_cons_of_ne_nil (List.ne_nil_of_mem hline)]
        exact hlast

/-- Uncut, they are all there. -/
theorem lines_flatMap {all : List (List α)} (hsep : ∀ line ∈ all, sep ∉ line) :
    lines sep (all.flatMap (· ++ [sep])) = all := by
  induction all with
  | nil => rfl
  | cons whole all ih =>
    rw [List.flatMap_cons, List.append_assoc, List.singleton_append,
      lines_line (hsep whole List.mem_cons_self), ih fun l hl => hsep l (List.mem_cons_of_mem _ hl)]

end Lines

/-! ## Lines of a decoded text -/

namespace Utf8

/-- What a sequence can still become is no ASCII character. -/
def Wide : State → Prop
  | none => True
  | some o => 2 ≤ o.bits * 64 + (o.low - 0x80) ∧ (o.more ≤ 1 → 2 ≤ o.bits)

theorem ofNat_ne_lineFeed {n : Nat} (hn : n ≠ 0x0A) : Char.ofNat n ≠ '\n' := by
  intro heq
  unfold Char.ofNat at heq
  split at heq
  · exact hn (congrArg Char.toNat heq)
  · exact absurd (congrArg Char.toNat heq) (by decide)

theorem wide_first {b : Nat} (hb : b ≠ 0x0A) : '\n' ∉ (first b).1 ∧ Wide (first b).2 := by
  unfold first
  split
  · exact ⟨fun hmem => ofNat_ne_lineFeed hb (List.mem_singleton.mp hmem).symm, trivial⟩
  split
  · exact ⟨List.not_mem_nil, by show 2 ≤ (b - 0xC0) * 64 + (0x80 - 0x80); omega, fun _ => by show 2 ≤ b - 0xC0; omega⟩
  split
  · exact ⟨List.not_mem_nil, by decide, fun hmore => absurd hmore (by decide)⟩
  split
  · exact ⟨List.not_mem_nil, by decide, fun hmore => absurd hmore (by decide)⟩
  split
  · exact ⟨List.not_mem_nil, by show 2 ≤ (b - 0xE0) * 64 + (0x80 - 0x80); omega,
      fun hmore => absurd hmore (Nat.not_succ_le_self 1)⟩
  split
  · exact ⟨List.not_mem_nil, by decide, fun hmore => absurd hmore (by decide)⟩
  split
  · exact ⟨List.not_mem_nil, by decide, fun hmore => absurd hmore (by decide)⟩
  split
  · exact ⟨List.not_mem_nil, by show 2 ≤ (b - 0xF0) * 64 + (0x80 - 0x80); omega,
      fun hmore => absurd (Nat.le_trans (Nat.le_succ 2) hmore) (Nat.not_succ_le_self 1)⟩
  · exact ⟨by decide, trivial⟩

theorem wide_step {s : State} (hs : Wide s) {b : Nat} (hb : b ≠ 0x0A) :
    '\n' ∉ (step s b).1 ∧ Wide (step s b).2 := by
  cases s with
  | none => exact wide_first hb
  | some o =>
    obtain ⟨hbits, hlast⟩ := hs
    have hge := o.low_goesOn
    rw [step]
    split
    case isTrue hgoesOn =>
      split
      case isTrue hmore =>
        refine ⟨fun hmem => ?_, trivial⟩
        have hwide := hlast hmore
        exact ofNat_ne_lineFeed (by omega) (List.mem_singleton.mp hmem).symm
      case isFalse hmore =>
        refine ⟨List.not_mem_nil, ?_, fun _ => ?_⟩
        · show 2 ≤ (o.bits * 64 + (b - 0x80)) * 64 + (0x80 - 0x80)
          omega
        · show 2 ≤ o.bits * 64 + (b - 0x80)
          omega
    case isFalse =>
      obtain ⟨hfirst, hwide⟩ := wide_first hb
      refine ⟨fun hmem => ?_, hwide⟩
      exact hfirst ((List.mem_cons.mp hmem).resolve_left (by decide))

theorem lineFeed_not_mem_lossyFrom {bytes : List UInt8} (h : lineFeed ∉ bytes) {s : State} (hs : Wide s) :
    '\n' ∉ lossyFrom s bytes := by
  induction bytes generalizing s with
  | nil =>
    show '\n' ∉ close s
    cases s with
    | none => exact List.not_mem_nil
    | some o =>
      show '\n' ∉ [replacement]
      decide
  | cons b bytes ih =>
    rw [List.mem_cons, not_or] at h
    have hb : b.toNat ≠ 0x0A := fun heq => h.1 (UInt8.toNat_inj.mp heq).symm
    obtain ⟨hnow, hwide⟩ := wide_step hs hb
    show '\n' ∉ (step s b.toNat).1 ++ lossyFrom (step s b.toNat).2 bytes
    rw [List.mem_append, not_or]
    exact ⟨hnow, ih h.2 hwide⟩

/-- A sequence on its way becomes something. -/
theorem lossyFrom_some_ne_nil (o : Open) (bytes : List UInt8) : lossyFrom (some o) bytes ≠ [] := by
  induction bytes generalizing o with
  | nil => exact List.cons_ne_nil _ _
  | cons b bytes ih =>
    show (step (some o) b.toNat).1 ++ lossyFrom (step (some o) b.toNat).2 bytes ≠ []
    rw [step]
    split
    · split
      · exact List.cons_ne_nil _ _
      · exact ih _
    · exact List.cons_ne_nil _ _

theorem first_emits (b : Nat) : (first b).1 ≠ [] ∨ ∃ o, (first b).2 = some o := by
  unfold first
  split
  · exact .inl (List.cons_ne_nil _ _)
  iterate 7
    split
    · exact .inr ⟨_, rfl⟩
  exact .inl (List.cons_ne_nil _ _)

theorem lossy_eq_nil {bytes : List UInt8} : lossy bytes = [] ↔ bytes = [] := by
  constructor
  · intro h
    cases bytes with
    | nil => rfl
    | cons b bytes =>
      exfalso
      have happend : (first b.toNat).1 ++ lossyFrom (first b.toNat).2 bytes = [] := h
      obtain ⟨hnow, hlater⟩ := List.append_eq_nil_iff.mp happend
      rcases first_emits b.toNat with hne | ⟨o, ho⟩
      · exact hne hnow
      · rw [ho] at hlater
        exact lossyFrom_some_ne_nil o bytes hlater
  · rintro rfl
    rfl

/-- The lines of a decoded text are the decoded lines. -/
theorem lines_lossy (bytes : List UInt8) :
    lines '\n' (lossy bytes) = (lines lineFeed bytes).map lossy := by
  induction h : bytes.length using Nat.strong_induction_on generalizing bytes with
  | _ n ih =>
    rcases exists_line_or lineFeed bytes with hopen | ⟨line, rest, hline, rfl⟩
    · rcases eq_or_ne bytes [] with rfl | hne
      · rfl
      · have hlossy : '\n' ∉ lossy bytes := lineFeed_not_mem_lossyFrom hopen trivial
        rw [lines_single hne hopen, lines_single (mt lossy_eq_nil.mp hne) hlossy]
        rfl
    · have hlossy : '\n' ∉ lossy line := lineFeed_not_mem_lossyFrom hline trivial
      have hrest := ih rest.length (by rw [← h, List.length_append, List.length_cons]; omega) rest rfl
      rw [show lossy (line ++ lineFeed :: rest) = lossy line ++ '\n' :: lossy rest from lossyFrom_lineFeed none _ _]
      rw [lines_line hlossy, lines_line hline, hrest]
      rfl

theorem closed_lossy (bytes : List UInt8) : Closed '\n' (lossy bytes) ↔ Closed lineFeed bytes := by
  induction h : bytes.length using Nat.strong_induction_on generalizing bytes with
  | _ n ih =>
    rcases exists_line_or lineFeed bytes with hopen | ⟨line, rest, _, rfl⟩
    · rcases eq_or_ne bytes [] with rfl | hne
      · exact ⟨fun _ => .inl rfl, fun _ => .inl rfl⟩
      · have hlossy : '\n' ∉ lossy bytes := lineFeed_not_mem_lossyFrom hopen trivial
        exact iff_of_false (not_closed (mt lossy_eq_nil.mp hne) hlossy) (not_closed hne hopen)
    · rw [show lossy (line ++ lineFeed :: rest) = lossy line ++ '\n' :: lossy rest from lossyFrom_lineFeed none _ _]
      rw [closed_line, closed_line]
      exact ih rest.length (by rw [← h, List.length_append, List.length_cons]; omega) rest rfl

/-- Only a line feed has a line feed in its encoding. -/
theorem lineFeed_not_mem_encode {text : List Char} (h : '\n' ∉ text) : lineFeed ∉ encode text := by
  intro hmem
  obtain ⟨c, hc, hbyte⟩ := List.mem_flatMap.mp hmem
  have hne : c.val.toNat ≠ 0x0A := fun heq => h (by
    have hchar : c = '\n' := Char.ext (UInt32.toNat_inj.mp heq)
    exact hchar ▸ hc)
  have hbytes : ∀ n, n < 256 → n ≠ 0x0A → lineFeed ≠ UInt8.ofNat n := by
    intro n hn hne heq
    have hnat := congrArg UInt8.toNat heq
    rw [UInt8.toNat_ofNat_of_lt' hn] at hnat
    exact hne hnat.symm
  unfold String.utf8EncodeChar at hbyte
  generalize c.val.toNat = v at hne hbyte
  dsimp only at hbyte
  by_cases h1 : v ≤ 0x7f
  · rw [if_pos h1, List.mem_singleton] at hbyte
    exact hbytes v (by omega) hne hbyte
  rw [if_neg h1] at hbyte
  by_cases h2 : v ≤ 0x7ff
  · rw [if_pos h2] at hbyte
    simp only [List.mem_cons, List.not_mem_nil, or_false] at hbyte
    rcases hbyte with hb | hb <;> exact hbytes _ (by omega) (by omega) hb
  rw [if_neg h2] at hbyte
  by_cases h3 : v ≤ 0xffff
  · rw [if_pos h3] at hbyte
    simp only [List.mem_cons, List.not_mem_nil, or_false] at hbyte
    rcases hbyte with hb | hb | hb <;> exact hbytes _ (by omega) (by omega) hb
  · rw [if_neg h3] at hbyte
    simp only [List.mem_cons, List.not_mem_nil, or_false] at hbyte
    rcases hbyte with hb | hb | hb | hb <;> exact hbytes _ (by omega) (by omega) hb

end Utf8

/-! ## White space -/

/-- The characters of Unicode's `White_Space`. -/
def isWhite (c : Char) : Bool :=
  let v := c.toNat
  (9 ≤ v && v ≤ 13) || v == 0x20 || v == 0x85 || v == 0xA0 || v == 0x1680 || (0x2000 ≤ v && v ≤ 0x200A) ||
    v == 0x2028 || v == 0x2029 || v == 0x202F || v == 0x205F || v == 0x3000

theorem isDigit_iff (c : Char) : c.isDigit = true ↔ 48 ≤ c.toNat ∧ c.toNat ≤ 57 := by
  simp only [Char.isDigit, Bool.and_eq_true, decide_eq_true_eq, ge_iff_le, UInt32.le_iff_toNat_le]
  rfl

theorem isWhite_of_isDigit {c : Char} (h : c.isDigit = true) : isWhite c = false := by
  have hrange := (isDigit_iff c).mp h
  simp only [isWhite, Bool.or_eq_false_iff, Bool.and_eq_false_iff, decide_eq_false_iff_not, beq_eq_false_iff_ne]
  omega

def trim (text : List Char) : List Char := (text.dropWhile isWhite).rdropWhile isWhite

/-- No white space at either end. -/
def Trimmed (text : List Char) : Prop :=
  (∀ c, text.head? = some c → isWhite c = false) ∧ ∀ c, text.getLast? = some c → isWhite c = false

theorem trim_of_trimmed {text : List Char} (h : Trimmed text) : trim text = text := by
  unfold trim
  have hhead : text.dropWhile isWhite = text := by
    cases text with
    | nil => rfl
    | cons c rest => exact List.dropWhile_cons_of_neg (by rw [h.1 c rfl]; exact Bool.false_ne_true)
  rw [hhead, List.rdropWhile_eq_self_iff]
  intro hne
  rw [h.2 _ (List.getLast?_eq_some_getLast hne)]
  exact Bool.false_ne_true

end Weft
