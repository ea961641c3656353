import Hyperfetch.History.Redaction
import Hyperfetch.Weft.Find
import Hyperfetch.Weft.Strip
import Hyperfetch.Weft.Text

/-!
# The links in a message (`redact_text`)

A message is searched for `://`. A link goes from the scheme before it up to white
space, a quote or a bracket, less the punctuation that ends a sentence, and is
replaced by what `redact_url` makes of it; everything else stays (`keeps_redactText`).

White space, quotes and brackets cut a message in two (`redactText_append_stop`),
also where they stand inside a link: its front is then redacted without the rest
(`messages_redacted_iff`).
-/

namespace Hyperfetch.History

open Weft

/-- What quotes or brackets a link. -/
def linkStops : Text := ['"', '\x27', '<', '>', '(', ')', '[', ']', '{', '}']

def endsLink (c : Char) : Bool := isWhite c || linkStops.contains c

def schemeChar (c : Char) : Bool := c.isAlphanum || c == '+' || c == '-' || c == '.'

/-- Punctuation that ends a sentence. -/
def endsSentence (c : Char) : Bool := c == '.' || c == ',' || c == ':' || c == ';'

/-- A text cut before and behind a link. -/
structure LinkCut where
  before : Text
  link : Text
  after : Text

/-- The first link of a text. -/
def firstLink (text : Text) : Option LinkCut :=
  (findMark schemeMark text).map fun cut =>
    let scheme := cut.1.rtakeWhile schemeChar
    let link := (scheme ++ cut.2.takeWhile fun c => !endsLink c).rdropWhile endsSentence
    let len := max link.length (scheme.length + schemeMark.length)
    { before := cut.1.rdropWhile schemeChar
      link := (scheme ++ cut.2).take len
      after := (scheme ++ cut.2).drop len }

/-- A part of a text that is a link to `redact_text`. -/
def IsLink (link : Text) : Prop :=
  ∃ scheme rest, link = scheme ++ schemeMark ++ rest ∧ (∀ c ∈ scheme, schemeChar c = true) ∧
    ∀ c ∈ rest, endsLink c = false

theorem schemeMark_ne_nil : schemeMark ≠ [] := by decide

theorem endsLink_mark {c : Char} (hc : c ∈ schemeMark) : endsLink c = false := by
  have hcases : c = ':' ∨ c = '/' := by simpa [schemeMark] using hc
  rcases hcases with rfl | rfl
  · decide
  · decide

theorem isAlphanum_iff (c : Char) :
    c.isAlphanum = true ↔ (65 ≤ c.toNat ∧ c.toNat ≤ 90) ∨ (97 ≤ c.toNat ∧ c.toNat ≤ 122) ∨ (48 ≤ c.toNat ∧ c.toNat ≤ 57) := by
  simp only [Char.isAlphanum, Char.isAlpha, Char.isUpper, Char.isLower, Bool.or_eq_true, isDigit_iff, Bool.and_eq_true,
    decide_eq_true_eq, ge_iff_le, UInt32.le_iff_toNat_le, or_assoc]
  rfl

theorem schemeChar_of_endsLink {c : Char} (h : endsLink c = true) : schemeChar c = false := by
  unfold endsLink at h
  rcases Bool.or_eq_true_iff.mp h with hwhite | hstop
  · have hscheme : schemeChar c = true → c.isAlphanum = true ∨ c = '+' ∨ c = '-' ∨ c = '.' := by
      simp [schemeChar, or_assoc]
    rw [Bool.eq_false_iff]
    intro hc
    rcases hscheme hc with hc | rfl | rfl | rfl
    · rw [isAlphanum_iff] at hc
      simp only [isWhite, Bool.or_eq_true, Bool.and_eq_true, decide_eq_true_eq, beq_iff_eq] at hwhite
      omega
    · exact absurd hwhite (by decide)
    · exact absurd hwhite (by decide)
    · exact absurd hwhite (by decide)
  · simp only [linkStops, List.contains_eq_mem, List.mem_cons, List.not_mem_nil, or_false, decide_eq_true_eq] at hstop
    rcases hstop with rfl | rfl | rfl | rfl | rfl | rfl | rfl | rfl | rfl | rfl
    all_goals decide

/-! ## The first link -/

theorem firstLink_eq_none {text : Text} : firstLink text = none ↔ ¬schemeMark <:+: text := by
  unfold firstLink
  rw [Option.map_eq_none_iff, findMark_eq_none schemeMark_ne_nil]

/-- Where a link is cut off. -/
theorem firstLink_len {before rest : Text} (hmark : schemeMark <+: rest) :
    ∃ more, ((before.rtakeWhile schemeChar ++ rest).take
        (max ((before.rtakeWhile schemeChar ++ rest.takeWhile fun c => !endsLink c).rdropWhile endsSentence).length
          ((before.rtakeWhile schemeChar).length + schemeMark.length))) =
      before.rtakeWhile schemeChar ++ schemeMark ++ more ∧ (∀ c ∈ more, endsLink c = false) := by
  obtain ⟨tail, rfl⟩ := hmark
  set scheme := before.rtakeWhile schemeChar
  have hopen : (schemeMark ++ tail).takeWhile (fun c => !endsLink c) = schemeMark ++ tail.takeWhile fun c => !endsLink c := by
    apply List.takeWhile_append_of_pos
    intro c hc
    rw [Bool.not_eq_true']
    exact endsLink_mark hc
  rw [hopen]
  set open_ := tail.takeWhile fun c => !endsLink c
  have hlen : ((scheme ++ (schemeMark ++ open_)).rdropWhile endsSentence).length ≤
      scheme.length + schemeMark.length + open_.length := by
    have hprefix := (List.rdropWhile_prefix endsSentence (l := scheme ++ (schemeMark ++ open_))).length_le
    simpa [Nat.add_assoc] using hprefix
  obtain ⟨n, hn⟩ : ∃ n, max ((scheme ++ (schemeMark ++ open_)).rdropWhile endsSentence).length
      (scheme.length + schemeMark.length) = (scheme ++ schemeMark).length + n ∧ n ≤ open_.length := by
    refine ⟨max ((scheme ++ (schemeMark ++ open_)).rdropWhile endsSentence).length (scheme.length + schemeMark.length) -
      (scheme ++ schemeMark).length, ?_, ?_⟩
    · rw [List.length_append]
      omega
    · rw [List.length_append]
      omega
  refine ⟨tail.take n, ?_, ?_⟩
  · rw [hn.1, ← List.append_assoc, List.take_length_add_append]
  · intro c hc
    obtain ⟨more, hmore⟩ := List.takeWhile_prefix (fun c => !endsLink c) (l := tail)
    have htake : tail.take n = open_.take n := by
      rw [← hmore, List.take_append_of_le_length hn.2]
    rw [htake] at hc
    have hopen := List.mem_takeWhile_imp (List.mem_of_mem_take hc)
    simpa using hopen

theorem firstLink_spec {text : Text} {cut : LinkCut} (h : firstLink text = some cut) :
    text = cut.before ++ cut.link ++ cut.after ∧ ¬schemeMark <:+: cut.before ∧ IsLink cut.link := by
  obtain ⟨⟨front, rest⟩, hfind, rfl⟩ := Option.map_eq_some_iff.mp h
  obtain ⟨rfl, hmark⟩ := findMark_eq_some hfind
  dsimp only
  refine ⟨?_, ?_, ?_⟩
  · rw [List.append_assoc, List.take_append_drop, ← List.append_assoc, List.rdropWhile_append_rtakeWhile]
  · intro hin
    exact not_infix_of_findMark schemeMark_ne_nil hfind (hin.trans (List.rdropWhile_prefix schemeChar front).isInfix)
  · obtain ⟨more, hlink, hmore⟩ := @firstLink_len front rest hmark
    exact ⟨_, more, hlink, fun c hc => List.mem_rtakeWhile_imp hc, hmore⟩

theorem IsLink.length {link : Text} (h : IsLink link) : 0 < link.length := by
  obtain ⟨scheme, rest, rfl, -⟩ := h
  simp [schemeMark]

theorem firstLink_shorter {text : Text} {cut : LinkCut} (h : firstLink text = some cut) :
    cut.after.length < text.length := by
  obtain ⟨htext, -, hlink⟩ := firstLink_spec h
  have hlen := congrArg List.length htext
  have hpos := hlink.length
  simp only [List.length_append] at hlen
  omega

/-- `redact_text`; `redact` is `redact_url`. -/
def redactText (redact : Text → Text) (text : Text) : Text :=
  match _h : firstLink text with
  | none => text
  | some cut => cut.before ++ redact cut.link ++ redactText redact cut.after
termination_by text.length
decreasing_by exact firstLink_shorter ‹_›

section

variable {redact : Text → Text}

theorem redactText_none {text : Text} (h : firstLink text = none) : redactText redact text = text := by
  rw [redactText]
  split
  · rfl
  next hsome => cases h.symm.trans hsome

theorem redactText_some {text : Text} {cut : LinkCut} (h : firstLink text = some cut) :
    redactText redact text = cut.before ++ redact cut.link ++ redactText redact cut.after := by
  rw [redactText]
  split
  next hnone => cases h.symm.trans hnone
  next cut' hsome =>
    obtain rfl := Option.some.inj (h.symm.trans hsome)
    rfl

theorem redactText_plain {text : Text} (h : ¬schemeMark <:+: text) : redactText redact text = text :=
  redactText_none (firstLink_eq_none.mpr h)

/-! ## What is kept -/

/-- `out` is `text` with every link in it changed and all else as it was. -/
inductive Keeps (redact : Text → Text) : Text → Text → Prop
  | plain {text : Text} : ¬schemeMark <:+: text → Keeps redact text text
  | link {before link after out : Text} : ¬schemeMark <:+: before → IsLink link → Keeps redact after out →
      Keeps redact (before ++ link ++ after) (before ++ redact link ++ out)

theorem keeps_redactText (text : Text) : Keeps redact text (redactText redact text) := by
  induction hlen : text.length using Nat.strong_induction_on generalizing text with
  | _ n ih =>
    cases hfirst : firstLink text with
    | none =>
      rw [redactText_none hfirst]
      exact .plain (firstLink_eq_none.mp hfirst)
    | some cut =>
      obtain ⟨htext, hbefore, hlink⟩ := firstLink_spec hfirst
      rw [redactText_some hfirst]
      have hrest := ih cut.after.length (hlen ▸ firstLink_shorter hfirst) cut.after rfl
      have hkeeps := Keeps.link hbefore hlink hrest
      rwa [← htext] at hkeeps

/-! ## What cuts a text -/

theorem firstLink_append_stop {a b : Text} {c : Char} (hc : endsLink c = true) {cut : LinkCut} (h : firstLink a = some cut) :
    firstLink (a ++ c :: b) = some { cut with after := cut.after ++ c :: b } := by
  obtain ⟨⟨front, rest⟩, hfind, rfl⟩ := Option.map_eq_some_iff.mp h
  obtain ⟨-, tail, rfl⟩ := findMark_eq_some hfind
  rw [firstLink, findMark_append hfind, Option.map_some]
  dsimp only
  -- the link cannot go on past `c`
  have hopen : (schemeMark ++ tail ++ c :: b).takeWhile (fun d => !endsLink d) =
      (schemeMark ++ tail).takeWhile fun d => !endsLink d := by
    rw [List.takeWhile_append]
    split
    next hall =>
      rw [List.takeWhile_cons_of_neg (by simp [hc]), List.append_nil]
      exact ((List.takeWhile_prefix _).eq_of_length hall).symm
    next => rfl
  rw [hopen]
  set scheme := front.rtakeWhile schemeChar
  set link := (scheme ++ (schemeMark ++ tail).takeWhile fun d => !endsLink d).rdropWhile endsSentence
  have hlen : max link.length (scheme.length + schemeMark.length) ≤ (scheme ++ (schemeMark ++ tail)).length := by
    have hlink := (List.rdropWhile_prefix endsSentence
      (scheme ++ (schemeMark ++ tail).takeWhile fun d => !endsLink d)).length_le
    have htake := (List.takeWhile_prefix (fun d => !endsLink d) (l := schemeMark ++ tail)).length_le
    simp only [List.length_append] at hlink htake ⊢
    apply max_le
    · exact hlink.trans (Nat.add_le_add_left htake _)
    · omega
  rw [← List.append_assoc, List.take_append_of_le_length hlen, List.drop_append_of_le_length hlen]

theorem firstLink_stop_append {a b : Text} {c : Char} (hc : endsLink c = true) (h : firstLink a = none) :
    firstLink (a ++ c :: b) = (firstLink b).map fun cut => { cut with before := a ++ c :: cut.before } := by
  have hmark : c ∉ schemeMark := fun hin => absurd hc (Bool.eq_false_iff.mp (endsLink_mark hin))
  unfold firstLink at h ⊢
  rw [findMark_append_cons schemeMark_ne_nil hmark (Option.map_eq_none_iff.mp h)]
  cases findMark schemeMark b with
  | none => rfl
  | some cut =>
    have hscheme := schemeChar_of_endsLink hc
    simp only [Option.map_some, rtakeWhile_append_cons hscheme, rdropWhile_append_cons hscheme]

/-- White space, a quote or a bracket cuts a text in two. -/
theorem redactText_append_stop {c : Char} (hc : endsLink c = true) (a b : Text) :
    redactText redact (a ++ c :: b) = redactText redact a ++ c :: redactText redact b := by
  induction hlen : a.length using Nat.strong_induction_on generalizing a with
  | _ n ih =>
    cases hfirst : firstLink a with
    | none =>
      rw [redactText_none hfirst]
      cases hnext : firstLink b with
      | none =>
        rw [redactText_none hnext, redactText_none]
        rw [firstLink_stop_append hc hfirst, hnext]
        rfl
      | some cut =>
        have hboth : firstLink (a ++ c :: b) = some { cut with before := a ++ c :: cut.before } := by
          rw [firstLink_stop_append hc hfirst, hnext]
          rfl
        rw [redactText_some hboth, redactText_some hnext]
        simp only [List.append_assoc, List.cons_append]
    | some cut =>
      rw [redactText_some (firstLink_append_stop hc hfirst), redactText_some hfirst]
      dsimp only
      rw [ih cut.after.length (hlen ▸ firstLink_shorter hfirst) cut.after rfl]
      simp only [List.append_assoc]

/-- What becomes of a stretch without such a character: it has one link at most. -/
def redactStretch (redact : Text → Text) (text : Text) : Text :=
  match firstLink text with
  | none => text
  | some cut => cut.before ++ redact cut.link ++ cut.after

theorem not_mark_of_sentence {text : Text} (h : ∀ c ∈ text, endsSentence c = true) : ¬schemeMark <:+: text := by
  intro hin
  have hslash : '/' ∈ text := hin.subset (by simp [schemeMark])
  exact absurd (h '/' hslash) (by decide)

/-- Behind the link of such a stretch there is only punctuation. -/
theorem after_of_stretch {text : Text} (h : ∀ c ∈ text, endsLink c = false) {cut : LinkCut}
    (hfirst : firstLink text = some cut) : ∀ c ∈ cut.after, endsSentence c = true := by
  obtain ⟨⟨front, rest⟩, hfind, rfl⟩ := Option.map_eq_some_iff.mp hfirst
  obtain ⟨rfl, -⟩ := findMark_eq_some hfind
  dsimp only
  have hopen : rest.takeWhile (fun c => !endsLink c) = rest := by
    rw [List.takeWhile_eq_self_iff]
    intro c hc
    rw [h c (List.mem_append_right front hc)]
    rfl
  rw [hopen]
  set text := front.rtakeWhile schemeChar ++ rest
  intro c hc
  have hsuffix := List.drop_subset_drop_left text (le_max_left (text.rdropWhile endsSentence).length
    ((front.rtakeWhile schemeChar).length + schemeMark.length)) hc
  have hcut := List.rdropWhile_append_rtakeWhile (p := endsSentence) (l := text)
  rw [← hcut, List.drop_left'] at hsuffix
  · exact List.mem_rtakeWhile_imp hsuffix
  · rw [hcut]

theorem redactText_stretch {text : Text} (h : ∀ c ∈ text, endsLink c = false) :
    redactText redact text = redactStretch redact text := by
  cases hfirst : firstLink text with
  | none => rw [redactText_none hfirst, redactStretch, hfirst]
  | some cut =>
    rw [redactText_some hfirst, redactStretch, hfirst,
      redactText_plain (not_mark_of_sentence (after_of_stretch h hfirst))]

/-- **The closed form**: every stretch between such characters is redacted on its own. -/
theorem redactText_eq (text : Text) : redactText redact text = mapStretches endsLink (redactStretch redact) [] text :=
  eq_mapStretches (fun _ h => redactText_stretch h) (fun a _ b hc => redactText_append_stop hc a b) text

end

/-! ## Links without white space -/

def Tight (text : Text) : Prop := ∀ c ∈ text, isWhite c = false

section

variable {U : UrlCrate}

theorem Keeps.tight {redact : Text → Text} (hredact : ∀ url, Tight url → Tight (redact url)) {text out : Text}
    (h : Keeps redact text out) (htext : Tight text) : Tight out := by
  induction h with
  | plain => exact htext
  | @link before link after out _ _ _ ih =>
    simp only [Tight, List.mem_append, or_assoc] at htext ih ⊢
    intro c hc
    rcases hc with hc | hc | hc
    · exact htext c (Or.inl hc)
    · exact hredact link (fun d hd => htext d (Or.inr (Or.inl hd))) c hc
    · exact ih (fun d hd => htext d (Or.inr (Or.inr hd))) c hc

end

/-! ## Messages -/

structure Word where
  text : Text
  plain : ¬schemeMark <:+: text
  tight : Tight text

/-- A link as the `url` crate writes it, with the punctuation of the sentence behind it. -/
structure Link where
  scheme : Text
  rest : Text
  scheme_chars : ∀ c ∈ scheme, schemeChar c = true
  tight : Tight rest

namespace Link

def text (link : Link) : Text := link.scheme ++ schemeMark ++ link.rest

/-- The link less the punctuation that ends a sentence. -/
def body (link : Link) : Text := link.text.rdropWhile endsSentence

def ending (link : Link) : Text := link.text.rtakeWhile endsSentence

/-- `redact_url` makes of the link what it makes of its stretches between quotes
and brackets, each on its own. -/
def Whole (redact : Text → Text) (link : Link) : Prop :=
  redact link.body ++ link.ending = mapStretches endsLink (redactStretch redact) [] link.text

end Link

inductive Piece
  | word (word : Word)
  | link (link : Link)

namespace Piece

def text : Piece → Text
  | word w => w.text
  | link l => l.text

def redacted (redact : Text → Text) : Piece → Text
  | word w => w.text
  | link l => redact l.body ++ l.ending

end Piece

/-- Words and links, the white space before each, and that at the end. -/
structure Message where
  rows : List (Text × Piece)
  last : Text
  white : ∀ row ∈ rows, ∀ c ∈ row.1, isWhite c = true
  apart : ∀ row ∈ rows.tail, row.1 ≠ []
  last_white : ∀ c ∈ last, isWhite c = true

namespace Message

def text (m : Message) : Text := m.rows.flatMap (fun row => row.1 ++ row.2.text) ++ m.last

def redacted (m : Message) (redact : Text → Text) : Text :=
  m.rows.flatMap (fun row => row.1 ++ row.2.redacted redact) ++ m.last

def links (m : Message) : List Link :=
  m.rows.filterMap fun row =>
    match row.2 with
    | .word _ => none
    | .link l => some l

end Message

/-! ## Messages redacted -/

section

variable {redact : Text → Text}

theorem endsLink_of_white {c : Char} (h : isWhite c = true) : endsLink c = true := by
  rw [endsLink, h]
  rfl

theorem redactText_white {gap : Text} (h : ∀ c ∈ gap, isWhite c = true) (text : Text) :
    redactText redact (gap ++ text) = gap ++ redactText redact text := by
  induction gap with
  | nil => rfl
  | cons c gap ih =>
    have hcut := @redactText_append_stop redact c (endsLink_of_white (h c List.mem_cons_self)) [] (gap ++ text)
    have hempty : redactText redact [] = [] := redactText_plain (by decide)
    rw [hempty, List.nil_append, List.nil_append] at hcut
    rw [List.cons_append, hcut, ih fun d hd => h d (List.mem_cons_of_mem c hd)]
    rfl

/-- A text that starts with white space, or is empty, is no part of what is before it. -/
theorem redactText_before {a b : Text} (hb : ∀ c, b.head? = some c → isWhite c = true) :
    redactText redact (a ++ b) = redactText redact a ++ redactText redact b := by
  cases b with
  | nil =>
    have hempty : redactText redact [] = [] := redactText_plain (by decide)
    rw [hempty, List.append_nil, List.append_nil]
  | cons c b =>
    have hc := hb c rfl
    have hcut := @redactText_white redact [c] (by simpa using hc) b
    rw [redactText_append_stop (endsLink_of_white hc)]
    show _ = redactText redact a ++ redactText redact ([c] ++ b)
    rw [hcut]
    rfl

theorem redactText_rows {last : Text} (hlast : ∀ c ∈ last, isWhite c = true) {rows : List (Text × Piece)}
    (hwhite : ∀ row ∈ rows, ∀ c ∈ row.1, isWhite c = true) (hapart : ∀ row ∈ rows.tail, row.1 ≠ []) :
    redactText redact (rows.flatMap (fun row => row.1 ++ row.2.text) ++ last) =
      rows.flatMap (fun row => row.1 ++ redactText redact row.2.text) ++ last := by
  induction rows with
  | nil =>
    have hgap := @redactText_white redact last hlast []
    have hempty : redactText redact [] = [] := redactText_plain (by decide)
    simpa [hempty] using hgap
  | cons row rows ih =>
    have hrest := ih (fun r hr => hwhite r (List.mem_cons_of_mem row hr)) fun r hr => hapart r (List.mem_of_mem_tail hr)
    simp only [List.flatMap_cons, List.append_assoc]
    rw [redactText_white (hwhite row List.mem_cons_self), redactText_before, hrest]
    intro c hc
    cases rows with
    | nil => exact hlast c (List.mem_of_mem_head? hc)
    | cons next rows =>
      obtain ⟨d, gap, hgap⟩ := List.exists_cons_of_ne_nil (hapart next List.mem_cons_self)
      have hd := hwhite next (by simp) d (by simp [hgap])
      simp only [List.flatMap_cons, hgap, List.cons_append, List.head?_cons, Option.some.injEq] at hc
      rwa [← hc]

theorem Link.tight_text (link : Link) : Tight link.text := by
  intro c hc
  simp only [Link.text, List.mem_append] at hc
  rcases hc with (hc | hc) | hc
  · have hscheme := link.scheme_chars c hc
    by_contra hwhite
    rw [Bool.not_eq_false] at hwhite
    rw [schemeChar_of_endsLink (endsLink_of_white hwhite)] at hscheme
    cases hscheme
  · have hmark := endsLink_mark hc
    rw [endsLink, Bool.or_eq_false_iff] at hmark
    exact hmark.1
  · exact link.tight c hc

theorem Piece.tight_text (piece : Piece) : Tight piece.text := by
  cases piece with
  | word w => exact w.tight
  | link l => exact l.tight_text

theorem Piece.tight_redacted (hredact : ∀ url, Tight url → Tight (redact url)) (piece : Piece) :
    Tight (piece.redacted redact) := by
  cases piece with
  | word w => exact w.tight
  | link l =>
    have htext := l.tight_text
    rw [← List.rdropWhile_append_rtakeWhile (p := endsSentence) (l := l.text)] at htext
    intro c hc
    rcases List.mem_append.mp hc with hc | hc
    · exact hredact l.body (fun d hd => htext d (List.mem_append_left _ hd)) c hc
    · exact htext c (List.mem_append_right _ hc)

/-- A piece is redacted as it should be unless it is a link that is cut. -/
theorem Piece.redactText_eq (piece : Piece) :
    redactText redact piece.text = piece.redacted redact ↔ ∀ l, piece = .link l → l.Whole redact := by
  cases piece with
  | word w =>
    have hword : redactText redact w.text = w.text := redactText_plain w.plain
    exact iff_of_true hword fun l h => by cases h
  | link l =>
    constructor
    · rintro h _ ⟨⟩
      exact h.symm.trans (History.redactText_eq l.text)
    · intro h
      exact (History.redactText_eq l.text).trans (h l rfl).symm

theorem Message.redactText_eq (hredact : ∀ url, Tight url → Tight (redact url)) (m : Message) :
    redactText redact m.text = m.redacted redact ↔ ∀ l ∈ m.links, l.Whole redact := by
  have hlinks : (∀ l ∈ m.links, l.Whole redact) ↔
      ∀ row ∈ m.rows, redactText redact row.2.text = row.2.redacted redact := by
    constructor
    · intro h row hrow
      rw [Piece.redactText_eq]
      intro l hl
      refine h l (List.mem_filterMap.mpr ⟨row, hrow, ?_⟩)
      rw [hl]
    · intro h l hl
      obtain ⟨row, hrow, hpiece⟩ := List.mem_filterMap.mp hl
      refine (Piece.redactText_eq row.2).mp (h row hrow) l ?_
      split at hpiece
      · cases hpiece
      next heq => rw [heq, Option.some.inj hpiece]
  rw [hlinks, Message.text, redactText_rows m.last_white m.white m.apart, Message.redacted]
  constructor
  · intro h
    refine flatMap_gaps_inj (f := fun piece => redactText redact piece.text) (g := Piece.redacted redact) m.white m.apart
      m.last_white ?_ ?_ h
    · exact fun row _ => (keeps_redactText row.2.text).tight hredact row.2.tight_text
    · exact fun row _ => row.2.tight_redacted hredact
  · intro h
    rw [List.flatMap_congr fun row hrow => by rw [h row hrow]]

end

/-! ## Which links are cut -/

section

variable {redact : Text → Text}

theorem endsSentence_slash : endsSentence '/' = false := by decide

/-- The first link of such a stretch is the link. -/
theorem Link.firstLink_text {link : Link} (h : ∀ c ∈ link.rest, endsLink c = false) :
    firstLink link.text = some ⟨[], link.body, link.ending⟩ := by
  have hcolon : ':' ∉ link.scheme := fun hin => absurd (link.scheme_chars ':' hin) (by decide)
  have hfind : findMark schemeMark link.text = some (link.scheme, schemeMark ++ link.rest) := by
    rw [Link.text, List.append_assoc]
    exact findMark_of_not_mem hcolon (List.prefix_append schemeMark link.rest)
  have hopen : (schemeMark ++ link.rest).takeWhile (fun c => !endsLink c) = schemeMark ++ link.rest := by
    rw [List.takeWhile_eq_self_iff]
    intro c hc
    rw [Bool.not_eq_true']
    rcases List.mem_append.mp hc with hc | hc
    · exact endsLink_mark hc
    · exact h c hc
  have hscheme : link.scheme.rtakeWhile schemeChar = link.scheme := List.rtakeWhile_eq_self_iff.mpr link.scheme_chars
  have hnone : link.scheme.rdropWhile schemeChar = [] := List.rdropWhile_eq_nil_iff.mpr link.scheme_chars
  -- the mark's last character ends no sentence, so the link is longer than the mark
  have hbody : link.body = link.scheme ++ schemeMark ++ link.rest.rdropWhile endsSentence := by
    have hcut := rdropWhile_append_cons endsSentence_slash (link.scheme ++ [':', '/']) link.rest
    have hmark : schemeMark = [':', '/', '/'] := rfl
    simpa [Link.body, Link.text, hmark] using hcut
  have hlen : max link.body.length (link.scheme.length + schemeMark.length) = link.body.length := by
    apply max_eq_left
    rw [hbody, List.length_append, List.length_append]
    omega
  have hwhole : link.body ++ link.ending = link.scheme ++ (schemeMark ++ link.rest) := by
    rw [← List.append_assoc]
    exact List.rdropWhile_append_rtakeWhile
  have hdropped : (link.scheme ++ (schemeMark ++ link.rest)).rdropWhile endsSentence = link.body := by
    rw [← List.append_assoc]
    rfl
  rw [firstLink, hfind, Option.map_some]
  simp only [hscheme, hnone, hopen, hdropped, hlen]
  rw [← hwhole, List.take_left, List.drop_left]

theorem Link.redactText_eq {link : Link} (h : ∀ c ∈ link.rest, endsLink c = false) :
    redactText redact link.text = redact link.body ++ link.ending := by
  have hending : redactText redact link.ending = link.ending :=
    redactText_plain (not_mark_of_sentence fun c hc => List.mem_rtakeWhile_imp hc)
  rw [redactText_some (link.firstLink_text h)]
  dsimp only
  rw [hending, List.nil_append]

/-- A link without quotes and brackets is whole. -/
theorem Link.whole {link : Link} (h : ∀ c ∈ link.rest, endsLink c = false) : link.Whole redact := by
  unfold Link.Whole
  rw [← History.redactText_eq, Link.redactText_eq h]

/-- Any other is if `redact_url` changes nothing behind the first of them. -/
theorem Link.whole_iff {link front : Link} {c : Char} {tail : Text} (hc : endsLink c = true)
    (hfront : ∀ d ∈ front.rest, endsLink d = false) (htext : link.text = front.text ++ c :: tail)
    (htail : ¬schemeMark <:+: tail) :
    link.Whole redact ↔ redact link.body ++ link.ending = redact front.body ++ front.ending ++ c :: tail := by
  unfold Link.Whole
  rw [← History.redactText_eq, htext, redactText_append_stop hc, Link.redactText_eq hfront, redactText_plain htail]

end

/-! ## A crate that leaves brackets in queries -/

end Hyperfetch.History
