import Hyperfetch.Subs.Cue

/-!
# Styled text (`styled`)

The text of a paragraph's pieces, with white space run together and tags around
bold and italic runs. Reading the tags as what they switch on and off
(`Reads`), the text has the characters of the pieces, white space apart, each
once, in order and in the style of its piece.
-/

namespace Hyperfetch.Subs

open Weft

/-- A run of a paragraph's text (none: a line break) and when it shows. -/
structure Piece (τ : Type) where
  begin_ : τ
  end_ : Option τ
  text : Option Text
  italic : Bool
  bold : Bool
  deriving DecidableEq, Repr

/-- The tags open at the end of a text. -/
structure Style where
  italic : Bool
  bold : Bool
  deriving DecidableEq, Repr

def Style.plain : Style := ⟨false, false⟩

def Style.close : Style → Text
  | ⟨true, true⟩ => "</i></b>".toList
  | ⟨true, false⟩ => "</i>".toList
  | ⟨false, true⟩ => "</b>".toList
  | ⟨false, false⟩ => []

def Style.open_ (s : Style) : Text :=
  (if s.bold then "<b>".toList else []) ++ (if s.italic then "<i>".toList else [])

/-- What `styled` has written, and whether white space comes next. -/
structure Writing where
  out : Text
  style : Style
  space : Bool
  deriving DecidableEq, Repr

variable {τ : Type}

def Piece.style (piece : Piece τ) : Style := ⟨piece.italic, piece.bold⟩

def styledChar (style : Style) (s : Writing) (c : Char) : Writing :=
  if isWhite c then { s with space := true }
  else
    let spaced := if s.space && s.out ≠ [] && s.out.getLast? ≠ some '\n' then s.out ++ [' '] else s.out
    let switched := if s.style ≠ style then spaced ++ s.style.close ++ style.open_ else spaced
    { out := switched ++ [c], style, space := false }

def styledPiece (s : Writing) (piece : Piece τ) : Writing :=
  match piece.text with
  | none => { s with out := s.out ++ ['\n'], space := false }
  | some text => text.foldl (styledChar piece.style) s

def styled (pieces : List (Piece τ)) : Text :=
  let s := pieces.foldl styledPiece ⟨[], .plain, false⟩
  tidy (s.out.rdropWhile isWhite ++ (if s.style.italic then "</i>".toList else []) ++
    (if s.style.bold then "</b>".toList else []))

theorem styled_nil : styled ([] : List (Piece τ)) = [] := rfl

/-! ## Styled text, read -/

/-- A tag, and the styles it switches between: italics are within bold. -/
inductive Switches : Style → Text → Style → Prop
  | bold : Switches ⟨false, false⟩ "<b>".toList ⟨false, true⟩
  | notBold : Switches ⟨false, true⟩ "</b>".toList ⟨false, false⟩
  | italic (bold : Bool) : Switches ⟨false, bold⟩ "<i>".toList ⟨true, bold⟩
  | notItalic (bold : Bool) : Switches ⟨true, bold⟩ "</i>".toList ⟨false, bold⟩

/-- From one style to another, a text has these characters, each with its style. -/
inductive Reads : Style → Text → List (Char × Style) → Style → Prop
  | nil (s : Style) : Reads s [] [] s
  | white {s t : Style} {c : Char} {rest : Text} {shown : List (Char × Style)} (hc : isWhite c = true)
      (h : Reads s rest shown t) : Reads s (c :: rest) shown t
  | char {s t : Style} {c : Char} {rest : Text} {shown : List (Char × Style)} (hc : isWhite c = false)
      (h : Reads s rest shown t) : Reads s (c :: rest) ((c, s) :: shown) t
  | tag {s s' t : Style} {tag rest : Text} {shown : List (Char × Style)} (hs : Switches s tag s')
      (h : Reads s' rest shown t) : Reads s (tag ++ rest) shown t

/-- The characters of a piece that are not white, in its style. -/
def Piece.shown (piece : Piece τ) : List (Char × Style) :=
  ((piece.text.getD []).filter (!isWhite ·)).map fun c => (c, piece.style)

theorem Reads.append {s t u : Style} {a b : Text} {shown more : List (Char × Style)} (ha : Reads s a shown t)
    (hb : Reads t b more u) : Reads s (a ++ b) (shown ++ more) u := by
  induction ha with
  | nil s => exact hb
  | white hc h ih => exact .white hc (ih hb)
  | char hc h ih => exact .char hc (ih hb)
  | tag hs h ih =>
    rw [List.append_assoc]
    exact .tag hs (ih hb)

theorem Reads.of_switches {s t : Style} {tag : Text} (h : Switches s tag t) : Reads s tag [] t := by
  rw [← List.append_nil tag]
  exact .tag h (.nil t)

theorem reads_close (s : Style) : Reads s s.close [] .plain := by
  obtain ⟨italic, bold⟩ := s
  cases italic <;> cases bold
  · exact .nil _
  · exact .of_switches .notBold
  · exact .of_switches (.notItalic false)
  · exact (Reads.of_switches (.notItalic true)).append (.of_switches .notBold)

theorem reads_open (s : Style) : Reads .plain s.open_ [] s := by
  obtain ⟨italic, bold⟩ := s
  cases italic <;> cases bold
  · exact .nil _
  · exact .of_switches .bold
  · exact .of_switches (.italic false)
  · exact (Reads.of_switches .bold).append (.of_switches (.italic true))

/-! ## White space left out -/

/-- `b` is `a` with some of its white space left out. -/
inductive Thinned : Text → Text → Prop
  | nil : Thinned [] []
  | keep {a b : Text} (c : Char) (h : Thinned a b) : Thinned (c :: a) (c :: b)
  | drop {a b : Text} {c : Char} (hc : isWhite c = true) (h : Thinned a b) : Thinned (c :: a) b

theorem Thinned.refl (a : Text) : Thinned a a := by
  induction a with
  | nil => exact .nil
  | cons c a ih => exact .keep c ih

theorem Thinned.append {a b c d : Text} (hab : Thinned a b) (hcd : Thinned c d) : Thinned (a ++ c) (b ++ d) := by
  induction hab with
  | nil => exact hcd
  | keep c h ih => exact .keep c ih
  | drop hc h ih => exact .drop hc ih

theorem thinned_of_white {a : Text} (h : ∀ c ∈ a, isWhite c = true) : Thinned a [] := by
  induction a with
  | nil => exact .nil
  | cons c a ih => exact .drop (h c List.mem_cons_self) (ih fun d hd => h d (List.mem_cons_of_mem c hd))

/-- A tag is kept whole. -/
theorem Thinned.of_append {tag rest b : Text} (htag : ∀ c ∈ tag, isWhite c = false) (h : Thinned (tag ++ rest) b) :
    ∃ more, b = tag ++ more ∧ Thinned rest more := by
  induction tag generalizing b with
  | nil => exact ⟨b, rfl, h⟩
  | cons c tag ih =>
    cases h with
    | keep _ h =>
      obtain ⟨more, rfl, hmore⟩ := ih (fun d hd => htag d (List.mem_cons_of_mem c hd)) h
      exact ⟨more, rfl, hmore⟩
    | drop hc h =>
      rw [htag c List.mem_cons_self] at hc
      cases hc

theorem Switches.white {s t : Style} {tag : Text} (h : Switches s tag t) : ∀ c ∈ tag, isWhite c = false := by
  have hall : tag.all (!isWhite ·) = true := by
    cases h <;> rfl
  intro c hc
  have hnot := List.all_eq_true.mp hall c hc
  rwa [Bool.not_eq_true'] at hnot

/-- White space left out is read as nothing. -/
theorem Reads.thinned {s t : Style} {a b : Text} {shown : List (Char × Style)} (h : Reads s a shown t)
    (hthin : Thinned a b) : Reads s b shown t := by
  induction h generalizing b with
  | nil s =>
    cases hthin
    exact .nil s
  | white hc h ih =>
    cases hthin with
    | keep _ hthin => exact .white hc (ih hthin)
    | drop _ hthin => exact ih hthin
  | char hc h ih =>
    cases hthin with
    | keep _ hthin => exact .char hc (ih hthin)
    | drop hwhite _ =>
      rw [hc] at hwhite
      cases hwhite
  | tag hs h ih =>
    obtain ⟨more, rfl, hmore⟩ := hthin.of_append hs.white
    exact .tag hs (ih hmore)

theorem thinned_rdropWhile (a : Text) : Thinned a (a.rdropWhile isWhite) := by
  obtain ⟨back, hback, hwhite⟩ := exists_rdropWhile isWhite a
  have happend := (Thinned.refl (a.rdropWhile isWhite)).append (thinned_of_white hwhite)
  rwa [← hback, List.append_nil] at happend

theorem thinned_trim (a : Text) : Thinned a (trim a) := by
  obtain ⟨front, back, ha, hfront, hback⟩ := exists_strip isWhite a
  have happend := (thinned_of_white hfront).append ((Thinned.refl (strip isWhite a)).append (thinned_of_white hback))
  rw [← ha, List.nil_append, List.append_nil] at happend
  exact happend

theorem tidyLines_line {line : Text} (h : '\n' ∉ line) (rest : Text) :
    tidyLines (line ++ '\n' :: rest) = if trim line = [] then tidyLines rest else trim line :: tidyLines rest := by
  rw [tidyLines, lines_line h, List.map_cons, List.filter_cons]
  by_cases hnil : trim line = []
  · rw [if_neg (by simp [hnil]), if_pos hnil]
    rfl
  · rw [if_pos (decide_eq_true hnil), if_neg hnil]
    rfl

theorem thinned_tidy (text : Text) : Thinned text (tidy text) := by
  induction hlen : text.length using Nat.strong_induction_on generalizing text with
  | _ n ih =>
    rcases exists_line_or '\n' text with hnot | ⟨line, rest, hline, rfl⟩
    · rcases eq_or_ne text [] with rfl | hne
      · exact .nil
      · have htidy : tidy text = trim text := by
          rw [tidy, tidyLines, lines_single hne hnot, List.map_singleton, List.filter_singleton]
          by_cases hnil : trim text = []
          · simp [hnil, joinLines]
          · simp [hnil, joinLines, List.intercalate]
        rw [htidy]
        exact thinned_trim text
    · rw [List.length_append, List.length_cons] at hlen
      have hrest := ih rest.length (by omega) rest rfl
      have hbreak : isWhite '\n' = true := rfl
      by_cases hnil : trim line = []
      · have htidy : tidy (line ++ '\n' :: rest) = [] ++ tidy rest := by
          rw [tidy, tidyLines_line hline, if_pos hnil]
          rfl
        rw [htidy]
        exact (hnil ▸ thinned_trim line).append (.drop hbreak hrest)
      · cases hmore : tidyLines rest with
        | nil =>
          have hempty : tidy rest = [] := by
            rw [tidy, hmore]
            rfl
          have htidy : tidy (line ++ '\n' :: rest) = trim line ++ [] := by
            rw [tidy, tidyLines_line hline, if_neg hnil, hmore]
            simp [joinLines, List.intercalate]
          rw [htidy]
          exact (thinned_trim line).append (.drop hbreak (hempty ▸ hrest))
        | cons next more =>
          have htidy : tidy (line ++ '\n' :: rest) = trim line ++ '\n' :: tidy rest := by
            rw [tidy, tidyLines_line hline, if_neg hnil, tidy, hmore]
            simp [joinLines, List.intercalate_cons_cons]
          rw [htidy]
          exact (thinned_trim line).append (.keep '\n' hrest)

/-! ## What is written -/

/-- What is written so far has these characters. -/
def Writing.Has (s : Writing) (shown : List (Char × Style)) : Prop := Reads .plain s.out shown s.style

theorem Writing.Has.char {s : Writing} {shown : List (Char × Style)} (h : s.Has shown) (style : Style) (c : Char) :
    (styledChar style s c).Has (shown ++ if isWhite c then [] else [(c, style)]) := by
  unfold styledChar
  by_cases hc : isWhite c = true
  · rw [if_pos hc, if_pos hc, List.append_nil]
    exact h
  · rw [if_neg hc, if_neg hc]
    dsimp only
    have hspaced : Reads .plain (if s.space && s.out ≠ [] && s.out.getLast? ≠ some '\n' then s.out ++ [' '] else s.out)
        shown s.style := by
      split
      · have hspace := h.append (.white (c := ' ') rfl (.nil s.style))
        rwa [List.append_nil] at hspace
      · exact h
    generalize (if s.space && s.out ≠ [] && s.out.getLast? ≠ some '\n' then s.out ++ [' '] else s.out) = spaced at hspaced ⊢
    have hswitched : Reads .plain (if s.style ≠ style then spaced ++ s.style.close ++ style.open_ else spaced) shown style := by
      split
      · have hopen := (hspaced.append (reads_close s.style)).append (reads_open style)
        rwa [List.append_nil, List.append_nil] at hopen
      · rename_i hsame
        exact (not_not.mp hsame) ▸ hspaced
    exact hswitched.append (.char (Bool.eq_false_iff.mpr hc) (.nil style))

theorem Writing.Has.chars {s : Writing} {shown : List (Char × Style)} (h : s.Has shown) (style : Style) (text : Text) :
    (text.foldl (styledChar style) s).Has (shown ++ (text.filter (!isWhite ·)).map fun c => (c, style)) := by
  induction text generalizing s shown with
  | nil =>
    rw [List.filter_nil, List.map_nil, List.append_nil]
    exact h
  | cons c text ih =>
    have hnext := ih (h.char style c)
    rw [List.append_assoc] at hnext
    rw [List.foldl_cons, List.filter_cons]
    cases hc : isWhite c with
    | true =>
      rw [hc] at hnext
      exact hnext
    | false =>
      rw [hc] at hnext
      exact hnext

theorem Writing.Has.piece {s : Writing} {shown : List (Char × Style)} (h : s.Has shown) (piece : Piece τ) :
    (styledPiece s piece).Has (shown ++ piece.shown) := by
  unfold styledPiece Piece.shown
  cases piece.text with
  | none =>
    have hbreak := Reads.append h (.white (c := '\n') rfl (.nil s.style))
    exact hbreak
  | some text => exact h.chars piece.style text

theorem Writing.Has.pieces {s : Writing} {shown : List (Char × Style)} (h : s.Has shown) (pieces : List (Piece τ)) :
    (pieces.foldl styledPiece s).Has (shown ++ pieces.flatMap Piece.shown) := by
  induction pieces generalizing s shown with
  | nil =>
    rw [List.flatMap_nil, List.append_nil]
    exact h
  | cons piece pieces ih =>
    have hnext := ih (h.piece piece)
    rw [List.append_assoc] at hnext
    exact hnext

/-- The text has the characters of the pieces, each once, in order and styled as
its piece is, and no tag is left open. -/
theorem reads_styled (pieces : List (Piece τ)) : Reads .plain (styled pieces) (pieces.flatMap Piece.shown) .plain := by
  have hstart : Writing.Has ⟨[], .plain, false⟩ [] := .nil _
  have hall := hstart.pieces pieces
  rw [List.nil_append] at hall
  unfold styled
  dsimp only
  generalize pieces.foldl styledPiece ⟨[], .plain, false⟩ = s at hall ⊢
  have hclose : (if s.style.italic then "</i>".toList else []) ++ (if s.style.bold then "</b>".toList else []) =
      s.style.close := by
    obtain ⟨_, ⟨italic, bold⟩, _⟩ := s
    cases italic <;> cases bold <;> rfl
  rw [List.append_assoc, hclose]
  have hclosed := (Reads.thinned hall (thinned_rdropWhile s.out)).append (reads_close s.style)
  rw [List.append_nil] at hclosed
  exact hclosed.thinned (thinned_tidy _)

end Hyperfetch.Subs
