import Hyperfetch.Subs.Styled
import Hyperfetch.Weft.Cuts

/-!
# A paragraph's pieces in time (`close`)

The end of a TTML paragraph cuts time at every begin and end of its pieces, and
gives the text of each stretch in which any shows. Times are of any linear
order with a last one, which stands for `INFINITY`: only comparisons are made
of them here.
-/

namespace Hyperfetch.Subs

open Weft

variable {τ : Type}

/-- What an open element passes to what it holds. -/
structure Scope (τ : Type) where
  begin_ : τ
  end_ : Option τ
  italic : Bool
  bold : Bool
  skip : Bool
  paragraph : Bool
  deriving DecidableEq, Repr

/-- Text shown from `begin_` to `end_` (none: until what holds it ends). -/
structure Timed (τ : Type) where
  begin_ : τ
  end_ : Option τ
  text : Text
  deriving DecidableEq, Repr

/-- A document half read: the open elements, innermost first, the pieces of the
open paragraph and the text so far. -/
structure Document (τ : Type) where
  stack : List (Scope τ)
  pieces : List (Piece τ)
  out : List (Timed τ)

variable [LinearOrder τ] [OrderTop τ]

def Piece.stop (piece : Piece τ) : τ := piece.end_.getD ⊤

/-- Every begin and end, in order, each once. -/
def cuts (pieces : List (Piece τ)) : List τ :=
  dedupRuns ((pieces.flatMap fun p => [p.begin_, p.stop]).mergeSort (· ≤ ·))

def Piece.showsIn (piece : Piece τ) (w : τ × τ) : Bool := piece.begin_ ≤ w.1 && piece.end_.all (w.2 ≤ ·)

/-- The text of a stretch of time, none if there is none. -/
def stretch (pieces : List (Piece τ)) (w : τ × τ) : Option (Timed τ) :=
  let text := styled (pieces.filter (·.showsIn w))
  if text ≠ [] then some { begin_ := w.1, end_ := if w.2 ≠ ⊤ then some w.2 else none, text } else none

def close (doc : Document τ) : Bool × Document τ :=
  match doc.stack with
  | [] => (true, doc)
  | scope :: stack =>
    let closed :=
      if scope.paragraph && !stack.head?.any (·.paragraph) then
        { stack, pieces := [], out := doc.out ++ (windows (cuts doc.pieces)).filterMap (stretch doc.pieces) }
      else { doc with stack }
    (stack.isEmpty, closed)

/-! ## Cut points -/

theorem mem_cuts {pieces : List (Piece τ)} {piece : Piece τ} (h : piece ∈ pieces) :
    piece.begin_ ∈ cuts pieces ∧ piece.stop ∈ cuts pieces := by
  have hmem : ∀ t ∈ [piece.begin_, piece.stop], t ∈ cuts pieces := by
    intro t ht
    rw [cuts, mem_dedupRuns, List.mem_mergeSort]
    exact List.mem_flatMap.mpr ⟨piece, h, ht⟩
  exact ⟨hmem _ List.mem_cons_self, hmem _ (List.mem_cons_of_mem _ List.mem_cons_self)⟩

theorem rising_cuts (pieces : List (Piece τ)) : (cuts pieces).Pairwise (· < ·) := by
  have htrans : ∀ a b c : τ, decide (a ≤ b) = true → decide (b ≤ c) = true → decide (a ≤ c) = true :=
    fun a b c hab hbc => decide_eq_true ((of_decide_eq_true hab).trans (of_decide_eq_true hbc))
  have htotal : ∀ a b : τ, (decide (a ≤ b) || decide (b ≤ a)) = true := by
    intro a b
    simpa using le_total a b
  have hsorted := List.pairwise_mergeSort htrans htotal (pieces.flatMap fun p => [p.begin_, p.stop])
  exact pairwise_dedupRuns (hsorted.imp of_decide_eq_true)

/-! ## What shows when -/

def Piece.activeAt (piece : Piece τ) (t : τ) : Bool := piece.begin_ ≤ t && piece.end_.all (t < ·)

def Timed.ShownAt (c : Timed τ) (t : τ) : Prop := c.begin_ ≤ t ∧ ∀ e, c.end_ = some e → t < e

theorem lt_stop_of_active {piece : Piece τ} {t : τ} (h : piece.activeAt t = true) (ht : t < ⊤) :
    piece.begin_ ≤ t ∧ t < piece.stop := by
  obtain ⟨hbegin, hend⟩ := Bool.and_eq_true_iff.mp h
  refine ⟨of_decide_eq_true hbegin, ?_⟩
  unfold Piece.stop
  cases hstop : piece.end_ with
  | none => exact ht
  | some e =>
    rw [hstop] at hend
    exact of_decide_eq_true hend

/-- A piece shows in a stretch if it does at any time of it: it neither begins
nor ends within. -/
theorem showsIn_eq_activeAt {pieces : List (Piece τ)} {w : τ × τ} (hw : w ∈ windows (cuts pieces)) {t : τ}
    (hfrom : w.1 ≤ t) (hto : t < w.2) {piece : Piece τ} (h : piece ∈ pieces) : piece.showsIn w = piece.activeAt t := by
  have hrising := rising_cuts pieces
  obtain ⟨hbegin, hstop⟩ := mem_cuts h
  have hbegins : piece.begin_ ≤ w.1 ↔ piece.begin_ ≤ t := by
    constructor
    · exact fun hle => hle.trans hfrom
    · intro hle
      rcases le_or_le_of_mem_windows hrising hw hbegin with hbefore | hafter
      · exact hbefore
      · exact absurd (hto.trans_le (hafter.trans hle)) (lt_irrefl t)
  have hends : piece.end_.all (w.2 ≤ ·) = piece.end_.all (t < ·) := by
    unfold Piece.stop at hstop
    cases hend : piece.end_ with
    | none => rfl
    | some e =>
      rw [hend] at hstop
      have hiff : w.2 ≤ e ↔ t < e := by
        constructor
        · exact fun hle => hto.trans_le hle
        · intro hlt
          rcases le_or_le_of_mem_windows hrising hw hstop with hbefore | hafter
          · exact absurd (hlt.trans_le (hbefore.trans hfrom)) (lt_irrefl t)
          · exact hafter
      exact decide_eq_decide.mpr hiff
  rw [Piece.showsIn, Piece.activeAt, hends, decide_eq_decide.mpr hbegins]

theorem filter_showsIn {pieces : List (Piece τ)} {w : τ × τ} (hw : w ∈ windows (cuts pieces)) {t : τ}
    (hfrom : w.1 ≤ t) (hto : t < w.2) : pieces.filter (·.showsIn w) = pieces.filter (·.activeAt t) :=
  List.filter_congr fun _ h => showsIn_eq_activeAt hw hfrom hto h

theorem stretch_eq_some {pieces : List (Piece τ)} {w : τ × τ} {c : Timed τ} :
    stretch pieces w = some c ↔ styled (pieces.filter (·.showsIn w)) ≠ [] ∧
      c = { begin_ := w.1, end_ := if w.2 ≠ ⊤ then some w.2 else none, text := styled (pieces.filter (·.showsIn w)) } := by
  unfold stretch
  dsimp only
  split
  · rename_i hne
    rw [Option.some_inj]
    exact ⟨fun heq => ⟨hne, heq.symm⟩, fun h => h.2.symm⟩
  · rename_i hnil
    constructor
    · intro h
      cases h
    · exact fun h => absurd h.1 hnil

/-- A stretch's text shows from its begin to its end. -/
theorem shownAt_stretch {pieces : List (Piece τ)} {w : τ × τ} {c : Timed τ} (h : stretch pieces w = some c) {t : τ}
    (ht : t < ⊤) : c.ShownAt t ↔ w.1 ≤ t ∧ t < w.2 := by
  obtain ⟨_, rfl⟩ := stretch_eq_some.mp h
  refine and_congr_right fun _ => ?_
  dsimp only
  split
  · exact ⟨fun hall => hall _ rfl, fun hlt e he => Option.some_inj.mp he ▸ hlt⟩
  · rename_i htop
    rw [not_not.mp htop]
    exact ⟨fun _ => ht, fun _ e he => nomatch he⟩

/-! ## The cues of a paragraph -/

/-- `cues` show, in turn, what `pieces` show together at each time. -/
structure InTurn (pieces : List (Piece τ)) (cues : List (Timed τ)) : Prop where
  begins : ∀ c ∈ cues, c.begin_ < ⊤ ∧ ∀ e, c.end_ = some e → c.begin_ < e
  ordered : cues.Pairwise fun a b => ∃ e, a.end_ = some e ∧ e ≤ b.begin_
  shows : ∀ t < ⊤, ∀ text, (∃ c ∈ cues, c.ShownAt t ∧ c.text = text) ↔
    text = styled (pieces.filter (·.activeAt t)) ∧ text ≠ []
  silent : ∀ t < ⊤, (∀ p ∈ pieces, p.activeAt t = false) → ∀ c ∈ cues, ¬ c.ShownAt t
  reads : ∀ t < ⊤, ∀ c ∈ cues, c.ShownAt t →
    Reads .plain c.text ((pieces.filter (·.activeAt t)).flatMap Piece.shown) .plain

theorem inTurn_stretches (pieces : List (Piece τ)) : InTurn pieces ((windows (cuts pieces)).filterMap (stretch pieces)) := by
  have hrising := rising_cuts pieces
  -- what shows at a time is the text of the stretch it is in
  have htext : ∀ t < ⊤, ∀ c ∈ (windows (cuts pieces)).filterMap (stretch pieces), c.ShownAt t →
      c.text = styled (pieces.filter (·.activeAt t)) ∧ c.text ≠ [] := by
    intro t ht c hc hshown
    obtain ⟨w, hw, hstretch⟩ := List.mem_filterMap.mp hc
    obtain ⟨hfrom, hto⟩ := (shownAt_stretch hstretch ht).mp hshown
    obtain ⟨hne, rfl⟩ := stretch_eq_some.mp hstretch
    rw [filter_showsIn hw hfrom hto] at hne ⊢
    exact ⟨rfl, hne⟩
  constructor
  case begins =>
    intro c hc
    obtain ⟨w, hw, hstretch⟩ := List.mem_filterMap.mp hc
    have hlt := lt_of_mem_windows hrising hw
    obtain ⟨_, rfl⟩ := stretch_eq_some.mp hstretch
    refine ⟨hlt.trans_le le_top, fun e he => ?_⟩
    dsimp only at he ⊢
    split at he
    · exact Option.some_inj.mp he ▸ hlt
    · cases he
  case ordered =>
    rw [List.pairwise_filterMap]
    refine (pairwise_windows hrising).imp_of_mem fun {v w} hv hw hle a ha b hb => ?_
    obtain ⟨_, rfl⟩ := stretch_eq_some.mp ha
    obtain ⟨_, rfl⟩ := stretch_eq_some.mp hb
    have hfinite : v.2 ≠ ⊤ := (hle.trans_lt ((lt_of_mem_windows hrising hw).trans_le le_top)).ne
    exact ⟨v.2, if_pos hfinite, hle⟩
  case shows =>
    intro t ht text
    constructor
    · rintro ⟨c, hc, hshown, rfl⟩
      exact htext t ht c hc hshown
    · rintro ⟨rfl, hne⟩
      obtain ⟨p, hp, hactive⟩ : ∃ p ∈ pieces, p.activeAt t = true := by
        by_contra hnone
        have hnil : pieces.filter (·.activeAt t) = [] :=
          List.filter_eq_nil_iff.mpr fun p hp hactive => hnone ⟨p, hp, hactive⟩
        rw [hnil] at hne
        exact hne styled_nil
      obtain ⟨hbegin, hstop⟩ := lt_stop_of_active hactive ht
      obtain ⟨hbegins, hstops⟩ := mem_cuts hp
      obtain ⟨w, hw, hfrom, hto⟩ := exists_window hrising ⟨_, hbegins, hbegin⟩ ⟨_, hstops, hstop⟩
      have hsame := filter_showsIn hw hfrom hto
      have hstretch : stretch pieces w = some _ := stretch_eq_some.mpr ⟨by rw [hsame]; exact hne, rfl⟩
      refine ⟨_, List.mem_filterMap.mpr ⟨w, hw, hstretch⟩, (shownAt_stretch hstretch ht).mpr ⟨hfrom, hto⟩, ?_⟩
      exact congrArg styled hsame
  case silent =>
    intro t ht hnone c hc hshown
    obtain ⟨hsame, hne⟩ := htext t ht c hc hshown
    have hnil : pieces.filter (·.activeAt t) = [] :=
      List.filter_eq_nil_iff.mpr fun p hp hactive => Bool.false_ne_true ((hnone p hp).symm.trans hactive)
    rw [hsame, hnil] at hne
    exact hne styled_nil
  case reads =>
    intro t ht c hc hshown
    rw [(htext t ht c hc hshown).1]
    exact reads_styled _

/-- The end of a paragraph adds cues that show its pieces in turn. -/
theorem close_paragraph {scope : Scope τ} {stack : List (Scope τ)} (hparagraph : scope.paragraph = true)
    (houter : ∀ outer, stack.head? = some outer → outer.paragraph = false) (pieces : List (Piece τ)) (out : List (Timed τ)) :
    ∃ cues, close ⟨scope :: stack, pieces, out⟩ = (stack.isEmpty, ⟨stack, [], out ++ cues⟩) ∧ InTurn pieces cues := by
  refine ⟨_, ?_, inTurn_stretches pieces⟩
  have hlast : stack.head?.any (·.paragraph) = false := by
    cases hhead : stack.head? with
    | none => rfl
    | some outer => exact houter outer hhead
  unfold close
  dsimp only
  rw [hparagraph, hlast]
  rfl

/-- Two pieces that overlap. -/
theorem close_paragraph_overlap :
    ∃ cues, close ⟨[(⟨0, none, false, false, false, true⟩ : Scope (WithTop ℕ))],
        [⟨0, some 2, some "a".toList, true, false⟩, ⟨1, none, some "b".toList, false, false⟩], []⟩ = (true, ⟨[], [], cues⟩) ∧
      InTurn [⟨0, some 2, some "a".toList, true, false⟩, ⟨1, none, some "b".toList, false, false⟩] cues :=
  close_paragraph rfl (fun _ houter => by cases houter) _ []

end Hyperfetch.Subs
