import Hyperfetch.Subs.Cue
import Hyperfetch.Weft.Checked
import Hyperfetch.Weft.Spans
import Hyperfetch.Weft.Table

/-!
# Joining and moving cues (`join`, `shift`)

`join` goes through the cues in order of start and keeps, for each text, the
place of the last cue put out. One turn either puts a cue out or makes the last
one of its text longer (`JoinedTo`). What is out is at every turn the join of
the spans gone through (`Joining`), which no order of the cues changes.
-/

namespace Hyperfetch.Subs

open Weft

/-- The largest gap (ms) between a cue and the same text behind it. -/
def joinGapMs : Nat := 1

/-- One turn: the cues put out, and where the last one of each text is. -/
def joinStep (s : List Cue × Table Text Nat) (cue : Cue) : Checked Empty (List Cue × Table Text Nat) :=
  let pushed := (s.1 ++ [cue], s.2.set cue.text s.1.length)
  match s.2.get cue.text with
  | none => .ok pushed
  | some i => do
    let found ← Checked.index s.1 i
    let reach ← Checked.add found.end_ joinGapMs
    if cue.start ≤ reach then .ok (s.1.set i { found with end_ := max found.end_ cue.end_ }, s.2)
    else .ok pushed

def join (cues : List Cue) : Checked Empty (List Cue) := do
  let s ← (cues.mergeSort fun a b => a.start ≤ b.start).foldlM joinStep ([], Table.empty)
  .ok s.1

/-- `saturating_add_signed`. -/
def moved (t : Nat) (byMs : Int) : Nat := min (t + byMs).toNat Checked.wordMax

def shift (cues : List Cue) (byMs : Int) : List Cue :=
  (cues.filter fun c => 0 < moved c.end_ byMs).map fun c =>
    { c with start := moved c.start byMs, end_ := moved c.end_ byMs }

/-! ## The cues there are -/

/-- A cue that does not end before it starts, nor at the last time there is. -/
structure Cue.Timed (c : Cue) : Prop where
  le : c.start ≤ c.end_
  lt : c.end_ < Checked.wordMax

theorem timed_of_cue {start end_ : Int} {text : Text} {c : Cue} (h : cue start end_ text = some c) (hend : end_ < 2 ^ 63) :
    c.Timed ∧ c.end_ < 2 ^ 63 := by
  have hlt := (shows_of_cue h).lt
  unfold cue at h
  dsimp only at h
  split at h
  · cases h
    dsimp only at hlt ⊢
    exact ⟨⟨Nat.le_of_lt hlt, by dsimp only; unfold Checked.wordMax; omega⟩, by omega⟩
  · cases h

theorem timed_of_shift {cues : List Cue} (h : ∀ c ∈ cues, c.start ≤ c.end_ ∧ c.end_ < 2 ^ 63) {byMs : Int} (hby : byMs < 2 ^ 63) :
    ∀ c ∈ shift cues byMs, c.Timed := by
  intro c hc
  obtain ⟨d, hd, rfl⟩ := List.mem_map.mp hc
  obtain ⟨hle, hlt⟩ := h d (List.mem_of_mem_filter hd)
  constructor
  · show moved d.start byMs ≤ moved d.end_ byMs
    unfold moved
    omega
  · show moved d.end_ byMs < Checked.wordMax
    unfold moved Checked.wordMax
    omega

/-! ## One turn -/

/-- What one turn makes of the cues put out. -/
inductive JoinedTo (cue : Cue) : List Cue → List Cue → Prop
  | push {out : List Cue} (h : ∀ o ∈ out, o.text = cue.text → o.end_ + joinGapMs < cue.start) :
      JoinedTo cue out (out ++ [cue])
  | extend {front back : List Cue} {o : Cue} (htext : o.text = cue.text) (hlast : ∀ p ∈ back, p.text ≠ cue.text)
      (hreach : cue.start ≤ o.end_ + joinGapMs) :
      JoinedTo cue (front ++ o :: back) (front ++ { o with end_ := max o.end_ cue.end_ } :: back)

/-- Cues in order, no two of one text in each other's reach. -/
def Spaced (out : List Cue) : Prop := out.Pairwise fun a b => a.text = b.text → a.end_ + joinGapMs < b.start

/-- The table has the place of the last of each text. -/
def Indexed (texts : List Text) (last : Table Text Nat) : Prop :=
  ∀ text,
    (last.get text = none ∧ text ∉ texts) ∨
      ∃ front back, texts = front ++ text :: back ∧ last.get text = some front.length ∧ text ∉ back

theorem indexed_empty : Indexed [] Table.empty := fun _ => .inl ⟨rfl, List.not_mem_nil⟩

theorem Indexed.push {texts : List Text} {last : Table Text Nat} (h : Indexed texts last) (text : Text) :
    Indexed (texts ++ [text]) (last.set text texts.length) := by
  intro other
  rw [Table.get_set]
  by_cases hother : other = text
  · subst hother
    exact .inr ⟨texts, [], rfl, if_pos rfl, List.not_mem_nil⟩
  · rw [if_neg hother]
    rcases h other with ⟨hnone, hnot⟩ | ⟨front, back, rfl, hsome, hnot⟩
    · exact .inl ⟨hnone, by simp [hnot, hother]⟩
    · exact .inr ⟨front, back ++ [text], by simp, hsome, by simp [hnot, hother]⟩

/-- A turn does not fault, and does what `JoinedTo` says. -/
theorem joinStep_spec {out : List Cue} {last : Table Text Nat} (hindexed : Indexed (out.map Cue.text) last)
    (hspaced : Spaced out) (htimed : ∀ o ∈ out, o.Timed) (cue : Cue) :
    ∃ out' last', joinStep (out, last) cue = .ok (out', last') ∧ Indexed (out'.map Cue.text) last' ∧ JoinedTo cue out out' := by
  have hpush : Indexed ((out ++ [cue]).map Cue.text) (last.set cue.text out.length) := by
    have hpushed := hindexed.push cue.text
    rw [List.length_map] at hpushed
    rw [List.map_append]
    exact hpushed
  rcases hindexed cue.text with ⟨hnone, hnot⟩ | ⟨front, back, htexts, hsome, hnot⟩
  · refine ⟨out ++ [cue], last.set cue.text out.length, ?_, hpush, .push fun o ho htext => ?_⟩
    · unfold joinStep
      rw [hnone]
    · exact absurd (htext ▸ List.mem_map_of_mem ho) hnot
  · obtain ⟨front, more, rfl, rfl, hmore⟩ := List.map_eq_append_iff.mp htexts
    obtain ⟨o, back, rfl, htext, rfl⟩ := List.map_eq_cons_iff.mp hmore
    have ho : o ∈ front ++ o :: back := List.mem_append_right front List.mem_cons_self
    have hfound : (front ++ o :: back)[front.length]? = some o := by
      rw [List.getElem?_append_right (Nat.le_refl _), Nat.sub_self]
      rfl
    have hstep : joinStep (front ++ o :: back, last) cue =
        if cue.start ≤ o.end_ + joinGapMs then
          .ok ((front ++ o :: back).set front.length { o with end_ := max o.end_ cue.end_ }, last)
        else .ok (front ++ o :: back ++ [cue], last.set cue.text (front ++ o :: back).length) := by
      have hadd : (Checked.add o.end_ joinGapMs : Checked Empty Nat) = .ok (o.end_ + joinGapMs) :=
        Checked.add_eq (htimed o ho).lt
      unfold joinStep
      rw [hsome, List.length_map]
      dsimp only
      rw [Checked.index_eq hfound, Checked.ok_bind, hadd, Checked.ok_bind]
    have hlast : ∀ p ∈ back, p.text ≠ cue.text := fun p hp heq => hnot (heq ▸ List.mem_map_of_mem hp)
    by_cases hreach : cue.start ≤ o.end_ + joinGapMs
    · rw [if_pos hreach] at hstep
      refine ⟨front ++ { o with end_ := max o.end_ cue.end_ } :: back, last, ?_, ?_, .extend htext hlast hreach⟩
      · rw [hstep]
        simp
      · simpa using hindexed
    · rw [if_neg hreach] at hstep
      refine ⟨_, _, hstep, hpush, .push fun p hp hsame => ?_⟩
      -- one before the last of its text ends before that one starts
      obtain ⟨_, hcons, hcross⟩ := List.pairwise_append.mp hspaced
      rcases List.mem_append.mp hp with hp | hp
      · have hbefore := hcross p hp o List.mem_cons_self (hsame.trans htext.symm)
        have hle := (htimed o ho).le
        omega
      · rcases List.mem_cons.mp hp with rfl | hp
        · omega
        · exact absurd hsame (hlast p hp)


/-! ## What is out after some turns -/

def Cue.span (c : Cue) : Span Text Nat := ⟨c.text, c.start, c.end_⟩

def spans (cues : List Cue) : Set (Span Text Nat) := { s | ∃ c ∈ cues, c.span = s }

theorem mem_spans {cues : List Cue} {c : Cue} (h : c ∈ cues) : c.span ∈ spans cues := ⟨c, h, rfl⟩

/-- `done` are the cues gone through, `out` those put out. -/
structure Joining (done out : List Cue) : Prop where
  timed : ∀ o ∈ out, o.Timed
  sorted : out.Pairwise fun a b => a.start ≤ b.start
  spaced : Spaced out
  begun : ∀ o ∈ out, ∃ d ∈ done, d.text = o.text ∧ d.start = o.start
  ended : ∀ o ∈ out, ∃ d ∈ done, d.text = o.text ∧ d.end_ = o.end_
  covers : ∀ d ∈ done, ∃ o ∈ out, d.span.Within o.span
  least : ∀ G, Span.Apart (· + joinGapMs) G → Span.Covers G (spans done) → Span.Covers G (spans out)
  filled : ∀ o ∈ out, ∀ ms, o.start ≤ ms → ms < o.end_ →
    (∃ d ∈ done, d.text = o.text ∧ d.start ≤ ms ∧ ms < d.end_) ∨
      ∃ a ∈ done, ∃ b ∈ done, a.text = o.text ∧ b.text = o.text ∧ a.end_ ≤ ms ∧ ms < b.start ∧
        b.start ≤ a.end_ + joinGapMs

theorem joining_nil : Joining [] [] where
  timed _ h := absurd h List.not_mem_nil
  sorted := .nil
  spaced := .nil
  begun _ h := absurd h List.not_mem_nil
  ended _ h := absurd h List.not_mem_nil
  covers _ h := absurd h List.not_mem_nil
  least _ _ _ := fun _ ⟨_, h, _⟩ => absurd h List.not_mem_nil
  filled _ h := absurd h List.not_mem_nil

theorem Joining.push {done out : List Cue} {cue : Cue} (h : Joining done out) (htimed : cue.Timed)
    (hafter : ∀ d ∈ done, d.start ≤ cue.start)
    (hclear : ∀ o ∈ out, o.text = cue.text → o.end_ + joinGapMs < cue.start) : Joining (done ++ [cue]) (out ++ [cue]) := by
  have hin : ∀ {d}, d ∈ done → d ∈ done ++ [cue] := List.mem_append_left [cue]
  have hcue : ∀ all : List Cue, cue ∈ all ++ [cue] := fun all => List.mem_append_right all List.mem_cons_self
  constructor
  case timed =>
    intro o ho
    rcases List.mem_append.mp ho with ho | ho
    · exact h.timed o ho
    · exact List.mem_singleton.mp ho ▸ htimed
  case sorted =>
    refine List.pairwise_append.mpr ⟨h.sorted, List.pairwise_singleton _ _, fun o ho c hc => ?_⟩
    obtain ⟨d, hd, _, hstart⟩ := h.begun o ho
    rw [List.mem_singleton.mp hc, ← hstart]
    exact hafter d hd
  case spaced =>
    refine List.pairwise_append.mpr ⟨h.spaced, List.pairwise_singleton _ _, fun o ho c hc => ?_⟩
    rw [List.mem_singleton.mp hc]
    exact hclear o ho
  case begun =>
    intro o ho
    rcases List.mem_append.mp ho with ho | ho
    · obtain ⟨d, hd, hsame⟩ := h.begun o ho
      exact ⟨d, hin hd, hsame⟩
    · exact ⟨cue, hcue done, List.mem_singleton.mp ho ▸ ⟨rfl, rfl⟩⟩
  case ended =>
    intro o ho
    rcases List.mem_append.mp ho with ho | ho
    · obtain ⟨d, hd, hsame⟩ := h.ended o ho
      exact ⟨d, hin hd, hsame⟩
    · exact ⟨cue, hcue done, List.mem_singleton.mp ho ▸ ⟨rfl, rfl⟩⟩
  case covers =>
    intro d hd
    rcases List.mem_append.mp hd with hd | hd
    · obtain ⟨o, ho, hwithin⟩ := h.covers d hd
      exact ⟨o, List.mem_append_left _ ho, hwithin⟩
    · exact ⟨cue, hcue out, List.mem_singleton.mp hd ▸ Span.Within.refl _⟩
  case least =>
    intro G hG hdone s hs
    obtain ⟨o, ho, rfl⟩ := hs
    rcases List.mem_append.mp ho with ho | ho
    · exact h.least G hG (fun s ⟨d, hd, hspan⟩ => hdone s ⟨d, hin hd, hspan⟩) _ (mem_spans ho)
    · exact List.mem_singleton.mp ho ▸ hdone _ (mem_spans (hcue done))
  case filled =>
    intro o ho ms hstart hend
    rcases List.mem_append.mp ho with ho | ho
    · rcases h.filled o ho ms hstart hend with ⟨d, hd, hcovered⟩ | ⟨a, ha, b, hb, hgap⟩
      · exact .inl ⟨d, hin hd, hcovered⟩
      · exact .inr ⟨a, hin ha, b, hin hb, hgap⟩
    · obtain rfl := List.mem_singleton.mp ho
      exact .inl ⟨o, hcue done, rfl, hstart, hend⟩

theorem Joining.extend {done front back : List Cue} {o cue : Cue} (h : Joining done (front ++ o :: back)) (htimed : cue.Timed)
    (hafter : ∀ d ∈ done, d.start ≤ cue.start) (htext : o.text = cue.text) (hlast : ∀ p ∈ back, p.text ≠ cue.text)
    (hreach : cue.start ≤ o.end_ + joinGapMs) :
    Joining (done ++ [cue]) (front ++ { o with end_ := max o.end_ cue.end_ } :: back) := by
  have hin : ∀ {d}, d ∈ done → d ∈ done ++ [cue] := List.mem_append_left [cue]
  have hcue : cue ∈ done ++ [cue] := List.mem_append_right done List.mem_cons_self
  have ho : o ∈ front ++ o :: back := List.mem_append_right front List.mem_cons_self
  have hotimed := h.timed o ho
  obtain ⟨d₀, hd₀, _, hd₀start⟩ := h.begun o ho
  have hstart : o.start ≤ cue.start := hd₀start ▸ hafter d₀ hd₀
  obtain ⟨d₁, hd₁, hd₁text, hd₁end⟩ := h.ended o ho
  -- what is out is the longer cue or was out before
  have hold : ∀ p ∈ front ++ { o with end_ := max o.end_ cue.end_ } :: back,
      p = { o with end_ := max o.end_ cue.end_ } ∨ p ∈ front ++ o :: back := by
    intro p hp
    simp only [List.mem_append, List.mem_cons] at hp ⊢
    tauto
  constructor
  case timed =>
    intro p hp
    rcases hold p hp with rfl | hp
    · exact ⟨le_max_of_le_left hotimed.le, max_lt hotimed.lt htimed.lt⟩
    · exact h.timed p hp
  case sorted =>
    have hsorted := h.sorted
    simp only [List.pairwise_append, List.pairwise_cons, List.forall_mem_cons] at hsorted ⊢
    exact hsorted
  case spaced =>
    obtain ⟨hfront, hcons, hcross⟩ := List.pairwise_append.mp h.spaced
    obtain ⟨_, hback⟩ := List.pairwise_cons.mp hcons
    refine List.pairwise_append.mpr ⟨hfront, List.pairwise_cons.mpr ⟨fun p hp hsame => ?_, hback⟩, fun a ha p hp => ?_⟩
    · exact absurd (hsame.symm.trans htext) (hlast p hp)
    · rcases List.mem_cons.mp hp with rfl | hp
      · exact hcross a ha o List.mem_cons_self
      · exact hcross a ha p (List.mem_cons_of_mem o hp)
  case begun =>
    intro p hp
    rcases hold p hp with rfl | hp
    · obtain ⟨d, hd, hsame⟩ := h.begun o ho
      exact ⟨d, hin hd, hsame⟩
    · obtain ⟨d, hd, hsame⟩ := h.begun p hp
      exact ⟨d, hin hd, hsame⟩
  case ended =>
    intro p hp
    rcases hold p hp with rfl | hp
    · rcases le_total o.end_ cue.end_ with hle | hle
      · exact ⟨cue, hcue, htext.symm, (max_eq_right hle).symm⟩
      · exact ⟨d₁, hin hd₁, hd₁text, hd₁end.trans (max_eq_left hle).symm⟩
    · obtain ⟨d, hd, hsame⟩ := h.ended p hp
      exact ⟨d, hin hd, hsame⟩
  case covers =>
    intro d hd
    have hlonger : ({ o with end_ := max o.end_ cue.end_ } : Cue) ∈ front ++ { o with end_ := max o.end_ cue.end_ } :: back :=
      List.mem_append_right front List.mem_cons_self
    rcases List.mem_append.mp hd with hd | hd
    · obtain ⟨p, hp, hwithin⟩ := h.covers d hd
      rcases List.mem_append.mp hp with hp | hp
      · exact ⟨p, List.mem_append_left _ hp, hwithin⟩
      · rcases List.mem_cons.mp hp with rfl | hp
        · exact ⟨_, hlonger, hwithin.trans ⟨rfl, le_refl _, le_max_left _ _⟩⟩
        · exact ⟨p, List.mem_append_right _ (List.mem_cons_of_mem _ hp), hwithin⟩
    · obtain rfl := List.mem_singleton.mp hd
      exact ⟨_, hlonger, htext.symm, hstart, le_max_right _ _⟩
  case least =>
    intro G hG hdone s hs
    obtain ⟨p, hp, rfl⟩ := hs
    have hrest := h.least G hG fun s hs => by
      obtain ⟨d, hd, hspan⟩ := hs
      exact hdone s ⟨d, hin hd, hspan⟩
    rcases hold p hp with rfl | hp
    · obtain ⟨f, hf, hof⟩ := hrest _ (mem_spans ho)
      obtain ⟨g, hg, hcg⟩ := hdone _ (mem_spans hcue)
      have hmono : Monotone fun t : Nat => t + joinGapMs := fun a b hab => Nat.add_le_add_right hab _
      exact ⟨f, hf, hG.within_joined (fun t => Nat.le_add_right t joinGapMs) hmono htext hstart hreach htimed.le hf hof hg hcg⟩
    · exact hrest _ (mem_spans hp)
  case filled =>
    intro p hp ms hfrom hto
    have hkeep : ∀ q ∈ front ++ o :: back, q.start ≤ ms → ms < q.end_ →
        (∃ d ∈ done ++ [cue], d.text = q.text ∧ d.start ≤ ms ∧ ms < d.end_) ∨
          ∃ a ∈ done ++ [cue], ∃ b ∈ done ++ [cue], a.text = q.text ∧ b.text = q.text ∧ a.end_ ≤ ms ∧ ms < b.start ∧
            b.start ≤ a.end_ + joinGapMs := by
      intro q hq hqfrom hqto
      rcases h.filled q hq ms hqfrom hqto with ⟨d, hd, hcovered⟩ | ⟨a, ha, b, hb, hgap⟩
      · exact .inl ⟨d, hin hd, hcovered⟩
      · exact .inr ⟨a, hin ha, b, hin hb, hgap⟩
    rcases hold p hp with rfl | hp
    · -- up to the old end as before, then in the gap, then in the cue
      rcases Nat.lt_or_ge ms o.end_ with hold | hnew
      · exact hkeep o ho hfrom hold
      · have hend : ms < cue.end_ := (lt_max_iff.mp hto).resolve_left (Nat.not_lt.mpr hnew)
        rcases Nat.lt_or_ge ms cue.start with hbefore | hwithin
        · exact .inr ⟨d₁, hin hd₁, cue, hcue, hd₁text, htext.symm, hd₁end ▸ hnew, hbefore, hd₁end ▸ hreach⟩
        · exact .inl ⟨cue, hcue, htext.symm, hwithin, hend⟩
    · exact hkeep p hp hfrom hto

theorem Joining.turn {done out out' : List Cue} {cue : Cue} (h : Joining done out) (htimed : cue.Timed)
    (hafter : ∀ d ∈ done, d.start ≤ cue.start) (hturn : JoinedTo cue out out') : Joining (done ++ [cue]) out' := by
  cases hturn with
  | push hclear => exact h.push htimed hafter hclear
  | extend htext hlast hreach => exact h.extend htimed hafter htext hlast hreach

/-- All turns, over cues in order. -/
theorem Joining.run {todo done out : List Cue} {last : Table Text Nat} (h : Joining done out)
    (hindexed : Indexed (out.map Cue.text) last) (htimed : ∀ c ∈ todo, c.Timed)
    (hsorted : (done ++ todo).Pairwise fun a b => a.start ≤ b.start) :
    ∃ out' last', todo.foldlM joinStep (out, last) = .ok (out', last') ∧ Joining (done ++ todo) out' := by
  induction todo generalizing done out last with
  | nil => exact ⟨out, last, rfl, (List.append_nil done).symm ▸ h⟩
  | cons cue todo ih =>
    obtain ⟨out', last', hstep, hindexed', hturn⟩ := joinStep_spec hindexed h.spaced h.timed cue
    have hafter : ∀ d ∈ done, d.start ≤ cue.start := fun d hd =>
      (List.pairwise_append.mp hsorted).2.2 d hd cue List.mem_cons_self
    have hnext := h.turn (htimed cue List.mem_cons_self) hafter hturn
    rw [List.append_cons] at hsorted ⊢
    obtain ⟨out'', last'', hrun, hall⟩ := ih hnext hindexed' (fun c hc => htimed c (List.mem_cons_of_mem cue hc)) hsorted
    refine ⟨out'', last'', ?_, hall⟩
    rw [List.foldlM_cons, hstep]
    exact hrun

/-- Cues that are in order and spaced are put out as they are. -/
theorem run_spaced {todo out : List Cue} {last : Table Text Nat} (hindexed : Indexed (out.map Cue.text) last)
    (htimed : ∀ c ∈ out ++ todo, c.Timed) (hspaced : Spaced (out ++ todo)) :
    ∃ last', todo.foldlM joinStep (out, last) = .ok (out ++ todo, last') := by
  induction todo generalizing out last with
  | nil => exact ⟨last, by rw [List.append_nil]; rfl⟩
  | cons cue todo ih =>
    have hfront := (List.pairwise_append.mp hspaced).1
    obtain ⟨out', last', hstep, hindexed', hturn⟩ :=
      joinStep_spec hindexed hfront (fun o ho => htimed o (List.mem_append_left _ ho)) cue
    have hclear : ∀ o ∈ out, o.text = cue.text → o.end_ + joinGapMs < cue.start := fun o ho =>
      (List.pairwise_append.mp hspaced).2.2 o ho cue List.mem_cons_self
    have hpushed : out' = out ++ [cue] := by
      cases hturn with
      | push _ => rfl
      | @extend front back o htext _ hreach =>
        have hlt := hclear o (List.mem_append_right front List.mem_cons_self) htext
        omega
    subst hpushed
    rw [List.append_cons] at htimed hspaced ⊢
    obtain ⟨last'', hrun⟩ := ih hindexed' htimed hspaced
    refine ⟨last'', ?_⟩
    rw [List.foldlM_cons, hstep]
    exact hrun


/-! ## The cues joined -/

/-- The cue is shown at `t` (ms). -/
def Cue.ShownAt (c : Cue) (t : ℚ) : Prop := c.start ≤ t ∧ t < c.end_

/-- `out` are `cues` in order, with those of one text that overlap, repeat or
go on where one ended made one. -/
structure Joined (cues out : List Cue) : Prop where
  sorted : out.Pairwise fun a b => a.start ≤ b.start
  texts : ∀ text, (∃ c ∈ cues, c.text = text) ↔ ∃ o ∈ out, o.text = text
  shows : ∀ c ∈ cues, ∀ t, c.ShownAt t → ∃ o ∈ out, o.text = c.text ∧ o.ShownAt t
  fills : ∀ o ∈ out, ∀ t, o.ShownAt t →
    (∃ c ∈ cues, c.text = o.text ∧ c.ShownAt t) ∨
      ∃ a ∈ cues, ∃ b ∈ cues, a.text = o.text ∧ b.text = o.text ∧ a.end_ ≤ t ∧ t < b.start ∧ b.start ≤ a.end_ + joinGapMs
  spaced : Spaced out

theorem Cue.ShownAt.nonneg {c : Cue} {t : ℚ} (h : c.ShownAt t) : 0 ≤ t := le_trans (Nat.cast_nonneg _) h.1

theorem shownAt_iff {c : Cue} {t : ℚ} (ht : 0 ≤ t) : c.ShownAt t ↔ c.start ≤ ⌊t⌋₊ ∧ ⌊t⌋₊ < c.end_ := by
  rw [Cue.ShownAt, Nat.le_floor_iff ht, Nat.floor_lt ht]

theorem Joining.joined {cues done out : List Cue} (h : Joining done out) (hsame : ∀ c, c ∈ done ↔ c ∈ cues) :
    Joined cues out := by
  constructor
  case sorted => exact h.sorted
  case spaced => exact h.spaced
  case texts =>
    intro text
    constructor
    · rintro ⟨c, hc, rfl⟩
      obtain ⟨o, ho, hwithin⟩ := h.covers c ((hsame c).mpr hc)
      exact ⟨o, ho, hwithin.1.symm⟩
    · rintro ⟨o, ho, rfl⟩
      obtain ⟨d, hd, htext, _⟩ := h.begun o ho
      exact ⟨d, (hsame d).mp hd, htext⟩
  case shows =>
    intro c hc t ht
    obtain ⟨o, ho, htext, hstart, hend⟩ := h.covers c ((hsame c).mpr hc)
    obtain ⟨hfrom, hto⟩ := (shownAt_iff ht.nonneg).mp ht
    exact ⟨o, ho, htext.symm, (shownAt_iff ht.nonneg).mpr ⟨hstart.trans hfrom, Nat.lt_of_lt_of_le hto hend⟩⟩
  case fills =>
    intro o ho t ht
    obtain ⟨hfrom, hto⟩ := (shownAt_iff ht.nonneg).mp ht
    rcases h.filled o ho _ hfrom hto with ⟨d, hd, htext, hcovered⟩ | ⟨a, ha, b, hb, hatext, hbtext, haend, hbstart, hgap⟩
    · exact .inl ⟨d, (hsame d).mp hd, htext, (shownAt_iff ht.nonneg).mpr hcovered⟩
    · exact .inr ⟨a, (hsame a).mp ha, b, (hsame b).mp hb, hatext, hbtext, (Nat.le_floor_iff ht.nonneg).mp haend,
        (Nat.floor_lt ht.nonneg).mp hbstart, hgap⟩

/-- The cues in the order `join` goes through them. -/
def ordered (cues : List Cue) : List Cue := cues.mergeSort fun a b => a.start ≤ b.start

theorem sorted_ordered (cues : List Cue) : (ordered cues).Pairwise fun a b => a.start ≤ b.start := by
  have htrans : ∀ a b c : Cue, decide (a.start ≤ b.start) = true → decide (b.start ≤ c.start) = true →
      decide (a.start ≤ c.start) = true := fun a b c hab hbc =>
    decide_eq_true ((of_decide_eq_true hab).trans (of_decide_eq_true hbc))
  have htotal : ∀ a b : Cue, (decide (a.start ≤ b.start) || decide (b.start ≤ a.start)) = true := by
    intro a b
    simpa using le_total a.start b.start
  exact (List.pairwise_mergeSort htrans htotal cues).imp of_decide_eq_true

theorem join_joining {cues : List Cue} (h : ∀ c ∈ cues, c.Timed) : ∃ out, join cues = .ok out ∧ Joining (ordered cues) out := by
  have htimed : ∀ c ∈ ordered cues, c.Timed := fun c hc => h c (List.mem_mergeSort.mp hc)
  obtain ⟨out, last, hrun, hall⟩ := joining_nil.run indexed_empty htimed (sorted_ordered cues)
  refine ⟨out, ?_, hall⟩
  show (ordered cues).foldlM joinStep ([], Table.empty) >>= _ = _
  rw [hrun]
  rfl

theorem Joining.again {done out : List Cue} (h : Joining done out) : join out = .ok out := by
  have hordered : ordered out = out :=
    List.mergeSort_of_pairwise (h.sorted.imp fun hle => decide_eq_true hle)
  obtain ⟨last, hrun⟩ := @run_spaced out [] _ indexed_empty h.timed h.spaced
  show (ordered out).foldlM joinStep ([], Table.empty) >>= _ = _
  rw [hordered, hrun]
  rfl

theorem span_injective {c d : Cue} (h : c.span = d.span) : c = d := by
  cases c
  cases d
  cases h
  rfl

theorem mem_spans_iff {cues : List Cue} {c : Cue} : c.span ∈ spans cues ↔ c ∈ cues := by
  constructor
  · rintro ⟨d, hd, hspan⟩
    exact span_injective hspan ▸ hd
  · exact mem_spans

theorem Joining.joinOf {done out : List Cue} (h : Joining done out) :
    Span.JoinOf (· + joinGapMs) (spans done) (spans out) where
  apart := by
    let R : Cue → Cue → Prop := fun a b =>
      a.text = b.text → a.end_ + joinGapMs < b.start ∨ b.end_ + joinGapMs < a.start
    have hspaced : out.Pairwise R := h.spaced.imp fun hlt htext => .inl (hlt htext)
    have : Std.Symm R := { symm a b hab htext := (hab htext.symm).symm }
    rintro _ ⟨a, ha, rfl⟩ _ ⟨b, hb, rfl⟩ htext
    rcases eq_or_ne a b with rfl | hne
    · exact .inl rfl
    · exact .inr (hspaced.forall ha hb hne htext)
  covers := by
    rintro _ ⟨d, hd, rfl⟩
    obtain ⟨o, ho, hwithin⟩ := h.covers d hd
    exact ⟨o.span, mem_spans ho, hwithin⟩
  least := h.least

theorem Joining.nodup {done out : List Cue} (h : Joining done out) : out.Nodup := by
  refine h.spaced.imp_of_mem fun {a b} ha _ hlt heq => ?_
  subst heq
  have hle := (h.timed a ha).le
  have hback := hlt rfl
  omega

theorem Joining.perm {done done' out out' : List Cue} (h : Joining done out) (h' : Joining done' out')
    (hsame : ∀ c, c ∈ done ↔ c ∈ done') : out.Perm out' := by
  have hdone : spans done = spans done' := by
    ext s
    exact exists_congr fun c => and_congr_left fun _ => hsame c
  have hspan : ∀ {all}, (∀ o ∈ all, o.Timed) → ∀ s ∈ spans all, s.start ≤ s.fin := by
    rintro all htimed _ ⟨o, ho, rfl⟩
    exact (htimed o ho).le
  have hjoin := h.joinOf
  rw [hdone] at hjoin
  have hout : spans out = spans out' :=
    hjoin.unique (fun t => Nat.le_add_right t joinGapMs) h'.joinOf (hspan h.timed) (hspan h'.timed)
  rw [List.perm_ext_iff_of_nodup h.nodup h'.nodup]
  intro o
  rw [← mem_spans_iff, hout, mem_spans_iff]

/-- Joining loses, invents and doubles nothing, joining again changes nothing,
and the order the cues come in does not matter. -/
theorem join_merges {cues : List Cue} (h : ∀ c ∈ cues, c.Timed) :
    ∃ out, join cues = .ok out ∧ Joined cues out ∧ join out = .ok out ∧
      ∀ other : List Cue, other.Perm cues → ∃ out', join other = .ok out' ∧ out'.Perm out := by
  obtain ⟨out, hjoin, hall⟩ := join_joining h
  have hsame : ∀ c, c ∈ ordered cues ↔ c ∈ cues := fun c => List.mem_mergeSort
  refine ⟨out, hjoin, hall.joined hsame, hall.again, fun other hperm => ?_⟩
  obtain ⟨out', hjoin', hall'⟩ := join_joining fun c hc => h c (hperm.mem_iff.mp hc)
  refine ⟨out', hjoin', hall'.perm hall fun c => ?_⟩
  rw [hsame, ordered, List.mem_mergeSort]
  exact hperm.mem_iff

/-- A cue cut in two is whole again. -/
theorem join_merges_halves :
    Joined [⟨0, 499, "a".toList⟩, ⟨500, 1000, "a".toList⟩] [⟨0, 1000, "a".toList⟩] := by
  have htimed : ∀ c ∈ [⟨0, 499, "a".toList⟩, ⟨500, 1000, "a".toList⟩], Cue.Timed c := by
    intro c hc
    simp only [List.mem_cons, List.not_mem_nil, or_false] at hc
    rcases hc with rfl | rfl
    · exact ⟨by decide, by decide⟩
    · exact ⟨by decide, by decide⟩
  have hrun : join [⟨0, 499, "a".toList⟩, ⟨500, 1000, "a".toList⟩] = .ok [⟨0, 1000, "a".toList⟩] := by
    rw [join, List.mergeSort_of_pairwise (by decide)]
    rfl
  obtain ⟨out, hjoin, hall, _⟩ := join_merges htimed
  rw [hrun] at hjoin
  cases hjoin
  exact hall

end Hyperfetch.Subs
