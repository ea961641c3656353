import Hyperfetch.Recording.Boxes

/-!
# The layout of a fragmented part (`fmp4_layout`)

One walk over a part's boxes gathers the init segment and a run for each fragment.
`Walked` is what holds of what has been gathered at each box; at the end it makes a
layout sound (`Sound`), whatever the part's bytes are.
-/

namespace Hyperfetch.Recording

open Weft Checked

/-- `MAX_MOOF`. -/
def maxMoof : Nat := 2 ^ 20

/-- Bytes of a part to copy, and a fragment's track and decode time. -/
structure Run where
  start : Nat
  len : Nat
  key : Option (Nat × Nat)
  deriving DecidableEq, Repr

/-- How a recorded part is laid out: the init segment's boxes, as start and length, and
the media after it. -/
structure Layout where
  init : List (Nat × Nat)
  runs : List Run
  deriving DecidableEq, Repr

/-- What the walk has gathered: `pending` is a `moof` that waits for its `mdat`. -/
structure Gathered where
  init : List (Nat × Nat)
  hasMoov : Bool
  runs : List Run
  pending : Option Run
  deriving DecidableEq, Repr

namespace Gathered

def empty : Gathered := ⟨[], false, [], none⟩

/-- What an `mdat` that ends at `stop` does: it ends a pending fragment, or goes to the
last one; nothing is left of a part with samples outside any. -/
def mdat (g : Gathered) (stop : Nat) : Checked Empty (Option Gathered) :=
  match g.pending, g.runs.getLast? with
  | some run, _ => do
    let len ← sub stop run.start
    .ok (some { g with runs := g.runs ++ [{ run with len }], pending := none })
  | none, some run => do
    let len ← sub stop run.start
    .ok (some { g with runs := g.runs.dropLast ++ [{ run with len }] })
  | none, none => .ok none

/-- One box of the walk; `none` is a part that is no such layout. -/
def box (part : List UInt8) (at_ : Nat) (b : BoxHead) (g : Gathered) : Checked Empty (Option Gathered) :=
  if at_ = 0 ∧ b.kind ∉ ["ftyp", "styp", "moov", "moof", "sidx"].map kindOf then .ok none
  else if (b.kind = kindOf "ftyp" ∨ b.kind = kindOf "moov") ∧ g.runs = [] ∧ g.pending = none then
    let init := if b.kind = kindOf "ftyp" ∨ g.hasMoov then [] else g.init
    .ok (some { g with init := init ++ [(at_, b.size)], hasMoov := b.kind = kindOf "moov" })
  else if b.kind = kindOf "moof" ∧ b.size ≤ maxMoof then do
    let first ← add at_ b.header
    let size ← sub b.size b.header
    let stop ← add first size
    let moof ← slice part first stop
    let key ← (fragmentKey moof).run
    .ok (some { g with pending := some ⟨at_, b.size, key⟩ })
  else if b.kind = kindOf "mdat" then do
    let stop ← add at_ b.size
    g.mdat stop
  else .ok (some g)

/-- The layout of what was gathered, if there is media behind an init segment. -/
def layout (g : Gathered) : Option Layout := if g.init ≠ [] ∧ g.runs ≠ [] then some ⟨g.init, g.runs⟩ else none

end Gathered

/-- The loop of `fmp4_layout`; out of turns it would go on for ever. -/
def layoutFrom (part : List UInt8) : Nat → Nat → Gathered → Checked Empty (Option Layout)
  | 0, _, _ => fault
  | turns + 1, at_, g => do
    match ← boxAt part at_ with
    | none => .ok g.layout
    | some b => do
      match ← g.box part at_ b with
      | none => .ok none
      | some g => do
        let after ← add at_ b.size
        layoutFrom part turns after g

/-- `fmp4_layout`. -/
def fmp4Layout (part : List UInt8) : Checked Empty (Option Layout) := layoutFrom part (part.length + 1) 0 .empty

/-! ## The boxes the walk reaches -/

/-- The whole box at a place. -/
def boxOf (part : List UInt8) (at_ : Nat) : Option BoxHead :=
  match boxAt part at_ with
  | .ok found => found
  | .error _ => none

/-- Where the box behind starts. -/
def nextBox (part : List UInt8) (at_ : Nat) : Option Nat := (boxOf part at_).map fun b => at_ + b.size

theorem boxOf_within {part : List UInt8} {at_ : Nat} {b : BoxHead} (h : boxOf part at_ = some b) : b.Within at_ part.length := by
  unfold boxOf at h
  split at h
  next found hfound =>
    subst h
    exact (boxAt_safe part at_).2 (some b) hfound b rfl
  next => cases h

theorem nextBox_lt (part : List UInt8) {a b : Nat} (h : nextBox part a = some b) : a < b := by
  obtain ⟨box, hbox, rfl⟩ := Option.map_eq_some_iff.mp h
  have hwithin := boxOf_within hbox
  have hheader := hwithin.header
  have hcontents := hwithin.contents
  omega

/-- A whole box of this kind that the walk reaches. -/
structure HasBox (part : List UInt8) (kind : String) (at_ size : Nat) : Prop where
  reached : Reached (nextBox part) at_
  found : ∃ b, boxOf part at_ = some b ∧ b.kind = kindOf kind ∧ b.size = size

theorem HasBox.pos {part : List UInt8} {kind : String} {at_ size : Nat} (h : HasBox part kind at_ size) : 0 < size := by
  obtain ⟨b, hb, -, rfl⟩ := h.found
  have hwithin := boxOf_within hb
  have hheader := hwithin.header
  have hcontents := hwithin.contents
  omega

/-- Of two boxes reached one is behind the other, or they are one. -/
theorem HasBox.apart {part : List UInt8} {kind : String} {at_ size a : Nat} (h : HasBox part kind at_ size)
    (ha : Reached (nextBox part) a) : a ≤ at_ ∨ at_ + size ≤ a := by
  obtain ⟨b, hb, -, rfl⟩ := h.found
  have hnext : nextBox part at_ = some (at_ + b.size) := by
    rw [nextBox, hb]
    rfl
  exact h.reached.apart (nextBox_lt part) hnext ha

/-! ## What a layout is to be -/

namespace Run

def stop (r : Run) : Nat := r.start + r.len

/-- It holds the bytes from `at_` on, so many. -/
def Holds (r : Run) (at_ size : Nat) : Prop := r.start ≤ at_ ∧ at_ + size ≤ r.stop

/-- It starts at a `moof` and ends at the end of an `mdat`. -/
structure Spans (r : Run) (part : List UInt8) : Prop where
  pos : 0 < r.len
  moof : ∃ size, HasBox part "moof" r.start size
  mdat : ∃ at_ size, HasBox part "mdat" at_ size ∧ r.Holds at_ size ∧ at_ + size = r.stop

end Run

/-- The runs lie in the part one behind the other, each from a `moof` to the end of an
`mdat`, every `mdat` in one of them, and the init segment's boxes before. -/
structure Sound (part : List UInt8) (l : Layout) : Prop where
  runs_ne : l.runs ≠ []
  init_ne : l.init ≠ []
  spans : ∀ r ∈ l.runs, r.Spans part
  ordered : l.runs.Pairwise fun a b => a.stop ≤ b.start
  within : ∀ r ∈ l.runs, r.stop ≤ part.length
  whole : ∀ at_ size, HasBox part "mdat" at_ size → ∃! r, r ∈ l.runs ∧ r.Holds at_ size
  init_boxes : ∀ i ∈ l.init, HasBox part "ftyp" i.1 i.2 ∨ HasBox part "moov" i.1 i.2
  init_ordered : l.init.Pairwise fun a b => a.1 + a.2 ≤ b.1
  init_before : ∀ i ∈ l.init, ∀ r ∈ l.runs, i.1 + i.2 ≤ r.start

/-! ## What holds at each box -/

/-- The runs gathered before `at_`. -/
structure RunsSound (part : List UInt8) (at_ : Nat) (runs : List Run) : Prop where
  spans : ∀ r ∈ runs, r.Spans part
  ordered : runs.Pairwise fun a b => a.stop ≤ b.start
  before : ∀ r ∈ runs, r.stop ≤ at_
  whole : ∀ a size, HasBox part "mdat" a size → a < at_ → ∃ r ∈ runs, r.Holds a size

structure Walked (part : List UInt8) (at_ : Nat) (g : Gathered) : Prop where
  reached : Reached (nextBox part) at_
  le : at_ ≤ part.length
  runs : RunsSound part at_ g.runs
  pending : ∀ p, g.pending = some p →
    (∃ size, HasBox part "moof" p.start size) ∧ p.start < at_ ∧ ∀ r ∈ g.runs, r.stop ≤ p.start
  init_boxes : ∀ i ∈ g.init, HasBox part "ftyp" i.1 i.2 ∨ HasBox part "moov" i.1 i.2
  init_ordered : g.init.Pairwise fun a b => a.1 + a.2 ≤ b.1
  init_before : ∀ i ∈ g.init, i.1 + i.2 ≤ at_ ∧ (∀ r ∈ g.runs, i.1 + i.2 ≤ r.start) ∧
    ∀ p, g.pending = some p → i.1 + i.2 ≤ p.start

theorem walked_empty (part : List UInt8) : Walked part 0 .empty where
  reached := .zero
  le := Nat.zero_le _
  runs :=
    { spans := fun _ hr => absurd hr List.not_mem_nil
      ordered := List.Pairwise.nil
      before := fun _ hr => absurd hr List.not_mem_nil
      whole := fun a _ _ ha => absurd ha (Nat.not_lt_zero a) }
  pending := fun _ hp => nomatch hp
  init_boxes := fun _ hi => absurd hi List.not_mem_nil
  init_ordered := List.Pairwise.nil
  init_before := fun _ hi => absurd hi List.not_mem_nil

section Step

variable {part : List UInt8} {at_ : Nat} {g : Gathered} {b : BoxHead}

/-- The box the walk is at. -/
theorem hasBox_here (hreached : Reached (nextBox part) at_) (hb : boxOf part at_ = some b) {kind : String}
    (hkind : b.kind = kindOf kind) : HasBox part kind at_ b.size := ⟨hreached, b, hb, hkind, rfl⟩

/-- An `mdat` before the end of the box the walk is at is one before it, or that box. -/
theorem mdat_before (hreached : Reached (nextBox part) at_) (hb : boxOf part at_ = some b) {a size : Nat}
    (h : HasBox part "mdat" a size) (ha : a < at_ + b.size) :
    a < at_ ∨ (a = at_ ∧ size = b.size ∧ b.kind = kindOf "mdat") := by
  have hnext : nextBox part at_ = some (at_ + b.size) := by
    rw [nextBox, hb]
    rfl
  rcases hreached.apart (nextBox_lt part) hnext h.reached with hle | hge
  · rcases Nat.lt_or_eq_of_le hle with hlt | rfl
    · exact .inl hlt
    · obtain ⟨b', hb', hkind, hsize⟩ := h.found
      obtain rfl : b = b' := Option.some.inj (hb.symm.trans hb')
      exact .inr ⟨rfl, hsize.symm, hkind⟩
  · omega

/-- Any other box leaves the runs as they are. -/
theorem RunsSound.other {runs : List Run} (h : RunsSound part at_ runs) (hreached : Reached (nextBox part) at_)
    (hb : boxOf part at_ = some b) (hkind : b.kind ≠ kindOf "mdat") : RunsSound part (at_ + b.size) runs where
  spans := h.spans
  ordered := h.ordered
  before r hr := Nat.le_trans (h.before r hr) (Nat.le_add_right at_ b.size)
  whole a size hbox ha := by
    rcases mdat_before hreached hb hbox ha with hlt | ⟨-, -, hmdat⟩
    · exact h.whole a size hbox hlt
    · exact absurd hmdat hkind

/-- A run behind all others that an `mdat` ends, and that holds every `mdat` they do not. -/
theorem runsSound_concat {runs : List Run} {run : Run} (hspans : ∀ r ∈ runs, r.Spans part)
    (hordered : runs.Pairwise fun a b => a.stop ≤ b.start) (hbehind : ∀ r ∈ runs, r.stop ≤ run.start)
    (hcover : ∀ a size, HasBox part "mdat" a size → a < at_ → (∃ r ∈ runs, r.Holds a size) ∨ run.start ≤ a)
    (hreached : Reached (nextBox part) at_) (hb : boxOf part at_ = some b) (hkind : b.kind = kindOf "mdat")
    (hmoof : ∃ size, HasBox part "moof" run.start size) (hstart : run.start < at_) (hstop : run.stop = at_ + b.size) :
    RunsSound part (at_ + b.size) (runs ++ [run]) where
  spans := by
    intro r hr
    rcases List.mem_append.mp hr with hr | hr
    · exact hspans r hr
    · obtain rfl := List.mem_singleton.mp hr
      have hlen : r.start + r.len = at_ + b.size := hstop
      have hhere : HasBox part "mdat" at_ b.size := hasBox_here hreached hb hkind
      exact ⟨by omega, hmoof, at_, b.size, hhere, ⟨Nat.le_of_lt hstart, Nat.le_of_eq hstop.symm⟩, hstop.symm⟩
  ordered := by
    refine List.pairwise_append.mpr ⟨hordered, List.pairwise_singleton _ _, fun r hr r' hr' => ?_⟩
    obtain rfl := List.mem_singleton.mp hr'
    exact hbehind r hr
  before := by
    intro r hr
    rcases List.mem_append.mp hr with hr | hr
    · have hle := hbehind r hr
      omega
    · obtain rfl := List.mem_singleton.mp hr
      exact Nat.le_of_eq hstop
  whole := by
    intro a size hbox ha
    rcases mdat_before hreached hb hbox ha with hlt | ⟨rfl, rfl, -⟩
    · rcases hcover a size hbox hlt with ⟨r, hr, hholds⟩ | hge
      · exact ⟨r, List.mem_append_left _ hr, hholds⟩
      · -- the box ends before this one starts
        have hend := (hbox.apart hreached).resolve_left (Nat.not_le.mpr hlt)
        exact ⟨run, by simp, hge, by omega⟩
    · exact ⟨run, by simp, Nat.le_of_lt hstart, Nat.le_of_eq hstop.symm⟩

/-- One more `mdat` goes to the last run. -/
theorem RunsSound.extend {runs : List Run} (h : RunsSound part at_ runs) (hreached : Reached (nextBox part) at_)
    (hb : boxOf part at_ = some b) (hkind : b.kind = kindOf "mdat") {run : Run} (hlast : runs.getLast? = some run) :
    RunsSound part (at_ + b.size) (runs.dropLast ++ [{ run with len := at_ + b.size - run.start }]) := by
  have hsplit : runs.dropLast ++ [run] = runs := List.dropLast_append_getLast? run hlast
  have hmem : run ∈ runs := List.mem_of_getLast? hlast
  have hspans := h.spans run hmem
  have hstart : run.start < at_ := by
    have hpos := hspans.pos
    have hle : run.start + run.len ≤ at_ := h.before run hmem
    omega
  refine runsSound_concat (fun r hr => h.spans r (List.mem_of_mem_dropLast hr))
    (h.ordered.sublist (List.dropLast_sublist runs)) ?_ ?_ hreached hb hkind hspans.moof hstart ?_
  · intro r hr
    have hordered := h.ordered
    rw [← hsplit] at hordered
    exact (List.pairwise_append.mp hordered).2.2 r hr run (List.mem_singleton_self run)
  · intro a size hbox ha
    obtain ⟨r, hr, hholds⟩ := h.whole a size hbox ha
    rw [← hsplit] at hr
    rcases List.mem_append.mp hr with hr | hr
    · exact .inl ⟨r, hr, hholds⟩
    · obtain rfl := List.mem_singleton.mp hr
      exact .inr hholds.1
  · show run.start + (at_ + b.size - run.start) = at_ + b.size
    omega

/-- A pending fragment ends behind all runs. -/
theorem RunsSound.concat {runs : List Run} (h : RunsSound part at_ runs) (hreached : Reached (nextBox part) at_)
    (hb : boxOf part at_ = some b) (hkind : b.kind = kindOf "mdat") {run : Run}
    (hmoof : ∃ size, HasBox part "moof" run.start size) (hstart : run.start < at_) (hbehind : ∀ r ∈ runs, r.stop ≤ run.start)
    : RunsSound part (at_ + b.size) (runs ++ [{ run with len := at_ + b.size - run.start }]) := by
  refine runsSound_concat h.spans h.ordered hbehind (fun a size hbox ha => .inl (h.whole a size hbox ha)) hreached hb hkind
    hmoof hstart ?_
  show run.start + (at_ + b.size - run.start) = at_ + b.size
  omega

theorem Walked.mdat (h : Walked part at_ g) (hb : boxOf part at_ = some b) (hkind : b.kind = kindOf "mdat")
    (hle : at_ + b.size ≤ part.length) :
    Meets (g.mdat (at_ + b.size)) fun found => ∀ g', found = some g' → Walked part (at_ + b.size) g' := by
  have hnext : nextBox part at_ = some (at_ + b.size) := by
    rw [nextBox, hb]
    rfl
  unfold Gathered.mdat
  split
  next last run hpending =>
    obtain ⟨hmoof, hstart, hbehind⟩ := h.pending run hpending
    rw [sub_eq (by omega), ok_bind]
    refine meets_ok fun g' hg => ?_
    cases hg
    refine ⟨h.reached.stride hnext, hle, h.runs.concat h.reached hb hkind hmoof hstart hbehind, fun p hp => ?_,
      h.init_boxes, h.init_ordered, fun i hi => ⟨?_, ?_, fun p hp => ?_⟩⟩
    · cases hp
    · exact Nat.le_trans (h.init_before i hi).1 (Nat.le_add_right at_ b.size)
    · intro r hr
      rcases List.mem_append.mp hr with hr | hr
      · exact (h.init_before i hi).2.1 r hr
      · obtain rfl := List.mem_singleton.mp hr
        exact (h.init_before i hi).2.2 run hpending
    · cases hp
  next run hpending hlast =>
    have hmem : run ∈ g.runs := List.mem_of_getLast? hlast
    have hbefore : run.start ≤ at_ := Nat.le_trans (Nat.le_add_right run.start run.len) (h.runs.before run hmem)
    rw [sub_eq (by omega), ok_bind]
    refine meets_ok fun g' hg => ?_
    cases hg
    refine ⟨h.reached.stride hnext, hle, h.runs.extend h.reached hb hkind hlast, fun p hp => ?_,
      h.init_boxes, h.init_ordered, fun i hi => ⟨?_, ?_, fun p hp => ?_⟩⟩
    · rw [hpending] at hp
      cases hp
    · exact Nat.le_trans (h.init_before i hi).1 (Nat.le_add_right at_ b.size)
    · intro r hr
      rcases List.mem_append.mp hr with hr | hr
      · exact (h.init_before i hi).2.1 r (List.mem_of_mem_dropLast hr)
      · obtain rfl := List.mem_singleton.mp hr
        exact (h.init_before i hi).2.1 run hmem
    · rw [hpending] at hp
      cases hp
  next => exact meets_ok fun g' hg => nomatch hg

/-- A box that is no `mdat`, and leaves the runs as they are. -/
theorem Walked.other (h : Walked part at_ g) (hb : boxOf part at_ = some b) (hkind : b.kind ≠ kindOf "mdat")
    (hle : at_ + b.size ≤ part.length) : Walked part (at_ + b.size) g := by
  have hnext : nextBox part at_ = some (at_ + b.size) := by
    rw [nextBox, hb]
    rfl
  refine ⟨h.reached.stride hnext, hle, h.runs.other h.reached hb hkind, fun p hp => ?_, h.init_boxes, h.init_ordered,
    fun i hi => ?_⟩
  · obtain ⟨hmoof, hstart, hbehind⟩ := h.pending p hp
    exact ⟨hmoof, Nat.lt_of_lt_of_le hstart (Nat.le_add_right at_ b.size), hbehind⟩
  · obtain ⟨hbefore, hruns, hpending⟩ := h.init_before i hi
    exact ⟨Nat.le_trans hbefore (Nat.le_add_right at_ b.size), hruns, hpending⟩

/-- What one box does. -/
theorem Walked.box (h : Walked part at_ g) (hpart : part.length < 2 ^ 63) (hb : boxOf part at_ = some b) :
    Meets (g.box part at_ b) fun found => ∀ g', found = some g' → Walked part (at_ + b.size) g' := by
  obtain ⟨hheader, hcontents, hstop⟩ := boxOf_within hb
  unfold Gathered.box
  split
  next => exact meets_ok fun g' hg => nomatch hg
  split
  next hinit =>
    obtain ⟨hkind, hruns, hpending⟩ := hinit
    have hnot : b.kind ≠ kindOf "mdat" := by
      rcases hkind with hk | hk <;> rw [hk] <;> decide
    have hon := h.other hb hnot hstop
    have hhere : HasBox part "ftyp" at_ b.size ∨ HasBox part "moov" at_ b.size :=
      hkind.imp (hasBox_here h.reached hb) (hasBox_here h.reached hb)
    -- what was gathered of the init segment stays, or goes
    extract_lets init
    have hsub : ∀ i ∈ init, i ∈ g.init := by
      intro i hi
      simp only [init] at hi
      split at hi
      next => cases hi
      next => exact hi
    have hordered : init.Pairwise fun a b => a.1 + a.2 ≤ b.1 := by
      simp only [init]
      split
      next => exact List.Pairwise.nil
      next => exact h.init_ordered
    refine meets_ok fun g' hg => ?_
    cases hg
    refine ⟨hon.reached, hon.le, hon.runs, hon.pending, fun i hi => ?_, ?_, fun i hi => ⟨?_, fun r hr => ?_, fun p hp => ?_⟩⟩
    · rcases List.mem_append.mp hi with hi | hi
      · exact h.init_boxes i (hsub i hi)
      · obtain rfl := List.mem_singleton.mp hi
        exact hhere
    · refine List.pairwise_append.mpr ⟨hordered, List.pairwise_singleton _ _, fun i hi i' hi' => ?_⟩
      obtain rfl := List.mem_singleton.mp hi'
      exact (h.init_before i (hsub i hi)).1
    · rcases List.mem_append.mp hi with hi | hi
      · exact Nat.le_trans (h.init_before i (hsub i hi)).1 (Nat.le_add_right at_ b.size)
      · obtain rfl := List.mem_singleton.mp hi
        exact Nat.le_refl _
    · rw [hruns] at hr
      cases hr
    · rw [hpending] at hp
      cases hp
  split
  next hmoof =>
    have hnot : b.kind ≠ kindOf "mdat" := by
      rw [hmoof.1]
      decide
    have hon := h.other hb hnot hstop
    have hhere : HasBox part "moof" at_ b.size := hasBox_here h.reached hb hmoof.1
    refine (meets_add (by unfold wordMax; omega)).bind fun first hfirst => ?_
    rw [sub_eq hcontents, ok_bind]
    refine (meets_add (by unfold wordMax; omega)).bind fun stop hstop' => ?_
    refine (meets_slice (by omega) (by omega)).bind fun moof hmoofIs => ?_
    have hsmall : moof.length < 2 ^ 63 := by
      rw [hmoofIs, length_extract (by omega)]
      omega
    refine Meets.bind (fragmentKey_safe ⟨moof, hsmall⟩) fun key _ => meets_ok fun g' hg => ?_
    cases hg
    refine ⟨hon.reached, hon.le, hon.runs, fun p hp => ?_, hon.init_boxes, hon.init_ordered, fun i hi => ?_⟩
    · cases hp
      refine ⟨⟨b.size, hhere⟩, ?_, h.runs.before⟩
      show at_ < at_ + b.size
      omega
    · refine ⟨(hon.init_before i hi).1, (hon.init_before i hi).2.1, fun p hp => ?_⟩
      cases hp
      exact (h.init_before i hi).1
  split
  next hmdat =>
    rw [add_eq (by unfold wordMax; omega), ok_bind]
    exact h.mdat hb hmdat hstop
  next hnot =>
    refine meets_ok fun g' hg => ?_
    cases hg
    exact h.other hb hnot hstop

end Step



/-! ## At the end -/

/-- Two runs that hold one byte are one. -/
theorem Run.eq_of_holds {runs : List Run} (hordered : runs.Pairwise fun a b => a.stop ≤ b.start) {r r' : Run}
    (hr : r ∈ runs) (hr' : r' ∈ runs) {at_ size : Nat} (hpos : 0 < size) (hholds : r.Holds at_ size)
    (hholds' : r'.Holds at_ size) : r = r' := by
  obtain ⟨i, hi, rfl⟩ := List.getElem_of_mem hr
  obtain ⟨j, hj, rfl⟩ := List.getElem_of_mem hr'
  obtain ⟨hstart, hstop⟩ := hholds
  obtain ⟨hstart', hstop'⟩ := hholds'
  rcases Nat.lt_trichotomy i j with hlt | rfl | hgt
  · have hapart := List.pairwise_iff_getElem.mp hordered i j hi hj hlt
    omega
  · rfl
  · have hapart := List.pairwise_iff_getElem.mp hordered j i hj hi hgt
    omega

theorem Walked.sound {part : List UInt8} {at_ : Nat} {g : Gathered} (h : Walked part at_ g) (hend : boxOf part at_ = none)
    {l : Layout} (hl : g.layout = some l) : Sound part l := by
  unfold Gathered.layout at hl
  split at hl
  next hne =>
    cases hl
    refine ⟨hne.2, hne.1, h.runs.spans, h.runs.ordered, fun r hr => Nat.le_trans (h.runs.before r hr) h.le, ?_, h.init_boxes,
      h.init_ordered, fun i hi => (h.init_before i hi).2.1⟩
    intro a size hbox
    have hnone : nextBox part at_ = none := by
      rw [nextBox, hend]
      rfl
    have hle : a ≤ at_ := h.reached.le_last (nextBox_lt part) hnone hbox.reached
    have hlt : a < at_ := by
      refine Nat.lt_of_le_of_ne hle ?_
      rintro rfl
      obtain ⟨b, hb, -⟩ := hbox.found
      rw [hend] at hb
      cases hb
    obtain ⟨r, hr, hholds⟩ := h.runs.whole a size hbox hlt
    refine ⟨r, ⟨hr, hholds⟩, fun r' hr' => ?_⟩
    exact Run.eq_of_holds h.runs.ordered hr'.1 hr hbox.pos hr'.2 hholds
  next => cases hl

theorem layoutFrom_safe {part : List UInt8} (hpart : part.length < 2 ^ 63) {turns at_ : Nat} {g : Gathered}
    (hturns : part.length < turns + at_) (h : Walked part at_ g) :
    Meets (layoutFrom part turns at_ g) fun found => ∀ l, found = some l → Sound part l := by
  induction turns generalizing at_ g with
  | zero =>
    have hle := h.le
    omega
  | succ turns ih =>
    unfold layoutFrom
    have hread := boxAt_safe part at_
    cases hbox : boxAt part at_ with
    | error e =>
      cases e with
      | fault => exact absurd hbox hread.1
      | error e => cases e
    | ok found =>
      have hof : boxOf part at_ = found := by
        rw [boxOf, hbox]
      rw [ok_bind]
      cases found with
      | none => exact meets_ok fun l hl => h.sound hof hl
      | some b =>
        have hwithin := boxOf_within hof
        have hheader := hwithin.header
        have hcontents := hwithin.contents
        have hstop := hwithin.stop
        refine (h.box hpart hof).bind fun found hfound => ?_
        cases found with
        | none => exact meets_ok fun l hl => nomatch hl
        | some g' =>
          show Meets (add at_ b.size >>= _) _
          rw [add_eq (by unfold wordMax; omega), ok_bind]
          exact ih (by omega) (hfound g' rfl)

/-- A part is laid out without a fault, and soundly, whatever its bytes. -/
theorem fmp4Layout_safe (part : Slice) :
    Meets (fmp4Layout part.bytes) fun found => ∀ l, found = some l → Sound part.bytes l :=
  layoutFrom_safe part.length_le (by omega) (walked_empty part.bytes)


end Hyperfetch.Recording
