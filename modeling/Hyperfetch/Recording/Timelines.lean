import Hyperfetch.Text
import Hyperfetch.Recording.Webm
import Hyperfetch.Weft.Clocks

/-!
# Fragments in order (`timelines`, `write_joined`, `Layout::in_order`, `join_track`)

The runs of all parts go on timelines, each in order of time. A run is left out that has
the time and length of an earlier one, whatever its bytes, and one beside another of its
time on its timeline. `loses_nothing_iff` says when no fragment is lost by that.
-/

namespace Hyperfetch.Recording

open Weft Checked

namespace Run

/-- The key, in order: none first, then by track and time. -/
def order (r : Run) : WithBot (Nat ×ₗ Nat) := r.key.map toLex

/-- The decode time. -/
def time (r : Run) : Nat := (r.key.map Prod.snd).getD 0

end Run

/-- Each run with its layout's index. -/
def runsOf (layouts : List Layout) : List (Nat × Run) := layouts.zipIdx.flatMap fun l => l.1.runs.map (Prod.mk l.2)

/-- All are fragments, and of one track. -/
def oneTrack (runs : List (Nat × Run)) : Bool :=
  match runs.mapM fun e => e.2.key with
  | some keys => keys.all fun key => some key.1 = keys.head?.map Prod.fst
  | none => false

/-- `timelines`. -/
def timelines (layouts : List Layout) : List (List (Nat × Run)) :=
  let runs := runsOf layouts
  if oneTrack runs then (epochs (fun e => e.2.order) (fun e => e.2.len) runs).map (firsts fun e => e.2.order) else [runs]

/-- `Layout::in_order`. -/
def Layout.inOrder (l : Layout) : Bool :=
  let timelines := timelines [l]
  (l.init.head?.all fun box => box.1 = 0) && timelines.length ≤ 1 &&
    timelines.flatten.map (fun e => e.2.start) = l.runs.map fun r => r.start

inductive JoinError
  | unexpectedEof
  | noFfmpeg
  deriving DecidableEq, Repr

/-- `write_joined`: what is in the file it wrote. -/
def writeJoined (init : List UInt8) (parts : List (List UInt8)) (runs : List (Nat × Run)) : Checked JoinError (List UInt8) :=
  runs.foldlM (fun out e => do
    let file ← index parts e.1
    let bytes := (file.drop e.2.start).take e.2.len
    if bytes.length = e.2.len then .ok (out ++ bytes) else fail .unexpectedEof) init

/-- A recorded part with its layout. -/
structure Part where
  file : Slice
  layout : Layout
  laidOut : layoutOf file.bytes = .ok layout

namespace Part

def bytes (p : Part) : List UInt8 := p.file.bytes

/-- `Layout::init_bytes`. -/
def initBytes (p : Part) : List UInt8 := p.layout.init.flatMap fun box => (p.bytes.drop box.1).take box.2

/-- The files `join_track` makes of a part to encode again. -/
def sorted (p : Part) : Checked JoinError (List (List UInt8)) :=
  if p.layout.inOrder then .ok [p.bytes] else (timelines [p.layout]).mapM (writeJoined p.initBytes [p.bytes])

end Part

/-- What `join_track` makes of a track's parts: the only part as it is, one file, files to
join one after another, or files to encode again. -/
inductive Joined
  | asItIs
  | file (bytes : List UInt8)
  | concatCopy (files : List (List UInt8))
  | reencode (files : List (List UInt8))

/-- `join_track`. -/
def joinTrack (ffmpeg : Bool) (parts : List Part) : Checked JoinError Joined := do
  let first ← index parts 0
  if parts.all fun p => p.initBytes = first.initBytes then
    if parts.length = 1 && first.layout.inOrder then .ok .asItIs
    else
      let timelines := timelines (parts.map Part.layout)
      let write := writeJoined first.initBytes (parts.map Part.bytes)
      if ffmpeg && 1 < timelines.length then Joined.concatCopy <$> timelines.mapM write
      else Joined.file <$> write timelines.flatten
  else if ffmpeg then (fun files => Joined.reencode files.flatten) <$> parts.mapM Part.sorted
  else fail .noFfmpeg

/-- Parts whose runs all are fragments of one track. -/
structure Recorded where
  parts : List Part
  track : Nat
  ofTrack : ∀ p ∈ parts, ∀ r ∈ p.layout.runs, ∃ t, r.key = some (track, t)

namespace Recorded

variable (rec : Recorded)

def layouts : List Layout := rec.parts.map Part.layout

def files : List (List UInt8) := rec.parts.map Part.bytes

/-- The runs of all parts, in the order they came. -/
def runs : List (Nat × Run) := runsOf rec.layouts

/-- A run's bytes. -/
def bytesOf (e : Nat × Run) : List UInt8 := ((rec.files.getD e.1 []).drop e.2.start).take e.2.len

def timelines : List (List (Nat × Run)) := Recording.timelines rec.layouts

/-- Each fragment's time, as the key has it. -/
abbrev timeOf (e : Nat × Run) : WithBot (Nat ×ₗ Nat) := e.2.order

abbrev lenOf (e : Nat × Run) : Nat := e.2.len

/-- No fragment is lost: one that is left out is on a timeline with the very bytes, from
before, or has another of its time on the timeline that runs when it comes. -/
structure LosesNothing : Prop where
  increasing : ∀ line ∈ rec.timelines, line.Pairwise fun a b => a.2.time < b.2.time
  once : rec.timelines.flatten.Nodup ∧ ∀ e ∈ rec.timelines.flatten, e ∈ rec.runs
  leaves : ∀ before e after, rec.runs = before ++ e :: after →
    e ∈ rec.timelines.flatten ∨
      (∃ a ∈ before, a ∈ rec.timelines.flatten ∧ a.2.time = e.2.time ∧ rec.bytesOf a = rec.bytesOf e) ∨
      (∃ a ∈ before, a.2.time < e.2.time) ∧ ∃ i, clocks timeOf lenOf before = i + 1 ∧
        ∃ line, rec.timelines[i]? = some line ∧ ∃ x ∈ line, x ≠ e ∧ x.2.time = e.2.time
  writes : ∀ init runs, runs ⊆ rec.timelines.flatten →
    writeJoined init rec.files runs = .ok (init ++ runs.flatMap rec.bytesOf)
  inOrder : ∀ p ∈ rec.parts, p.layout.inOrder = true → (Recording.timelines [p.layout]).flatten = runsOf [p.layout]

/-- A fragment of an earlier one's time and length has the very bytes of one that was the
first of its time, or comes behind the first of the timeline that runs, where another has
its time. -/
def ToldApart : Prop :=
  ∀ before e after, rec.runs = before ++ e :: after → (∃ a ∈ before, a.2.time = e.2.time ∧ a.2.len = e.2.len) →
    (∃ a, Kept timeOf lenOf before a ∧ a.2.time = e.2.time ∧ rec.bytesOf a = rec.bytesOf e) ∨
      (∃ a ∈ before, a.2.time < e.2.time) ∧ ∃ i, clocks timeOf lenOf before = i + 1 ∧
        ∃ x, OnClock timeOf lenOf rec.runs i x ∧ x.2.time = e.2.time

end Recorded

/-! ## The runs of the parts -/

theorem mem_runsOf {layouts : List Layout} {e : Nat × Run} :
    e ∈ runsOf layouts ↔ ∃ l, layouts[e.1]? = some l ∧ e.2 ∈ l.runs := by
  obtain ⟨n, run⟩ := e
  simp only [runsOf, List.mem_flatMap, List.mem_map, Prod.mk.injEq]
  constructor
  · rintro ⟨⟨l, m⟩, hl, r, hr, rfl, rfl⟩
    exact ⟨l, List.mem_zipIdx_iff_getElem?.mp hl, hr⟩
  · rintro ⟨l, hl, hr⟩
    exact ⟨(l, n), List.mem_zipIdx_iff_getElem?.mpr hl, run, hr, rfl, rfl⟩

theorem nodup_runsOf {layouts : List Layout} (h : ∀ l ∈ layouts, l.runs.Nodup) : (runsOf layouts).Nodup := by
  rw [runsOf, List.nodup_flatMap]
  constructor
  · rintro ⟨l, n⟩ hl
    exact (h l (List.fst_mem_of_mem_zipIdx hl)).map (Prod.mk_right_injective n)
  · have hindices : (layouts.zipIdx.map Prod.snd).Nodup := by
      rw [List.zipIdx_map_snd]
      exact List.nodup_range'
    refine (List.pairwise_map.mp hindices).imp fun {a b} hne e hea heb => ?_
    obtain ⟨_, _, rfl⟩ := List.mem_map.mp hea
    obtain ⟨_, _, hb⟩ := List.mem_map.mp heb
    exact hne (congrArg Prod.fst hb).symm

namespace Sound

variable {part : List UInt8} {l : Layout}

theorem starts (h : Sound part l) : l.runs.Pairwise fun a b => a.start < b.start := by
  refine h.ordered.imp_of_mem fun {a b} ha _ hab => ?_
  have hpos := (h.spans a ha).pos
  rw [Run.stop] at hab
  omega

theorem nodup (h : Sound part l) : l.runs.Nodup := h.starts.imp fun hlt heq => absurd (congrArg Run.start heq) hlt.ne

theorem eq_of_start (h : Sound part l) {a b : Run} (ha : a ∈ l.runs) (hb : b ∈ l.runs) (hstart : a.start = b.start) : a = b := by
  have hnodup : (l.runs.map Run.start).Nodup := List.pairwise_map.mpr (h.starts.imp fun hlt => hlt.ne)
  exact List.inj_on_of_nodup_map hnodup ha hb hstart

end Sound

/-- Fragments are of a sound layout. -/
theorem Part.sound (p : Part) (hkeys : ∀ r ∈ p.layout.runs, ∃ key, r.key = some key) : Sound p.bytes p.layout := by
  have hlaid := p.laidOut
  have hplain {start len : Nat} {init : List (Nat × Nat)} (h : p.layout = ⟨init, [⟨start, len, none⟩]⟩) : False := by
    obtain ⟨key, hkey⟩ := hkeys ⟨start, len, none⟩ (by rw [h]; exact List.mem_singleton_self _)
    cases hkey
  rw [layoutOf] at hlaid
  split at hlaid
  next =>
    obtain ⟨head, -, hlaid⟩ := bind_eq_ok.mp hlaid
    obtain ⟨init, -, hlaid⟩ := bind_eq_ok.mp hlaid
    cases init with
    | none => exact (hplain (Except.ok.inj hlaid).symm).elim
    | some init =>
      obtain ⟨len, -, hlaid⟩ := bind_eq_ok.mp hlaid
      exact (hplain (Except.ok.inj hlaid).symm).elim
  next =>
    obtain ⟨found, hfound, hlaid⟩ := bind_eq_ok.mp hlaid
    cases found with
    | none => exact (hplain (Except.ok.inj hlaid).symm).elim
    | some layout =>
      obtain rfl : layout = p.layout := Except.ok.inj hlaid
      exact (fmp4Layout_safe p.file).2 _ hfound _ rfl

/-! ## One track -/

theorem mapM_keys {runs : List (Nat × Run)} {track : Nat} (h : ∀ e ∈ runs, ∃ t, e.2.key = some (track, t)) :
    ∃ times : List Nat, (runs.mapM fun e => e.2.key) = some (times.map (Prod.mk track)) := by
  induction runs with
  | nil => exact ⟨[], rfl⟩
  | cons e runs ih =>
    obtain ⟨t, ht⟩ := h e List.mem_cons_self
    obtain ⟨times, htimes⟩ := ih fun a ha => h a (List.mem_cons_of_mem e ha)
    refine ⟨t :: times, ?_⟩
    rw [List.mapM_cons, ht, htimes]
    rfl

theorem oneTrack_of {runs : List (Nat × Run)} {track : Nat} (h : ∀ e ∈ runs, ∃ t, e.2.key = some (track, t)) :
    oneTrack runs = true := by
  obtain ⟨times, htimes⟩ := mapM_keys h
  rw [oneTrack, htimes]
  cases times <;> simp

theorem subperm_firsts {α τ : Type} [LinearOrder τ] (time : α → τ) (groups : List (List α)) :
    (groups.map (firsts time)).flatten.Subperm groups.flatten := by
  induction groups with
  | nil => exact List.Subperm.refl []
  | cons group groups ih => exact (firsts_subperm group).append ih

namespace Recorded

variable {rec : Recorded} {a b e : Nat × Run}

theorem mem_runs : e ∈ rec.runs ↔ ∃ p, rec.parts[e.1]? = some p ∧ e.2 ∈ p.layout.runs := by
  rw [runs, mem_runsOf]
  simp only [layouts, List.getElem?_map, Option.map_eq_some_iff, exists_exists_and_eq_and]

theorem key_of_mem (he : e ∈ rec.runs) : ∃ t, e.2.key = some (rec.track, t) := by
  obtain ⟨p, hp, hr⟩ := mem_runs.mp he
  exact rec.ofTrack p (List.mem_of_getElem? hp) e.2 hr

theorem sound {p : Part} (hp : p ∈ rec.parts) : Sound p.bytes p.layout := by
  refine p.sound fun r hr => ?_
  obtain ⟨t, ht⟩ := rec.ofTrack p hp r hr
  exact ⟨_, ht⟩

theorem nodup_runs : rec.runs.Nodup := by
  refine nodup_runsOf fun l hl => ?_
  obtain ⟨p, hp, rfl⟩ := List.mem_map.mp hl
  exact (sound hp).nodup

theorem timeOf_lt (ha : a ∈ rec.runs) (hb : b ∈ rec.runs) : timeOf a < timeOf b ↔ a.2.time < b.2.time := by
  obtain ⟨t, ht⟩ := key_of_mem ha
  obtain ⟨u, hu⟩ := key_of_mem hb
  have hlt : timeOf a < timeOf b ↔ toLex (rec.track, t) < toLex (rec.track, u) := by
    rw [timeOf, timeOf, Run.order, Run.order, ht, hu]
    exact WithBot.coe_lt_coe
  rw [hlt, Prod.Lex.toLex_lt_toLex, Run.time, Run.time, ht, hu]
  simp

theorem timeOf_eq (ha : a ∈ rec.runs) (hb : b ∈ rec.runs) : timeOf a = timeOf b ↔ a.2.time = b.2.time := by
  have hlt := timeOf_lt ha hb
  have hgt := timeOf_lt hb ha
  constructor
  · intro h
    have hab : ¬ a.2.time < b.2.time := fun h' => (hlt.mpr h').ne h
    have hba : ¬ b.2.time < a.2.time := fun h' => (hgt.mpr h').ne' h
    omega
  · intro h
    exact le_antisymm (not_lt.mp fun h' => (hgt.mp h').ne' h) (not_lt.mp fun h' => (hlt.mp h').ne h)

theorem timelines_eq (rec : Recorded) : rec.timelines = (epochs timeOf lenOf rec.runs).map (firsts timeOf) := by
  have hone : oneTrack (runsOf rec.layouts) = true := oneTrack_of fun e he => key_of_mem he
  rw [timelines, Recording.timelines, if_pos hone, runs]

theorem mem_timelines : e ∈ rec.timelines.flatten ↔ Kept timeOf lenOf rec.runs e := by
  rw [timelines_eq, mem_map_firsts]

theorem subperm_timelines (rec : Recorded) : rec.timelines.flatten.Subperm rec.runs := by
  rw [timelines_eq]
  exact (subperm_firsts _ _).trans (flatten_epochs rec.runs).subperm

theorem increasing {line : List (Nat × Run)} (hline : line ∈ rec.timelines) :
    line.Pairwise fun a b => a.2.time < b.2.time := by
  have hmem : ∀ e ∈ line, e ∈ rec.runs := fun e he =>
    rec.subperm_timelines.subset (List.mem_flatten.mpr ⟨line, hline, he⟩)
  rw [timelines_eq] at hline
  obtain ⟨group, -, rfl⟩ := List.mem_map.mp hline
  exact (pairwise_firsts group).imp_of_mem fun ha hb h => (timeOf_lt (hmem _ ha) (hmem _ hb)).mp h

/-! ## What is written -/

theorem bytesOf_length (he : e ∈ rec.runs) : ∃ file, rec.files[e.1]? = some file ∧
    rec.bytesOf e = (file.drop e.2.start).take e.2.len ∧ (rec.bytesOf e).length = e.2.len := by
  obtain ⟨p, hp, hr⟩ := mem_runs.mp he
  have hfile : rec.files[e.1]? = some p.bytes := by rw [files, List.getElem?_map, hp, Option.map_some]
  have hbytes : rec.bytesOf e = (p.bytes.drop e.2.start).take e.2.len := by rw [bytesOf, List.getD, hfile, Option.getD_some]
  refine ⟨p.bytes, hfile, hbytes, ?_⟩
  have hwithin := (sound (List.mem_of_getElem? hp)).within e.2 hr
  rw [Run.stop] at hwithin
  rw [hbytes, List.length_take, List.length_drop]
  omega

theorem writeJoined_eq (init : List UInt8) {runs : List (Nat × Run)} (hruns : runs ⊆ rec.runs) :
    writeJoined init rec.files runs = .ok (init ++ runs.flatMap rec.bytesOf) := by
  induction runs generalizing init with
  | nil => simp [writeJoined, pure, Except.pure]
  | cons e runs ih =>
    obtain ⟨he, hrest⟩ := List.cons_subset.mp hruns
    obtain ⟨file, hfile, hbytes, hlen⟩ := bytesOf_length he
    rw [writeJoined, List.foldlM_cons, index_eq hfile, ok_bind, ← hbytes, if_pos hlen, ok_bind]
    rw [← writeJoined, ih (init ++ rec.bytesOf e) hrest, List.flatMap_cons, List.append_assoc]

end Recorded

theorem runsOf_single (l : Layout) : runsOf [l] = l.runs.map (Prod.mk 0) := by simp [runsOf]

/-- Runs of the starts of a sound layout's are that layout's. -/
theorem Sound.runs_eq {part : List UInt8} {l : Layout} (h : Sound part l) {runs : List Run} (hmem : ∀ r ∈ runs, r ∈ l.runs)
    (hstarts : runs.map Run.start = l.runs.map Run.start) : runs = l.runs := by
  have hlen : runs.length = l.runs.length := by
    have hlen := congrArg List.length hstarts
    rwa [List.length_map, List.length_map] at hlen
  refine List.ext_getElem hlen fun i hi hi' => ?_
  refine h.eq_of_start (hmem _ (List.getElem_mem hi)) (List.getElem_mem hi') ?_
  have hstart : (runs.map Run.start)[i]? = (l.runs.map Run.start)[i]? := by rw [hstarts]
  rw [List.getElem?_map, List.getElem?_map, List.getElem?_eq_getElem hi, List.getElem?_eq_getElem hi'] at hstart
  exact Option.some.inj hstart

theorem Sound.inOrder {part : List UInt8} {l : Layout} (h : Sound part l) (hin : l.inOrder = true) :
    (timelines [l]).flatten = runsOf [l] := by
  have hsub : (timelines [l]).flatten ⊆ runsOf [l] := by
    rw [timelines]
    split
    · exact ((subperm_firsts _ _).trans (flatten_epochs _).subperm).subset
    · simp
  have hfirst : ∀ e ∈ (timelines [l]).flatten, ∃ r ∈ l.runs, (0, r) = e := by
    intro e he
    have he := hsub he
    rwa [runsOf_single, List.mem_map] at he
  have hpairs : (timelines [l]).flatten = ((timelines [l]).flatten.map Prod.snd).map (Prod.mk 0) := by
    rw [List.map_map, eq_comm]
    refine (List.map_congr_left fun e he => ?_).trans (List.map_id _)
    obtain ⟨r, -, rfl⟩ := hfirst e he
    rfl
  rw [hpairs, runsOf_single]
  congr 1
  refine h.runs_eq (fun r hr => ?_) ?_
  · obtain ⟨e, he, rfl⟩ := List.mem_map.mp hr
    obtain ⟨r, hrun, rfl⟩ := hfirst e he
    exact hrun
  · rw [Layout.inOrder, Bool.and_eq_true, decide_eq_true_eq] at hin
    rw [List.map_map]
    exact hin.2

/-! ## What is left out -/

namespace Recorded

variable {rec : Recorded} {before after : List (Nat × Run)} {e : Nat × Run}

theorem exists_in_timeline {i : Nat} {p : Nat × Run → Prop} :
    (∃ line, rec.timelines[i]? = some line ∧ ∃ x ∈ line, p x) ↔
      ∃ x ∈ firsts timeOf ((epochs timeOf lenOf rec.runs).getD i []), p x := by
  rw [timelines_eq, List.getElem?_map, List.getD]
  cases (epochs timeOf lenOf rec.runs)[i]? with
  | none =>
    have hnone : firsts timeOf ([] : List (Nat × Run)) = [] := List.subperm_nil.mp (firsts_subperm [])
    simp [hnone]
  | some group => simp

theorem mem_of_before {a : Nat × Run} (hruns : rec.runs = before ++ e :: after) (ha : a ∈ before) : a ∈ rec.runs := by
  rw [hruns]
  exact List.mem_append_left _ ha

theorem not_fresh_iff (hruns : rec.runs = before ++ e :: after) :
    ¬ Fresh timeOf lenOf before e ↔ ∃ a ∈ before, a.2.time = e.2.time ∧ a.2.len = e.2.len := by
  have he : e ∈ rec.runs := by simp [hruns]
  rw [Fresh]
  push Not
  simp only [Prod.mk.injEq]
  constructor
  · rintro ⟨a, ha, htime, hlen⟩
    exact ⟨a, ha, (timeOf_eq (mem_of_before hruns ha) he).mp htime, hlen⟩
  · rintro ⟨a, ha, htime, hlen⟩
    exact ⟨a, ha, (timeOf_eq (mem_of_before hruns ha) he).mpr htime, hlen⟩

/-- One of the time on the timeline, beside a run that is on none. -/
theorem beside_iff (he : e ∈ rec.runs) (hout : ¬ Kept timeOf lenOf rec.runs e) {i : Nat} :
    (∃ line, rec.timelines[i]? = some line ∧ ∃ x ∈ line, x ≠ e ∧ x.2.time = e.2.time) ↔
      ∃ x, OnClock timeOf lenOf rec.runs i x ∧ x.2.time = e.2.time := by
  rw [exists_in_timeline]
  constructor
  · rintro ⟨x, hx, -, htime⟩
    exact ⟨x, mem_epochs.mp ((firsts_subperm _).subset hx), htime⟩
  · rintro ⟨x, hon, htime⟩
    have hx := mem_of_onClock hon
    obtain ⟨r, hr, hrtime⟩ := exists_mem_firsts.mpr ⟨x, hon, (timeOf_eq hx he).mpr htime⟩
    have hkept : Kept timeOf lenOf rec.runs r := ⟨i, mem_firsts_epochs.mp hr⟩
    have hrmem := mem_of_onClock (mem_epochs.mp ((firsts_subperm _).subset hr))
    refine ⟨r, hr, ?_, (timeOf_eq hrmem he).mp hrtime⟩
    rintro rfl
    exact hout hkept

theorem leaves_of_fresh (hruns : rec.runs = before ++ e :: after) (hnew : Fresh timeOf lenOf before e) :
    e ∈ rec.timelines.flatten ∨
      (∃ a ∈ before, a.2.time < e.2.time) ∧ ∃ i, clocks timeOf lenOf before = i + 1 ∧
        ∃ line, rec.timelines[i]? = some line ∧ ∃ x ∈ line, x ≠ e ∧ x.2.time = e.2.time := by
  have he : e ∈ rec.runs := by simp [hruns]
  rw [mem_timelines]
  have hkept := kept_or_beside hnew after
  rw [← hruns] at hkept
  refine hkept.imp_right ?_
  rintro ⟨⟨a, ha, hlt⟩, i, hclock, r, hr, hne, htime⟩
  have hrmem := mem_of_onClock (mem_epochs.mp ((firsts_subperm _).subset hr))
  refine ⟨⟨a, ha, (timeOf_lt (mem_of_before hruns ha) he).mp hlt⟩, i, hclock, ?_⟩
  exact exists_in_timeline.mpr ⟨r, hr, hne, (timeOf_eq hrmem he).mp htime⟩

theorem leaves_iff (hruns : rec.runs = before ++ e :: after) :
    (e ∈ rec.timelines.flatten ∨
      (∃ a ∈ before, a ∈ rec.timelines.flatten ∧ a.2.time = e.2.time ∧ rec.bytesOf a = rec.bytesOf e) ∨
      (∃ a ∈ before, a.2.time < e.2.time) ∧ ∃ i, clocks timeOf lenOf before = i + 1 ∧
        ∃ line, rec.timelines[i]? = some line ∧ ∃ x ∈ line, x ≠ e ∧ x.2.time = e.2.time) ↔
    ((∃ a ∈ before, a.2.time = e.2.time ∧ a.2.len = e.2.len) →
      (∃ a, Kept timeOf lenOf before a ∧ a.2.time = e.2.time ∧ rec.bytesOf a = rec.bytesOf e) ∨
        (∃ a ∈ before, a.2.time < e.2.time) ∧ ∃ i, clocks timeOf lenOf before = i + 1 ∧
          ∃ x, OnClock timeOf lenOf rec.runs i x ∧ x.2.time = e.2.time) := by
  have he : e ∈ rec.runs := by simp [hruns]
  have hnodup := rec.nodup_runs
  rw [hruns] at hnodup
  by_cases hnew : Fresh timeOf lenOf before e
  · have hfirst := (not_fresh_iff hruns).not.mp (not_not.mpr hnew)
    exact iff_of_true ((leaves_of_fresh hruns hnew).imp_right .inr) fun h => absurd h hfirst
  · have hout : ¬ Kept timeOf lenOf rec.runs e := by
      rw [hruns]
      exact not_kept_of_not_fresh hnodup hnew
    have hagain := (not_fresh_iff hruns).mp hnew
    have hsame : (∃ a ∈ before, a ∈ rec.timelines.flatten ∧ a.2.time = e.2.time ∧ rec.bytesOf a = rec.bytesOf e) ↔
        ∃ a, Kept timeOf lenOf before a ∧ a.2.time = e.2.time ∧ rec.bytesOf a = rec.bytesOf e := by
      refine exists_congr fun a => ?_
      rw [mem_timelines, ← and_assoc]
      refine and_congr_left fun _ => ?_
      constructor
      · rintro ⟨ha, hkept⟩
        rw [hruns] at hkept
        exact (kept_append ha hnodup).mp hkept
      · intro hkept
        have ha := hkept.mem
        rw [hruns]
        exact ⟨ha, (kept_append ha hnodup).mpr hkept⟩
    rw [mem_timelines, or_iff_right hout, hsame, forall_prop_of_true hagain]
    simp only [beside_iff he hout]

/-- No fragment is lost if and only if those with an earlier one's time and length are told
apart from it as they must be. -/
theorem loses_nothing_iff (rec : Recorded) : rec.LosesNothing ↔ rec.ToldApart := by
  constructor
  · intro h before e after hruns
    exact (leaves_iff hruns).mp (h.leaves before e after hruns)
  · intro h
    refine ⟨fun line hline => increasing hline, ⟨?_, rec.subperm_timelines.subset⟩, ?_, ?_, ?_⟩
    · obtain ⟨l, hperm, hsub⟩ := rec.subperm_timelines
      exact hperm.nodup_iff.mp (hsub.nodup rec.nodup_runs)
    · intro before e after hruns
      exact (leaves_iff hruns).mpr (h before e after hruns)
    · intro init runs hsub
      exact writeJoined_eq init fun e he => rec.subperm_timelines.subset (hsub he)
    · intro p hp hin
      exact (sound hp).inOrder hin

end Recorded

/-! ## Joined with one init segment -/

theorem mapM_ok {ε α β : Type} {f : α → Except ε β} {g : α → β} {l : List α} (h : ∀ a ∈ l, f a = .ok (g a)) :
    l.mapM f = .ok (l.map g) := by
  induction l with
  | nil => rfl
  | cons a l ih =>
    rw [List.mapM_cons, h a List.mem_cons_self, ih fun b hb => h b (List.mem_cons_of_mem a hb)]
    rfl

/-- Parts of one init segment are joined behind it, without a fault. -/
theorem joinTrack_alike (ffmpeg : Bool) (rec : Recorded) {first : Part} (hfirst : rec.parts[0]? = some first)
    (halike : ∀ p ∈ rec.parts, p.initBytes = first.initBytes) :
    joinTrack ffmpeg rec.parts =
      .ok (if rec.parts.length = 1 && first.layout.inOrder then .asItIs
        else if ffmpeg && 1 < rec.timelines.length then
          .concatCopy (rec.timelines.map fun line => first.initBytes ++ line.flatMap rec.bytesOf)
        else .file (first.initBytes ++ rec.timelines.flatten.flatMap rec.bytesOf)) := by
  have hwrite {runs : List (Nat × Run)} (h : runs ⊆ rec.timelines.flatten) :=
    Recorded.writeJoined_eq first.initBytes fun e he => rec.subperm_timelines.subset (h he)
  have hall : (rec.parts.all fun p => p.initBytes = first.initBytes) = true := by simpa using halike
  rw [joinTrack, index_eq hfirst, ok_bind, if_pos hall]
  change (if _ then _ else if ffmpeg && 1 < rec.timelines.length then
    Joined.concatCopy <$> rec.timelines.mapM (writeJoined first.initBytes rec.files) else
    Joined.file <$> writeJoined first.initBytes rec.files rec.timelines.flatten) = _
  have hlines : rec.timelines.mapM (writeJoined first.initBytes rec.files) =
      .ok (rec.timelines.map fun line => first.initBytes ++ line.flatMap rec.bytesOf) :=
    mapM_ok fun line hline => hwrite fun e he => List.mem_flatten.mpr ⟨line, hline, he⟩
  rw [hlines, hwrite (List.Subset.refl _)]
  split
  · rfl
  · split <;> rfl

/-! ## A player that starts its clock again -/

/-- A fragment of track 1 with one byte of media. -/
def fragment (time media : UInt8) : List UInt8 :=
  [0, 0, 0, 48] ++ kindOf "moof" ++ [0, 0, 0, 40] ++ kindOf "traf" ++ [0, 0, 0, 16] ++ kindOf "tfhd" ++ [0, 0, 0, 0, 0, 0, 0, 1] ++
    [0, 0, 0, 16] ++ kindOf "tfdt" ++ [0, 0, 0, 0, 0, 0, 0, time] ++ [0, 0, 0, 9] ++ kindOf "mdat" ++ [media]

/-- Fragments at 0 and 10, and another at 0. -/
def restarted : Recorded where
  parts :=
    [{  file := ⟨[0, 0, 0, 8] ++ kindOf "ftyp" ++ [0, 0, 0, 8] ++ kindOf "moov" ++ fragment 0 1 ++ fragment 10 2 ++ fragment 0 3,
          by decide +kernel⟩
        layout := ⟨[(0, 8), (8, 8)], [⟨16, 57, some (1, 0)⟩, ⟨73, 57, some (1, 10)⟩, ⟨130, 57, some (1, 0)⟩]⟩
        laidOut := by decide +kernel }]
  track := 1
  ofTrack := by simp

/-- The media after the clock started again is in no timeline. -/
theorem restarted_loses : ¬ restarted.LosesNothing := by
  intro h
  let before : List (Nat × Run) := [(0, ⟨16, 57, some (1, 0)⟩), (0, ⟨73, 57, some (1, 10)⟩)]
  let e : Nat × Run := (0, ⟨130, 57, some (1, 0)⟩)
  have hruns : restarted.runs = before ++ e :: [] := rfl
  have hnodup := restarted.nodup_runs
  rcases h.leaves before e [] hruns with hin | ⟨a, ha, -, htime, hbytes⟩ | ⟨⟨a, ha, hlt⟩, -⟩
  · have hold : ¬ Fresh Recorded.timeOf Recorded.lenOf before e := fun h => h _ List.mem_cons_self rfl
    rw [Recorded.mem_timelines, hruns] at hin
    rw [hruns] at hnodup
    exact not_kept_of_not_fresh hnodup hold hin
  · simp only [before, List.mem_cons, List.not_mem_nil, or_false] at ha
    rcases ha with rfl | rfl
    · exact absurd hbytes (by decide +kernel)
    · exact absurd htime (by decide)
  · exact absurd hlt (Nat.not_lt_zero _)

end Hyperfetch.Recording
