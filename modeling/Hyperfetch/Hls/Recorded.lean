import Hyperfetch.Hls.Live
import Hyperfetch.Weft.Newest

/-!
# What a live recording holds

`Sound`: how a track's books hang together with what it took, what became of
that, and what of it waits in the batch. Every event keeps it (`kept_step`), so
it holds of every recording (`kept`).
-/

namespace Hyperfetch.Live

open Weft

variable {F I : Type}

/-! ## What the log says -/

def Fate.bytes : Fate → Bytes
  | .gone => []
  | .written head data => Track.joined head data

/-- The file of what was settled. -/
def fileOf : List (Settled F I) → Bytes
  | [] => []
  | d :: older => fileOf older ++ d.fate.bytes

/-- The init section of the segment written last. -/
def lastInit : List (Settled F I) → Option I
  | [] => none
  | ⟨_, .gone⟩ :: older => lastInit older
  | ⟨x, .written _ _⟩ :: _ => x.listed.init

/-- Where the marked segments start, but not at the start of the file. -/
def breaksOf : List (Settled F I) → List Nat
  | [] => []
  | ⟨_, .gone⟩ :: older => breaksOf older
  | ⟨x, .written _ _⟩ :: older =>
    breaksOf older ++ if x.marked && 0 < (fileOf older).length then [(fileOf older).length] else []

/-- What is taken next is marked for what came before: a gap or a restart was
found, and since then each segment was flagged itself. -/
def owed : List (Taken F I) → Bool
  | [] => false
  | x :: older => x.listed.discontinuity && (x.found || owed older)

/-- Its number is above the one before, if no restart came between. -/
def Follows (x : Taken F I) (older : List (Taken F I)) : Prop :=
  x.restarted = true ∨ ∀ y ∈ older.head?, y.listed.sequence < x.listed.sequence

/-- It is marked by its flag, or for what came before. -/
def MarkedFor (x : Taken F I) (older : List (Taken F I)) : Prop :=
  x.marked = (x.listed.discontinuity || x.found || owed older)

/-- Written with data, and its init section where that is another than the one
of the segment written before. -/
def WellWritten [DecidableEq I] (d : Settled F I) (older : List (Settled F I)) : Prop :=
  ∀ head data, d.fate = .written head data → data ≠ [] ∧
    head.isSome = (d.taken.listed.init != lastInit older && d.taken.listed.init.isSome)

/-- Where a segment the write of which failed is marked. -/
def tornBreak (k : Track F I) : List Nat :=
  match k.torn with
  | some (x, _) => if x.marked && 0 < k.bytes then [k.bytes] else []
  | none => []

/-- A track's books, of which `waiting` is in the batch. -/
structure Sound [DecidableEq I] (k : Track F I) (waiting : List (Taken F I)) : Prop where
  took : k.took = waiting.reverse ++ ((k.torn.map (·.1)).toList ++ k.done.map (·.taken))
  last : k.last = if k.restarted then none else k.took.head?.map (·.listed.sequence)
  broken : k.broken = (k.restarted || owed k.took)
  marked : AtEach MarkedFor k.took
  follows : AtEach Follows k.took
  written : AtEach WellWritten k.done
  bytes : k.bytes = (fileOf k.done).length
  file : k.file = fileOf k.done ++ (k.torn.map (·.2)).getD []
  init : k.torn = none → k.init = lastInit k.done
  breaks : k.breaks = breaksOf k.done ++ tornBreak k

/-- Segments of track `t` that wait in the batch. -/
def waiting (t : Nat) (batch : List (Batched F I)) : List (Taken F I) :=
  (batch.filter (·.track == t)).map (·.taken)

theorem waiting_cons (t : Nat) (b : Batched F I) (batch : List (Batched F I)) :
    waiting t (b :: batch) = if b.track = t then b.taken :: waiting t batch else waiting t batch := by
  unfold waiting
  by_cases h : b.track = t <;> simp [h]

theorem waiting_snoc (t : Nat) (batch : List (Batched F I)) (b : Batched F I) :
    waiting t (batch ++ [b]) = waiting t batch ++ if b.track = t then [b.taken] else [] := by
  unfold waiting
  by_cases h : b.track = t <;> simp [h]

/-- Every track is sound, and no write has failed while the recording goes on. -/
structure Kept [DecidableEq I] (s : State F I) : Prop where
  sound : ∀ t, Sound (s.tracks t) (waiting t s.batch)
  whole : s.ended = none → ∀ t, (s.tracks t).torn = none

variable [DecidableEq I] {k : Track F I} {x : Taken F I} {rest : List (Taken F I)}

/-! ## What is done to one track -/

theorem sound_empty : Sound ({} : Track F I) [] where
  took := rfl
  last := rfl
  broken := rfl
  marked := atEach_nil
  follows := atEach_nil
  written := atEach_nil
  bytes := rfl
  file := rfl
  init _ := rfl
  breaks := rfl

namespace Sound

theorem giveUp (h : Sound k rest) : Sound { k with gone := 0 } rest where
  took := h.took
  last := h.last
  broken := h.broken
  marked := h.marked
  follows := h.follows
  written := h.written
  bytes := h.bytes
  file := h.file
  init := h.init
  breaks := h.breaks

theorem relist (h : Sound k rest) (newest : Option Nat) : Sound (k.relist newest) rest := by
  unfold Track.relist
  split
  · split
    · exact {
        took := h.took
        last := rfl
        broken := rfl
        marked := h.marked
        follows := h.follows
        written := h.written
        bytes := h.bytes
        file := h.file
        init := h.init
        breaks := h.breaks }
    · exact h
  · exact h

/-- A new segment is above the one taken before it, if no restart came between. -/
theorem follows_new (h : Sound k rest) {clock : Seconds F} {start : F} {segment : HlsSegment F I} {date : F}
    (hnew : k.isNew clock start segment date = true) : Follows (k.taking clock segment date) k.took := by
  unfold Follows
  cases hre : k.restarted with
  | true => exact Or.inl hre
  | false =>
    refine Or.inr ?_
    intro y hy
    have hlast : k.last = some y.listed.sequence := by
      rw [h.last, hre, Option.mem_def.mp hy]
      rfl
    unfold Track.isNew at hnew
    rw [hlast] at hnew
    exact of_decide_eq_true hnew

theorem take (h : Sound k rest) {clock : Seconds F} {start : F} {segment : HlsSegment F I} {date : F}
    (hnew : k.isNew clock start segment date = true) :
    Sound (k.take clock segment date) (rest ++ [k.taking clock segment date]) where
  took := by
    show k.taking clock segment date :: k.took = _
    rw [h.took]
    simp only [List.reverse_append, List.reverse_cons, List.reverse_nil, List.nil_append, List.cons_append]
    rfl
  last := rfl
  broken := by
    show (segment.discontinuity && (k.broken || k.followsGap clock segment date)) =
      (false || (segment.discontinuity && ((k.restarted || k.followsGap clock segment date) || owed k.took)))
    rw [h.broken, Bool.false_or]
    congr 1
    cases k.restarted <;> cases owed k.took <;> simp
  marked := by
    refine atEach_cons.mpr ⟨?_, h.marked⟩
    show (segment.discontinuity || k.broken || k.followsGap clock segment date) =
      (segment.discontinuity || (k.restarted || k.followsGap clock segment date) || owed k.took)
    rw [h.broken]
    cases segment.discontinuity <;> cases k.restarted <;> cases owed k.took <;> simp
  follows := atEach_cons.mpr ⟨h.follows_new hnew, h.follows⟩
  written := h.written
  bytes := h.bytes
  file := h.file
  init := h.init
  breaks := h.breaks

/-! The head of the batch is settled, no write having failed before. -/

theorem lose (h : Sound k (x :: rest)) (hwhole : k.torn = none) : Sound (k.lose x) rest where
  took := by
    show k.took = _
    rw [h.took]
    simp [Track.lose, hwhole]
  last := h.last
  broken := h.broken
  marked := h.marked
  follows := h.follows
  written := by
    refine atEach_cons.mpr ⟨?_, h.written⟩
    intro head data hfate
    cases hfate
  bytes := by
    show k.bytes = (fileOf k.done ++ []).length
    rw [List.append_nil, h.bytes]
  file := by
    show k.file = fileOf k.done ++ [] ++ _
    rw [List.append_nil, h.file]
    rfl
  init := h.init
  breaks := h.breaks

theorem breaksWith_eq (h : Sound k (x :: rest)) (hwhole : k.torn = none) :
    k.breaksWith x.segment = breaksOf k.done ++ if x.marked && 0 < k.bytes then [k.bytes] else [] := by
  have hbreaks : k.breaks = breaksOf k.done := by
    rw [h.breaks, tornBreak, hwhole, List.append_nil]
  unfold Track.breaksWith
  rw [hbreaks]
  show (if x.marked && decide (0 < k.bytes) then _ else _) = _
  split
  · rfl
  · rw [List.append_nil]

theorem write (h : Sound k (x :: rest)) (hwhole : k.torn = none) {head : Option Bytes} {data : Bytes}
    (hdata : data ≠ []) (hhead : head.isSome = k.wantsInit x.segment) : Sound (k.write x head data) rest where
  took := by
    show k.took = _
    rw [h.took]
    simp [Track.write, hwhole]
  last := h.last
  broken := h.broken
  marked := h.marked
  follows := h.follows
  written := by
    refine atEach_cons.mpr ⟨?_, h.written⟩
    intro head' data' hfate
    cases hfate
    refine ⟨hdata, ?_⟩
    rw [hhead, Track.wantsInit, h.init hwhole]
    rfl
  bytes := by
    show k.bytes + (Track.joined head data).length = (fileOf k.done ++ Track.joined head data).length
    rw [List.length_append, h.bytes]
  file := by
    show k.file ++ Track.joined head data = fileOf k.done ++ Track.joined head data ++ (k.torn.map (·.2)).getD []
    rw [h.file, hwhole]
    simp
  init _ := rfl
  breaks := by
    have htorn : tornBreak (k.write x head data) = [] := by
      show (match k.torn with | some (y, _) => _ | none => _) = _
      rw [hwhole]
    show k.breaksWith x.segment = _
    rw [h.breaksWith_eq hwhole, htorn, List.append_nil, h.bytes]
    rfl

theorem tear (h : Sound k (x :: rest)) (hwhole : k.torn = none) (part : Bytes) : Sound (k.tear x part) rest where
  took := by
    show k.took = _
    rw [h.took, hwhole]
    simp [Track.tear]
  last := h.last
  broken := h.broken
  marked := h.marked
  follows := h.follows
  written := h.written
  bytes := h.bytes
  file := by
    show k.file ++ part = fileOf k.done ++ part
    rw [h.file, hwhole]
    simp
  init hnone := by cases hnone
  breaks := h.breaksWith_eq hwhole

end Sound

/-! ## What a round takes -/

omit [DecidableEq I] in
theorem relist_torn (k : Track F I) (newest : Option Nat) : (k.relist newest).torn = k.torn := by
  unfold Track.relist
  split
  · split <;> rfl
  · rfl

/-- A track whose listing is read stays sound, and the others' segments wait as before. -/
theorem sound_offers (o : Setup F) (start : F) (t : Nat) (newest : Option Nat) (entries : List (HlsSegment F I × F))
    (r : Reading F I) (h : Sound r.track (waiting t r.batch)) :
    let r' := entries.foldl (Reading.offer o start t newest) r
    Sound r'.track (waiting t r'.batch) ∧ r'.track.torn = r.track.torn ∧
      ∀ t', t' ≠ t → waiting t' r'.batch = waiting t' r.batch := by
  induction entries generalizing r with
  | nil => exact ⟨h, rfl, fun _ _ => rfl⟩
  | cons entry entries ih =>
    simp only [List.foldl_cons]
    by_cases htaken : (r.track.isNew o.clock start entry.1 entry.2 && r.bounds.isWithin o t entry.2) = true
    · have hoffer : Reading.offer o start t newest r entry = r.take o t newest entry := if_pos htaken
      rw [Bool.and_eq_true] at htaken
      have htake : Sound (r.take o t newest entry).track (waiting t (r.take o t newest entry).batch) := by
        rw [Reading.take, waiting_snoc, if_pos rfl]
        exact h.take htaken.1
      rw [hoffer]
      obtain ⟨hsound, htorn, hothers⟩ := ih _ htake
      refine ⟨hsound, htorn, ?_⟩
      intro t' hne
      rw [hothers t' hne, Reading.take, waiting_snoc, if_neg (Ne.symm hne), List.append_nil]
    · have hoffer : Reading.offer o start t newest r entry = r := if_neg htaken
      rw [hoffer]
      exact ih r h

theorem kept_readTrack (o : Setup F) (start : F) (t : Nat) (listing : Listing F I) {s : State F I} (h : Kept s) :
    Kept (s.readTrack o start t listing) := by
  obtain ⟨hsound, htorn, hothers⟩ := sound_offers o start t listing.newest listing.segments
    ⟨s.bounds, (s.tracks t).relist listing.newest, s.batch⟩ ((h.sound t).relist _)
  constructor
  · intro t'
    by_cases ht : t' = t
    · subst ht
      simpa [State.readTrack] using hsound
    · simp only [State.readTrack, Function.update_of_ne ht]
      rw [hothers t' ht]
      exact h.sound t'
  · intro hended t'
    by_cases ht : t' = t
    · subst ht
      simp only [State.readTrack, Function.update_self]
      rw [htorn, relist_torn]
      exact h.whole hended t'
    · simp only [State.readTrack, Function.update_of_ne ht]
      exact h.whole hended t'

theorem kept_readTracks (o : Setup F) (start : F) (listings : List (Listing F I)) (t : Nat) {s : State F I}
    (h : Kept s) : Kept (State.readTracks o start t listings s) := by
  induction listings generalizing t s with
  | nil => exact h
  | cons listing rest ih =>
    apply ih
    exact kept_readTrack o start t listing h

theorem Kept.frame {s s' : State F I} (h : Kept s) (htracks : s'.tracks = s.tracks) (hbatch : s'.batch = s.batch)
    (hended : s'.ended = none → s.ended = none) : Kept s' := by
  constructor
  · intro t
    rw [htracks, hbatch]
    exact h.sound t
  · intro hnone
    rw [htracks]
    exact h.whole (hended hnone)

theorem kept_round (o : Setup F) (raw : List (Listing F I)) {s : State F I} (h : Kept s) : Kept (s.round o raw) := by
  unfold State.round
  dsimp only
  split
  · exact h.frame rfl rfl (fun hnone => by cases hnone)
  · exact h.frame rfl rfl id
  · rename_i start _
    have hstart : Kept { s with from_ := some start } := h.frame rfl rfl id
    exact (kept_readTracks o start (raw.map (Listing.withoutAds o.isAd)) 0 hstart).frame rfl rfl id

/-! ## What an answer does -/

/-- The head of the batch leaves it, with its track as `k` has it. -/
theorem kept_settle {s : State F I} (h : Kept s) {b : Batched F I} {batch : List (Batched F I)}
    (hbatch : s.batch = b :: batch) {k : Track F I} (hk : Sound k (waiting b.track batch))
    (ended : Option LiveEnd) (hwhole : ended = none → s.ended = none ∧ k.torn = none) :
    Kept { s.settle b.track k with ended } := by
  constructor
  · intro t
    show Sound (Function.update s.tracks b.track k t) (waiting t s.batch.tail)
    rw [hbatch, List.tail_cons]
    by_cases ht : t = b.track
    · subst ht
      rw [Function.update_self]
      exact hk
    · have hsound := h.sound t
      rw [hbatch, waiting_cons, if_neg (Ne.symm ht)] at hsound
      rw [Function.update_of_ne ht]
      exact hsound
  · intro hnone t
    show (Function.update s.tracks b.track k t).torn = none
    by_cases ht : t = b.track
    · subst ht
      rw [Function.update_self]
      exact (hwhole hnone).2
    · rw [Function.update_of_ne ht]
      exact h.whole (hwhole hnone).1 t

/-- The head of the batch is the first of its track to wait. -/
theorem sound_head {s : State F I} (h : Kept s) {b : Batched F I} {batch : List (Batched F I)}
    (hbatch : s.batch = b :: batch) : Sound (s.tracks b.track) (b.taken :: waiting b.track batch) := by
  have hsound := h.sound b.track
  rw [hbatch, waiting_cons, if_pos rfl] at hsound
  exact hsound

theorem kept_lose {s : State F I} (h : Kept s) (hended : s.ended = none) {b : Batched F I}
    {batch : List (Batched F I)} (hbatch : s.batch = b :: batch) : Kept (s.lose b) := by
  have hlose := (sound_head h hbatch).lose (h.whole hended b.track)
  unfold State.lose
  dsimp only
  split
  · exact kept_settle h hbatch hlose _ (fun hnone => by cases hnone)
  · exact kept_settle h hbatch hlose s.ended (fun _ => ⟨hended, h.whole hended b.track⟩)

/-- An init section comes with the segment just where it is wanted. -/
theorem headFor_isSome {k : Track F I} {segment : HlsSegment F I} {init : Except Text Bytes} {head : Option Bytes}
    (h : State.headFor k segment init = .ok head) : head.isSome = k.wantsInit segment := by
  unfold State.headFor at h
  split at h
  · rename_i hwants
    cases init with
    | error why => cases h
    | ok section_ =>
      cases h
      exact hwants.symm
  · rename_i hwants
    cases h
    simpa using hwants

theorem kept_append (o : Setup F) {s : State F I} (h : Kept s) (hended : s.ended = none) {b : Batched F I}
    {batch : List (Batched F I)} (hbatch : s.batch = b :: batch) {head : Option Bytes} {data : Bytes}
    (hdata : data ≠ []) (hhead : head.isSome = (s.tracks b.track).wantsInit b.taken.segment)
    (disk : Option (Nat × Text)) : Kept (s.append o b head data disk) := by
  have hwhole := h.whole hended b.track
  have hsound := sound_head h hbatch
  cases disk with
  | some failure =>
    exact kept_settle h hbatch (hsound.tear hwhole _) _ (fun hnone => by cases hnone)
  | none =>
    have hwrite := hsound.write hwhole hdata hhead
    unfold State.append
    dsimp only
    split
    · exact kept_settle h hbatch hwrite _ (fun hnone => by cases hnone)
    · exact kept_settle h hbatch hwrite s.ended (fun _ => ⟨hended, hwhole⟩)

/-- The recording ends with its batch as it is. -/
theorem kept_giveUp {s : State F I} (h : Kept s) (t : Nat) (why : LiveEnd) :
    Kept { s.setTrack t { s.tracks t with gone := 0 } with ended := some why } := by
  constructor
  · intro t'
    show Sound (Function.update s.tracks t _ t') (waiting t' s.batch)
    by_cases ht : t' = t
    · subst ht
      rw [Function.update_self]
      exact (h.sound t').giveUp
    · rw [Function.update_of_ne ht]
      exact h.sound t'
  · intro hnone
    cases hnone

theorem kept_answer (o : Setup F) {s : State F I} (h : Kept s) (hended : s.ended = none) {b : Batched F I}
    {batch : List (Batched F I)} (hbatch : s.batch = b :: batch) (reply : State.Reply) :
    Kept (s.answer o b reply) := by
  cases reply with
  | expired => exact kept_lose h hended hbatch
  | failed why => exact h.frame rfl rfl (fun hnone => by cases hnone)
  | body data init disk =>
    cases data with
    | nil => exact kept_lose h hended hbatch
    | cons byte data =>
      unfold State.answer
      dsimp only
      split
      · exact kept_giveUp h b.track _
      · rename_i head hhead
        exact kept_append o h hended hbatch (List.cons_ne_nil _ _) (headFor_isSome hhead) disk

/-! ## Runs -/

theorem kept_step (o : Setup F) {s s' : State F I} (h : Kept s) {event : State.Event F I}
    (hstep : s.step o event = some s') : Kept s' := by
  cases event with
  | listings raw =>
    unfold State.step at hstep
    dsimp only at hstep
    split at hstep
    · cases hstep
    · split at hstep
      · cases hstep
        exact h.frame rfl rfl (fun hnone => by cases hnone)
      · split at hstep
        · cases hstep
          exact h.frame rfl rfl (fun hnone => by cases hnone)
        · cases hstep
          exact kept_round o raw h
  | answer reply =>
    unfold State.step at hstep
    dsimp only at hstep
    split at hstep
    · cases hstep
    · rename_i b batch hbatch
      split at hstep
      · cases hstep
      · rename_i hended
        cases hstep
        exact kept_answer o h (by simpa using hended) hbatch reply
  | stop why =>
    unfold State.step at hstep
    dsimp only at hstep
    split at hstep
    · cases hstep
    · cases hstep
      exact h.frame rfl rfl (fun hnone => by cases hnone)

theorem kept_fresh (o : Setup F) : Kept (fresh o : State F I) where
  sound _ := sound_empty
  whole _ _ := rfl

/-- Every recording keeps its books. -/
theorem kept (o : Setup F) {s : State F I} (h : (recordings o).toTSys.Reachable s) : Kept s := by
  induction h with
  | init hinit =>
    rcases hinit with rfl | ⟨file, _, e, rfl⟩
    · exact kept_fresh o
    · exact (kept_fresh o).frame rfl rfl (fun hnone => by cases hnone)
  | step _ hstep ih =>
    obtain ⟨event, hstep⟩ := hstep
    exact kept_step o ih hstep

end Hyperfetch.Live
