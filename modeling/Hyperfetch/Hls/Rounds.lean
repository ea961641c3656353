import Hyperfetch.Hls.Breaks

/-!
# What each round of a live recording takes

Of listings whose numbers rise, a round takes what is above the last number
taken and within the bounds (`TakesDue`); the start counts for the first segment
taken since the recording began or the numbers went back. So between two
restarts numbers rise, and the file is the data of the segments taken that were
not gone (`TakenInOrder`).
-/

namespace Hyperfetch.Live

open Weft

variable {F I : Type}

/-! ## What is to be taken -/

/-- The listing's numbers rise. -/
def Rising (entries : List (HlsSegment F I × F)) : Prop := (entries.map (·.1.sequence)).Pairwise (· < ·)

/-- It ends after the start. -/
def endsAfter (o : Setup F) (start : F) (entry : HlsSegment F I × F) : Bool :=
  o.clock.lt (o.clock.add start o.clock.milli) (o.clock.add entry.2 entry.1.durationSecs)

/-- What the bounds let track `t` take of `entries`. -/
def keepWithin (o : Setup F) (t : Nat) : Bounds F → List (HlsSegment F I × F) → List (HlsSegment F I × F)
  | _, [] => []
  | b, entry :: rest =>
    if b.isWithin o t entry.2 then entry :: keepWithin o t (b.count o t entry.1 entry.2) rest
    else keepWithin o t b rest

/-- What is new to a track that took `last`; to one that took none, all from the
first one that it takes. -/
def due (o : Setup F) (start : F) (t : Nat) (b : Bounds F) (last : Option Nat)
    (entries : List (HlsSegment F I × F)) : List (HlsSegment F I × F) :=
  match last with
  | some last => entries.filter (last < ·.1.sequence)
  | none => entries.dropWhile fun entry => !(endsAfter o start entry && b.isWithin o t entry.2)

/-- The listing's newest number is below the last one taken: a restart. -/
def Track.goesBack (k : Track F I) (newest : Option Nat) : Bool :=
  match newest, k.last with
  | some newest, some before => newest < before
  | _, _ => false

/-- A round in which the track `t` goes from `k` to `k'` took just what was due
of the listing; what it took first follows a restart if there was one. -/
def TakesDue (o : Setup F) (start : F) (t : Nat) (b : Bounds F) (listing : Listing F I) (k k' : Track F I) : Prop :=
  ∃ new : List (Taken F I), k'.took = new.reverse ++ k.took ∧
    new.map (fun x => (x.listed, x.date)) =
      keepWithin o t b (due o start t b (if k.goesBack listing.newest then none else k.last) listing.segments) ∧
    ∀ i x, new[i]? = some x → x.restarted = (i == 0 && (k.restarted || k.goesBack listing.newest))

/-- The track's numbers rise from restart to restart; what it took waits, or was
settled in that order; its file is the data of what was written, each with its
init section where that changes, and what a write that failed wrote of it. -/
structure TakenInOrder [DecidableEq I] (k : Track F I) (waiting : List (Taken F I)) : Prop where
  rising : ∀ run first older, run ++ first :: older <:+ k.took → (∀ x ∈ run, ¬ x.restarted = true) →
    ((run ++ [first]).map (·.listed.sequence)).Pairwise (· > ·)
  last : k.last = if k.restarted then none else k.took.head?.map (·.listed.sequence)
  settled : k.took = waiting.reverse ++ ((k.torn.map (·.1)).toList ++ k.done.map (·.taken))
  file : k.file = fileOf k.done ++ (k.torn.map (·.2)).getD []
  written : AtEach WellWritten k.done

/-! ## One listing -/

section Offers

variable {o : Setup F} {start : F} {t : Nat} {newest : Option Nat} {r : Reading F I}
  {entry : HlsSegment F I × F} {entries : List (HlsSegment F I × F)}

theorem rising_cons : Rising (entry :: entries) ↔
    (∀ e ∈ entries, entry.1.sequence < e.1.sequence) ∧ Rising entries := by
  unfold Rising
  rw [List.map_cons, List.pairwise_cons, List.forall_mem_map]

/-- Once a segment is taken, all listed after it are new. -/
theorem due_taken (b : Bounds F) (h : ∀ e ∈ entries, entry.1.sequence < e.1.sequence) :
    due o start t b (some entry.1.sequence) entries = entries := by
  unfold due
  apply List.filter_eq_self.mpr
  intro e he
  exact decide_eq_true (h e he)

/-- A segment that is taken is the next one due. -/
theorem due_cons_of_taken (hrising : Rising (entry :: entries))
    (hnew : r.track.isNew o.clock start entry.1 entry.2 = true) (hwithin : r.bounds.isWithin o t entry.2 = true) :
    due o start t r.bounds r.track.last (entry :: entries) = entry :: entries := by
  have habove := (rising_cons.mp hrising).1
  unfold Track.isNew at hnew
  cases hlast : r.track.last with
  | none =>
    rw [hlast] at hnew
    have hends : endsAfter o start entry = true := hnew
    simp [due, hends, hwithin]
  | some last =>
    rw [hlast] at hnew
    have hlt : last < entry.1.sequence := of_decide_eq_true hnew
    unfold due
    apply List.filter_eq_self.mpr
    intro e he
    rcases List.mem_cons.mp he with rfl | he
    · exact decide_eq_true hlt
    · exact decide_eq_true (hlt.trans (habove e he))

/-- A segment that is not taken is not due, or not within the bounds. -/
theorem keepWithin_due_cons_of_left
    (hleft : ¬ (r.track.isNew o.clock start entry.1 entry.2 && r.bounds.isWithin o t entry.2) = true) :
    keepWithin o t r.bounds (due o start t r.bounds r.track.last (entry :: entries)) =
      keepWithin o t r.bounds (due o start t r.bounds r.track.last entries) := by
  unfold Track.isNew at hleft
  cases hlast : r.track.last with
  | none =>
    rw [hlast] at hleft
    have hnot : (endsAfter o start entry && r.bounds.isWithin o t entry.2) = false := Bool.eq_false_iff.mpr hleft
    have hdrop : (!(endsAfter o start entry && r.bounds.isWithin o t entry.2)) = true := by
      rw [hnot]
      rfl
    unfold due
    dsimp only
    rw [List.dropWhile_cons_of_pos (p := fun e => !(endsAfter o start e && r.bounds.isWithin o t e.2)) hdrop]
  | some last =>
    rw [hlast] at hleft
    unfold due
    by_cases hlt : last < entry.1.sequence
    · have hout : ¬ r.bounds.isWithin o t entry.2 = true := by
        intro hwithin
        apply hleft
        rw [hwithin, Bool.and_true]
        exact decide_eq_true hlt
      simp only [List.filter_cons, hlt, decide_true, if_true]
      rw [keepWithin, if_neg hout]
    · simp only [List.filter_cons, hlt, decide_false, Bool.false_eq_true, if_false]

/-- What is offered of a rising listing is taken just where it is due. -/
theorem offers_due (o : Setup F) (start : F) (t : Nat) (newest : Option Nat) (hrising : Rising entries)
    (r : Reading F I) :
    ∃ new : List (Taken F I), (entries.foldl (Reading.offer o start t newest) r).track.took = new.reverse ++ r.track.took ∧
      new.map (fun x => (x.listed, x.date)) = keepWithin o t r.bounds (due o start t r.bounds r.track.last entries) ∧
      ∀ i x, new[i]? = some x → x.restarted = (i == 0 && r.track.restarted) := by
  induction entries generalizing r with
  | nil =>
    refine ⟨[], rfl, ?_, ?_⟩
    · cases hlast : r.track.last <;> simp [due, keepWithin]
    · intro i x hx
      simp at hx
  | cons entry entries ih =>
    obtain ⟨habove, hrest⟩ := rising_cons.mp hrising
    rw [List.foldl_cons]
    by_cases htaken : (r.track.isNew o.clock start entry.1 entry.2 && r.bounds.isWithin o t entry.2) = true
    · have hoffer : Reading.offer o start t newest r entry = r.take o t newest entry := if_pos htaken
      rw [Bool.and_eq_true] at htaken
      obtain ⟨new, htook, hnew, hre⟩ := ih hrest (r.take o t newest entry)
      refine ⟨r.track.taking o.clock entry.1 entry.2 :: new, ?_, ?_, ?_⟩
      · rw [hoffer, htook, List.reverse_cons, List.append_assoc]
        rfl
      · have hdue : due o start t (r.take o t newest entry).bounds (r.take o t newest entry).track.last entries = entries :=
          due_taken _ habove
        rw [due_cons_of_taken hrising htaken.1 htaken.2, keepWithin, if_pos htaken.2, List.map_cons, hnew, hdue]
        rfl
      · -- a restart comes before the first that is taken
        intro i x hx
        cases i with
        | zero =>
          rw [List.getElem?_cons_zero, Option.some.injEq] at hx
          rw [← hx]
          rfl
        | succ i =>
          rw [List.getElem?_cons_succ] at hx
          rw [hre i x hx]
          exact Bool.and_false _
    · have hoffer : Reading.offer o start t newest r entry = r := if_neg htaken
      obtain ⟨new, htook, hnew, hre⟩ := ih hrest r
      rw [hoffer, keepWithin_due_cons_of_left htaken]
      exact ⟨new, htook, hnew, hre⟩

/-- Only the first track's segments count. -/
theorem offers_bounds (ht : t ≠ 0) (entries : List (HlsSegment F I × F)) (r : Reading F I) :
    (entries.foldl (Reading.offer o start t newest) r).bounds = r.bounds := by
  induction entries generalizing r with
  | nil => rfl
  | cons entry entries ih =>
    rw [List.foldl_cons, ih]
    unfold Reading.offer
    split
    · unfold Reading.take Bounds.count
      cases t with
      | zero => exact absurd rfl ht
      | succ t => rfl
    · rfl

end Offers

theorem relist_eq (k : Track F I) (newest : Option Nat) :
    (k.relist newest).took = k.took ∧ (k.relist newest).last = (if k.goesBack newest then none else k.last) ∧
      (k.relist newest).restarted = (k.restarted || k.goesBack newest) := by
  unfold Track.relist Track.goesBack
  cases newest with
  | none => simp
  | some n =>
    cases hlast : k.last with
    | none => simp [hlast]
    | some before =>
      by_cases hback : n < before
      · simp [hback]
      · simp [hback, hlast]

/-! ## A round -/

theorem readTrack_takesDue (o : Setup F) (start : F) (t : Nat) {listing : Listing F I} (h : Rising listing.segments)
    (s : State F I) :
    TakesDue o start t s.bounds listing (s.tracks t) ((s.readTrack o start t listing).tracks t) := by
  obtain ⟨htook, hlast, hre⟩ := relist_eq (s.tracks t) listing.newest
  obtain ⟨new, hnewTook, hnew, hnewRe⟩ := offers_due o start t listing.newest h
    ⟨s.bounds, (s.tracks t).relist listing.newest, s.batch⟩
  dsimp only at hnewTook hnew hnewRe
  rw [htook] at hnewTook
  rw [hlast] at hnew
  rw [hre] at hnewRe
  refine ⟨new, ?_, hnew, hnewRe⟩
  rw [← hnewTook]
  simp [State.readTrack]

theorem readTracks_takesDue (o : Setup F) (start : F) {listings : List (Listing F I)}
    (h : ∀ listing ∈ listings, Rising listing.segments) (t : Nat) (s : State F I) :
    let s' := State.readTracks o start t listings s
    (∀ u < t, s'.tracks u = s.tracks u) ∧ (t ≠ 0 → s'.bounds = s.bounds) ∧ s'.from_ = s.from_ ∧
      ∀ i listing, listings[i]? = some listing →
        TakesDue o start (t + i) (if t + i = 0 then s.bounds else s'.bounds) listing (s.tracks (t + i)) (s'.tracks (t + i)) := by
  induction listings generalizing t s with
  | nil => exact ⟨fun _ _ => rfl, fun _ => rfl, rfl, fun i listing hi => by simp at hi⟩
  | cons listing rest ih =>
    obtain ⟨hbefore, hbounds, hfrom, htakes⟩ :=
      ih (fun l hl => h l (List.mem_cons_of_mem _ hl)) (t + 1) (s.readTrack o start t listing)
    have hothers : ∀ u, u ≠ t → (s.readTrack o start t listing).tracks u = s.tracks u := by
      intro u hu
      simp [State.readTrack, Function.update_of_ne hu]
    have hread : t ≠ 0 → (s.readTrack o start t listing).bounds = s.bounds := by
      intro ht
      exact offers_bounds ht listing.segments _
    refine ⟨?_, ?_, hfrom, ?_⟩
    · intro u hu
      rw [State.readTracks, hbefore u (by omega)]
      exact hothers u (by omega)
    · intro ht
      rw [State.readTracks, hbounds (by omega)]
      exact hread ht
    · intro i listing' hi
      cases i with
      | zero =>
        rw [List.getElem?_cons_zero, Option.some.injEq] at hi
        subst hi
        have htaken := readTrack_takesDue o start t (h listing List.mem_cons_self) s
        rw [State.readTracks, Nat.add_zero, hbefore t (by omega)]
        by_cases ht : t = 0
        · rw [if_pos ht]
          exact htaken
        · rw [if_neg ht, hbounds (by omega), hread ht]
          exact htaken
      | succ i =>
        rw [List.getElem?_cons_succ] at hi
        have htaken := htakes i listing' hi
        rw [hothers (t + 1 + i) (by omega), if_neg (by omega)] at htaken
        rw [State.readTracks, show t + (i + 1) = t + 1 + i by omega, if_neg (by omega)]
        exact htaken

/-- A listing rises without its ads. -/
theorem rising_keepNoAds (isAd : Text → Bool) (gap : Bool) {entries : List (HlsSegment F I × F)} (h : Rising entries) :
    Rising (keepNoAds isAd gap entries) := by
  have hsublist : ((keepNoAds isAd gap entries).map (·.1.sequence)).Sublist (entries.map (·.1.sequence)) := by
    clear h
    induction entries generalizing gap with
    | nil => exact List.Sublist.refl _
    | cons entry entries ih =>
      unfold keepNoAds
      split
      · rw [List.map_cons]
        exact (ih true).cons _
      · rw [List.map_cons, List.map_cons]
        exact (ih false).cons_cons _
  exact h.sublist hsublist

/-- The start stays once it was found. -/
theorem whereFrom_known (o : Setup F) {s : State F I} {start : F} (h : s.from_ = some start)
    (listings : List (Listing F I)) : s.whereFrom o listings = .ok (some start) := by
  simp [State.whereFrom, h]

theorem round_takesDue (o : Setup F) {raw : List (Listing F I)} (h : ∀ listing ∈ raw, Rising listing.segments)
    (s : State F I) (hended : (s.round o raw).ended = none) :
    ((s.round o raw).from_ = none → (s.round o raw).tracks = s.tracks) ∧
      ∀ start, (s.round o raw).from_ = some start → ∀ t listing, raw[t]? = some listing →
        TakesDue o start t (if t = 0 then s.bounds else (s.round o raw).bounds) (listing.withoutAds o.isAd)
          (s.tracks t) ((s.round o raw).tracks t) := by
  have hlistings : ∀ listing ∈ raw.map (Listing.withoutAds o.isAd), Rising listing.segments := by
    intro listing hlisting
    obtain ⟨l, hl, rfl⟩ := List.mem_map.mp hlisting
    exact rising_keepNoAds o.isAd false (h l hl)
  unfold State.round at hended ⊢
  dsimp only at hended ⊢
  split at hended
  · cases hended
  · rename_i hnone
    refine ⟨fun _ => rfl, ?_⟩
    intro start hstart
    rw [whereFrom_known (s := s) o hstart] at hnone
    cases hnone
  · rename_i from_ _
    obtain ⟨_, _, hfrom, htakes⟩ := readTracks_takesDue o from_ hlistings 0 { s with from_ := some from_ }
    constructor
    · intro hnone
      rw [hfrom] at hnone
      cases hnone
    · intro start hstart t listing ht
      rw [hfrom, Option.some.injEq] at hstart
      subst hstart
      have htaken := htakes t (listing.withoutAds o.isAd) (by rw [List.getElem?_map, ht]; rfl)
      rw [Nat.zero_add] at htaken
      exact htaken

/-- Only the next listings take segments. -/
theorem answer_took [DecidableEq I] (o : Setup F) (s : State F I) (b : Batched F I) (reply : State.Reply) (t : Nat) :
    ((s.answer o b reply).tracks t).took = (s.tracks t).took := by
  have hsettle : ∀ k : Track F I, k.took = (s.tracks b.track).took →
      (Function.update s.tracks b.track k t).took = (s.tracks t).took := by
    intro k hk
    by_cases ht : t = b.track
    · subst ht
      rw [Function.update_self, hk]
    · rw [Function.update_of_ne ht]
  have hlose : ((s.lose b).tracks t).took = (s.tracks t).took := by
    unfold State.lose
    dsimp only
    split
    · exact hsettle _ rfl
    · exact hsettle _ rfl
  cases reply with
  | expired => exact hlose
  | failed why => rfl
  | body data init disk =>
    cases data with
    | nil => exact hlose
    | cons byte data =>
      unfold State.answer
      dsimp only
      split
      · exact hsettle _ rfl
      · unfold State.append
        split
        · exact hsettle _ rfl
        · dsimp only
          split
          · exact hsettle _ rfl
          · exact hsettle _ rfl

theorem Sound.takenInOrder [DecidableEq I] {k : Track F I} {rest : List (Taken F I)} (h : Sound k rest) :
    TakenInOrder k rest where
  rising _ _ _ hrun hstop := h.follows.falls hrun hstop
  last := h.last
  settled := h.took
  file := h.file
  written := h.written

/-- A recording takes each segment once and in order: rounds take what is due of
rising listings, answers settle it in that order. -/
theorem takes_once_in_order [DecidableEq I] (o : Setup F) {s : State F I}
    (h : (recordings o).toTSys.Reachable s) :
    (∀ t, TakenInOrder (s.tracks t) (waiting t s.batch)) ∧
      (∀ reply s', s.step o (.answer reply) = some s' → ∀ t, (s'.tracks t).took = (s.tracks t).took) ∧
      ∀ raw s', s.step o (.listings raw) = some s' → s'.ended = none →
        (∀ listing ∈ raw, Rising listing.segments) →
        (s'.from_ = none → s'.tracks = s.tracks) ∧
        ∀ start, s'.from_ = some start → ∀ t listing, raw[t]? = some listing →
          TakesDue o start t (if t = 0 then s.bounds else s'.bounds) (listing.withoutAds o.isAd)
            (s.tracks t) (s'.tracks t) := by
  refine ⟨?_, ?_, ?_⟩
  · intro t
    exact ((kept o h).sound t).takenInOrder
  · intro reply s' hstep t
    unfold State.step at hstep
    dsimp only at hstep
    split at hstep
    · cases hstep
    · split at hstep
      · cases hstep
      · cases hstep
        exact answer_took o s _ reply t
  · intro raw s' hstep hended hrising
    unfold State.step at hstep
    dsimp only at hstep
    split at hstep
    · cases hstep
    · split at hstep
      · cases hstep
        cases hended
      · split at hstep
        · cases hstep
          cases hended
        · cases hstep
          exact round_takesDue o hrising s hended

/-- Two segments are listed, then the second of them and a third. -/
def slidingWindow : List (State.Event Int Unit) :=
  [.listings [{ segments := [second 1 false, second 2 false], ended := false }], .answer (.body [1] (.ok []) none),
    .answer (.body [2] (.ok []) none)]

/-- The second round takes the third segment. -/
theorem takes_once_in_order_sliding :
    ∃ s s', (recordings fromOldest).run (fresh fromOldest) slidingWindow = some s ∧
      s.step fromOldest (.listings [{ segments := [second 2 false, second 3 false], ended := false }]) = some s' ∧
      (s.tracks 0).file = [1, 2] ∧ (s'.tracks 0).took.map (·.listed.sequence) = [3, 2, 1] ∧
      TakenInOrder (s.tracks 0) (waiting 0 s.batch) ∧
      TakesDue fromOldest thousandths.negInfinity 0 s.bounds
        { segments := [second 2 false, second 3 false], ended := false } (s.tracks 0) (s'.tracks 0) := by
  obtain ⟨s, hrun, hfile, s', hstep, htook, hended, hfrom⟩ :
      ∃ s, (recordings fromOldest).run (fresh fromOldest) slidingWindow = some s ∧ (s.tracks 0).file = [1, 2] ∧
        ∃ s', s.step fromOldest (.listings [{ segments := [second 2 false, second 3 false], ended := false }]) = some s' ∧
          (s'.tracks 0).took.map (·.listed.sequence) = [3, 2, 1] ∧ s'.ended = none ∧
          s'.from_ = some thousandths.negInfinity :=
    ⟨_, rfl, rfl, _, rfl, rfl, rfl, rfl⟩
  obtain ⟨hinOrder, _, hrounds⟩ :=
    takes_once_in_order fromOldest (Machine.reachable_run (.init (Or.inl rfl)) hrun)
  have hrising : ∀ listing ∈ [({ segments := [second 2 false, second 3 false], ended := false } : Listing Int Unit)],
      Rising listing.segments := by
    intro listing hlisting
    rw [List.mem_singleton] at hlisting
    subst hlisting
    simp [Rising, second]
  obtain ⟨_, htakes⟩ := hrounds _ s' hstep hended hrising
  exact ⟨s, s', hrun, hstep, hfile, htook, hinOrder 0, htakes _ hfrom 0 _ rfl⟩

/-- Segment `n`, of a second, with an init section. -/
def withInit (n : Nat) (init : Option Nat) : HlsSegment Int Nat × Int :=
  ({ index := n, sequence := n, url := [], durationSecs := 1000, init, discontinuity := false }, n * 1000)

/-- Records a stream from its newest segments on. -/
def fromNow : Setup Int := { fromOldest with start := .now }

/-- A segment that ends before the start is taken for its number; an init section
is written again once a segment without one came between. -/
theorem before_start_taken_init_again :
    (∃ s s' : State Int Unit, (recordings fromNow).toTSys.Reachable s ∧
      s.step fromNow (.listings [{ segments := [((second 2 false).1, -1000)], ended := false }]) = some s' ∧
      s'.from_ = some 1000 ∧ endsAfter fromNow 1000 ((second 2 false).1, -1000) = false ∧
      (s'.tracks 0).took.map (·.listed.sequence) = [2, 1]) ∧
    ∃ s : State Int Nat, (recordings fromOldest).toTSys.Reachable s ∧
      (s.tracks 0).done.map (·.taken.listed.init) = [some 7, none, some 7] ∧ (s.tracks 0).file = [9, 1, 2, 9, 3] := by
  constructor
  · obtain ⟨s, hrun, s', hstep, hfacts⟩ :
        ∃ s : State Int Unit, (recordings fromNow).run (fresh fromNow)
            [.listings [{ segments := [second 1 false], ended := false }], .answer (.body [1] (.ok []) none)] = some s ∧
          ∃ s', s.step fromNow (.listings [{ segments := [((second 2 false).1, -1000)], ended := false }]) = some s' ∧
            s'.from_ = some 1000 ∧ endsAfter fromNow 1000 ((second 2 false).1, -1000) = false ∧
            (s'.tracks 0).took.map (·.listed.sequence) = [2, 1] :=
      ⟨_, rfl, _, rfl, rfl, rfl, rfl⟩
    exact ⟨s, s', Machine.reachable_run (.init (Or.inl rfl)) hrun, hstep, hfacts⟩
  · obtain ⟨s, hrun, hfacts⟩ :
        ∃ s : State Int Nat, (recordings fromOldest).run (fresh fromOldest)
            [.listings [{ segments := [withInit 1 (some 7), withInit 2 none, withInit 3 (some 7)], ended := false }],
              .answer (.body [1] (.ok [9]) none), .answer (.body [2] (.ok [9]) none),
              .answer (.body [3] (.ok [9]) none)] = some s ∧
          (s.tracks 0).done.map (·.taken.listed.init) = [some 7, none, some 7] ∧
          (s.tracks 0).file = [9, 1, 2, 9, 3] :=
      ⟨_, rfl, rfl, rfl⟩
    exact ⟨s, Machine.reachable_run (.init (Or.inl rfl)) hrun, hfacts⟩

end Hyperfetch.Live
