import Hyperfetch.Subs.Mp4

/-!
# Reading an MP4 ends within its budget

Whatever the bytes are, no index, slice or sum faults and no walk runs out of
turns. A sample is read only if its size, and at least 1, is left of the
budget, which starts as the length of the data (`Walk.Sound`); each step keeps
that.
-/

namespace Hyperfetch.Subs

open Weft Weft.Checked

/-! ## The track -/

theorem versioned_lt {head : List UInt8} {n : Nat} (h : versioned head = some n) : n < 2 ^ 32 := by
  obtain ⟨version, _, hn⟩ := Option.bind_eq_some_iff.mp h
  exact (be_lt hn).1

theorem trackOf_safe (trak : Slice) : Finds (trackOf trak.bytes) fun track => 0 < track.2.1 ∧ track.2.1 < 2 ^ 32 := by
  refine (child_safe trak _).bind fun tkhd htkhd => ?_
  refine (finds_ask _).bind fun id hid => ?_
  refine (child_safe trak _).bind fun mdia hmdia => ?_
  refine (child_safe ⟨mdia, hmdia⟩ _).bind fun mdhd hmdhd => ?_
  refine (finds_ask _).bind fun timescale htimescale => ?_
  refine (child_safe ⟨mdia, hmdia⟩ _).bind fun minf hminf => ?_
  refine (child_safe ⟨minf, hminf⟩ _).bind fun stbl hstbl => ?_
  refine (child_safe ⟨stbl, hstbl⟩ _).bind fun stsd hstsd => ?_
  refine (finds_ask _).bind fun entries hentries => ?_
  have hsmall : entries.length < 2 ^ 63 := by
    obtain ⟨_, _, rfl⟩ := getSlice_eq_some.mp hentries
    rw [length_extract (Nat.le_refl _)]
    omega
  refine (finds_lift (boxes_safe ⟨entries, hsmall⟩)).bind fun all _ => ?_
  refine (finds_ask _).bind fun entry _ => ?_
  refine (finds_ask _).bind fun wvtt _ => ?_
  refine (finds_ask _).imp fun track htrack => ?_
  split at htrack
  · rename_i hpos
    cases htrack
    exact ⟨hpos, versioned_lt htimescale⟩
  · cases htrack

theorem firstTrack_safe (moov : Slice) {all : List Box} (h : ∀ box ∈ all, box.Within moov.bytes.length) :
    Meets (firstTrack moov.bytes all) fun found => ∀ track, found = some track → 0 < track.2.1 ∧ track.2.1 < 2 ^ 32 := by
  induction all with
  | nil => exact meets_ok fun track htrack => nomatch htrack
  | cons box more ih =>
    refine (contents_safe moov (h box List.mem_cons_self)).bind fun trak htrak => ?_
    refine Meets.bind (trackOf_safe ⟨trak, htrak⟩) fun found hfound => ?_
    cases found with
    | some track => exact meets_ok hfound
    | none => exact ih fun b hb => h b (List.mem_cons_of_mem box hb)

theorem trexOf_safe (mvex : Slice) (id : Nat) {all : List Box} (h : ∀ box ∈ all, box.Within mvex.bytes.length) :
    Meets (trexOf mvex.bytes id all) fun _ => True := by
  induction all with
  | nil => exact meets_ok trivial
  | cons box more ih =>
    refine (contents_safe mvex (h box List.mem_cons_self)).bind fun trex htrex => ?_
    split
    · exact meets_ok trivial
    · exact ih fun b hb => h b (List.mem_cons_of_mem box hb)

theorem defaultsOf_safe (moov : Slice) (id : Nat) : Meets (defaultsOf moov.bytes id) fun _ => True := by
  refine Meets.bind (child_safe moov "mvex") fun found hfound => ?_
  cases found with
  | none => exact meets_ok trivial
  | some mvex => exact (boxes_safe ⟨mvex, hfound mvex rfl⟩).bind fun all hall => trexOf_safe ⟨mvex, hfound mvex rfl⟩ id hall

/-- A track whose numbers are words of 32 bits, its timescale not 0. -/
structure SubtitleTrack.Sound (track : SubtitleTrack) : Prop where
  timescale : 0 < track.timescale
  timescale_lt : track.timescale < 2 ^ 32
  duration : track.duration < 2 ^ 32

theorem getD_be_lt (data : Option (List UInt8)) (at_ : Nat) : ((data.bind (be · at_ 4)).getD 0) < 2 ^ 32 := by
  cases hvalue : data.bind (be · at_ 4) with
  | none => decide
  | some n =>
    obtain ⟨bytes, _, hn⟩ := Option.bind_eq_some_iff.mp hvalue
    exact (be_lt hn).1

theorem read_safe (data : Slice) : Finds (SubtitleTrack.read data.bytes) SubtitleTrack.Sound := by
  refine (child_safe data _).bind fun moov hmoov => ?_
  refine (finds_lift (boxes_safe ⟨moov, hmoov⟩)).bind fun all hall => ?_
  have htraks : ∀ box ∈ all.filter (·.kind = kindOf "trak"), box.Within moov.length := fun box hbox =>
    hall box (List.mem_of_mem_filter hbox)
  refine Finds.bind (firstTrack_safe ⟨moov, hmoov⟩ htraks) fun track htrack => ?_
  refine (finds_lift (defaultsOf_safe ⟨moov, hmoov⟩ track.1)).bind fun defaults _ => ?_
  exact finds_pure ⟨htrack.1, htrack.2, getD_be_lt defaults 12⟩

/-! ## Times -/

theorem i128_safe {n : Int} (h : -2 ^ 127 ≤ n ∧ n < 2 ^ 127) : Meets (i128 n) (· = n) := by
  rw [i128, if_pos h]
  exact meets_ok rfl

theorem signed_bounds {n : Nat} (h : n < 2 ^ 32) : -2 ^ 31 ≤ signed n ∧ signed n < 2 ^ 31 := by
  unfold signed
  split <;> omega

theorem ticksMs_safe {ticks : Int} (h : -2 ^ 100 ≤ ticks ∧ ticks < 2 ^ 100) {timescale : Nat} (hpos : 0 < timescale)
    (hlt : timescale < 2 ^ 32) : Meets (ticksMs ticks timescale) fun _ => True := by
  refine (i128_safe (by omega)).bind fun scaled hscaled => ?_
  refine (i128_safe (by omega)).bind fun rounded _ => ?_
  rw [if_neg (by omega)]
  exact meets_ok trivial

/-! ## Samples -/

theorem wvttFrom_safe (sample : Slice) (from_ to_ : Int) {all : List Box} (h : ∀ box ∈ all, box.Within sample.bytes.length) :
    Meets (wvttFrom sample.bytes from_ to_ all) fun _ => True := by
  induction all with
  | nil => exact meets_ok trivial
  | cons box more ih =>
    refine (contents_safe sample (h box List.mem_cons_self)).bind fun vttc hvttc => ?_
    refine Meets.bind (child_safe ⟨vttc, hvttc⟩ "payl") fun payl _ => ?_
    exact (ih fun b hb => h b (List.mem_cons_of_mem box hb)).bind fun cues _ => meets_ok trivial

theorem wvttCues_safe (sample : Slice) (from_ to_ : Int) : Meets (wvttCues sample.bytes from_ to_) fun _ => True :=
  (boxes_safe sample).bind fun _ hall => wvttFrom_safe sample from_ to_ fun box hbox => hall box (List.mem_of_mem_filter hbox)

theorem stppCues_safe (ttml : Ttml) (sample : List UInt8) (from_ to_ : Int) :
    Meets (stppCues ttml sample from_ to_) fun _ => True := by
  have hshort : (sample.rdropWhile (· = 0)).length ≤ sample.length := (List.rdropWhile_prefix _ _).length_le
  refine (meets_slice (Nat.zero_le _) hshort).bind fun document _ => ?_
  split
  · exact meets_ok trivial
  · exact meets_ok trivial

/-! ## Fragments -/

/-- What is read is in the data, and paid for. -/
structure Walk.Sound (data : List UInt8) (s : Walk) : Prop where
  time : s.time ≤ wordMax
  nextTime : s.nextTime ≤ wordMax
  inside : ∀ r ∈ s.read, r.1 ≤ r.2 ∧ r.2 ≤ data.length
  spent : (s.read.map fun r => max 1 (r.2 - r.1)).sum + s.budget = data.length

structure Fragment.Sound (fragment : Fragment) : Prop where
  duration : fragment.duration < 2 ^ 32

theorem field_safe (trun : Slice) (flags bit at_ : Nat) :
    Finds (field trun.bytes flags bit at_) fun p => ∀ n, p.1 = some n → n < 2 ^ 32 := by
  have hlen := trun.length_le
  unfold field
  split
  · exact finds_pure fun n hn => nomatch hn
  · refine (finds_ask _).bind fun value hvalue => ?_
    obtain ⟨hlt, hin⟩ := be_lt hvalue
    refine (finds_lift (meets_add (by unfold wordMax; omega))).bind fun next _ => finds_pure ?_
    intro n hn
    cases hn
    exact hlt

theorem optional_safe (tfhd : List UInt8) (on : Bool) {len at_ : Nat} (hlen : len ≤ 8) (hat : at_ ≤ 32) :
    Meets (optional tfhd on len at_) fun p => p.2 ≤ at_ + len ∧ ∀ n, p.1 = some n → n < 256 ^ len := by
  have hnext : at_ + (if on then len else 0) ≤ at_ + len := by
    split <;> omega
  refine (meets_add (by unfold wordMax; omega)).bind fun next hnextEq => meets_ok ⟨hnextEq ▸ hnext, fun n hn => ?_⟩
  dsimp only at hn
  split at hn
  · exact (be_lt hn).1
  · cases hn

theorem fragmentOf_safe {track : SubtitleTrack} (htrack : track.Sound) (tfhd : List UInt8) (flags start : Nat) :
    Meets (fragmentOf track tfhd flags start) Fragment.Sound := by
  refine (optional_safe tfhd _ (by decide) (by decide)).bind fun base hbase => ?_
  refine (optional_safe tfhd _ (by decide) (by omega)).bind fun description hdescription => ?_
  refine (optional_safe tfhd _ (by decide) (by omega)).bind fun duration hduration => ?_
  refine (optional_safe tfhd _ (by decide) (by omega)).bind fun size _ => meets_ok ⟨?_⟩
  cases hvalue : duration.1 with
  | none => exact htrack.duration
  | some n => exact hduration.2 n hvalue

theorem decodeTime_le {tfdt : Option (List UInt8)} {next : Nat} (h : next ≤ wordMax) :
    ((tfdt.bind decodeTime).getD next) ≤ wordMax := by
  cases hvalue : tfdt.bind decodeTime with
  | none => exact h
  | some n =>
    obtain ⟨bytes, _, hn⟩ := Option.bind_eq_some_iff.mp hvalue
    unfold decodeTime at hn
    show n ≤ wordMax
    unfold wordMax
    split at hn
    · have hlt := (be_lt hn).1
      omega
    · have hlt := (be_lt hn).1
      omega

theorem Walk.Sound.withOffset {data : List UInt8} {s : Walk} (hs : s.Sound data) (fragment : Fragment)
    (dataOffset : Option (Option Nat × Nat)) : (withOffset fragment s dataOffset).1.Sound data := by
  unfold Subs.withOffset
  split
  · exact ⟨hs.time, hs.nextTime, hs.inside, hs.spent⟩
  · exact hs
  · exact hs

section Read

variable (ttml : Ttml) (data : Slice) {track : SubtitleTrack} (htrack : track.Sound)
include htrack

/-- A sample is in the data and paid for before it is read. -/
theorem readSample_safe {fragment : Fragment} (hfragment : fragment.Sound) (trun : Slice) (version flags : Nat) {s : Walk}
    (hs : s.Sound data.bytes) (at_ : Nat) :
    Finds (readSample ttml data.bytes track fragment trun.bytes version flags s at_) fun p => p.1.Sound data.bytes := by
  refine (field_safe trun flags _ at_).bind fun duration hduration => ?_
  refine (field_safe trun flags _ _).bind fun size _ => ?_
  refine (field_safe trun flags _ _).bind fun sampleFlags _ => ?_
  refine (field_safe trun flags _ _).bind fun offset hoffset => ?_
  refine (finds_ask _).bind fun pos _ => ?_
  refine (finds_ask _).bind fun stop _ => ?_
  refine (finds_ask _).bind fun sample hsample => ?_
  refine (finds_ask _).bind fun left hleft => ?_
  obtain ⟨hle, hin, rfl⟩ := getSlice_eq_some.mp hsample
  rw [length_extract hin] at hleft
  have htime := hs.time
  have hlen := data.length_le
  have hdurationLt : duration.1.getD fragment.duration < 2 ^ 32 := by
    cases hvalue : duration.1 with
    | none => exact hfragment.duration
    | some n => exact hduration n hvalue
  have hoffsetLt : -2 ^ 32 ≤ (offset.1.elim 0 fun o => if version = 0 then (o : Int) else signed o) ∧
      (offset.1.elim 0 fun o => if version = 0 then (o : Int) else signed o) < 2 ^ 32 := by
    cases hvalue : offset.1 with
    | none => simp
    | some o =>
      have hlt := hoffset o hvalue
      have hbounds := signed_bounds hlt
      dsimp only [Option.elim_some]
      split <;> omega
  unfold wordMax at htime
  refine (finds_lift (i128_safe (by omega))).bind fun ticks hticks => ?_
  refine (finds_lift (ticksMs_safe (by omega) htrack.timescale htrack.timescale_lt)).bind fun from_ _ => ?_
  refine (finds_lift (i128_safe (by omega))).bind fun ends hends => ?_
  refine (finds_lift (ticksMs_safe (by omega) htrack.timescale htrack.timescale_lt)).bind fun to_ _ => ?_
  have hcues : Meets (do
      if track.wvtt then do
        let cues ← wvttCues (data.bytes.extract pos stop) from_ to_
        .ok (cues, 0)
      else stppCues ttml (data.bytes.extract pos stop) from_ to_ : Checked Text (List Cue × Nat)) fun _ => True := by
    split
    · have hsmall : (data.bytes.extract pos stop).length < 2 ^ 63 := by
        rw [length_extract hin]
        omega
      exact (wvttCues_safe ⟨_, hsmall⟩ from_ to_).bind fun cues _ => meets_ok trivial
    · exact stppCues_safe ttml _ from_ to_
  refine (finds_lift hcues).bind fun cues _ => finds_pure ?_
  constructor
  · exact Nat.min_le_right _ _
  · exact hs.nextTime
  · intro r hr
    rcases List.mem_append.mp hr with hr | hr
    · exact hs.inside r hr
    · obtain rfl := List.mem_singleton.mp hr
      exact ⟨hle, hin⟩
  · have hspent := hs.spent
    unfold checkedSub at hleft
    split at hleft
    · cases hleft
      rw [List.map_append, List.sum_append, List.map_singleton, List.sum_singleton]
      dsimp only
      omega
    · cases hleft

theorem readSamples_safe {fragment : Fragment} (hfragment : fragment.Sound) (trun : Slice) (version flags count : Nat)
    {s : Walk} (hs : s.Sound data.bytes) (at_ : Nat) :
    Meets (readSamples ttml data.bytes track fragment trun.bytes version flags count s at_) (Walk.Sound data.bytes) := by
  induction count generalizing s at_ with
  | zero => exact meets_ok hs
  | succ count ih =>
    refine Meets.bind (readSample_safe ttml data htrack hfragment trun version flags hs at_) fun found hfound => ?_
    cases found with
    | none => exact meets_ok hs
    | some p => exact ih (hfound p rfl) p.2

theorem readTrun_safe {fragment : Fragment} (hfragment : fragment.Sound) (trun : Slice) {s : Walk} (hs : s.Sound data.bytes) :
    Meets (readTrun ttml data.bytes track fragment s trun.bytes) (Walk.Sound data.bytes) := by
  unfold readTrun
  split
  · refine Meets.bind (field_safe trun _ _ 8) fun dataOffset _ => ?_
    refine Meets.bind (field_safe trun _ _ _) fun firstFlags _ => ?_
    exact readSamples_safe ttml data htrack hfragment trun _ _ _ (hs.withOffset fragment dataOffset) _
  · exact meets_ok hs

theorem readTruns_safe {fragment : Fragment} (hfragment : fragment.Sound) (traf : Slice) {all : List Box}
    (h : ∀ box ∈ all, box.Within traf.bytes.length) {s : Walk} (hs : s.Sound data.bytes) :
    Meets (readTruns ttml data.bytes track fragment traf.bytes s all) (Walk.Sound data.bytes) := by
  induction all generalizing s with
  | nil => exact meets_ok hs
  | cons box more ih =>
    refine (contents_safe traf (h box List.mem_cons_self)).bind fun trun htrun => ?_
    refine (readTrun_safe ttml data htrack hfragment ⟨trun, htrun⟩ hs).bind fun s hs => ?_
    exact ih (fun b hb => h b (List.mem_cons_of_mem box hb)) hs

theorem readTraf_safe (start : Nat) (traf : Slice) {s : Walk} (hs : s.Sound data.bytes) :
    Meets (readTraf ttml data.bytes track start s traf.bytes) (Walk.Sound data.bytes) := by
  refine Meets.bind (child_safe traf "tfhd") fun found _ => ?_
  split
  · exact meets_ok hs
  · split
    · exact meets_ok hs
    · split
      · exact meets_ok hs
      · refine (fragmentOf_safe htrack _ _ start).bind fun fragment hfragment => ?_
        refine Meets.bind (child_safe traf "tfdt") fun tfdt _ => ?_
        refine (boxes_safe traf).bind fun all hall => ?_
        have hbegun : Walk.Sound data.bytes { s with time := (tfdt.bind decodeTime).getD s.nextTime } :=
          ⟨decodeTime_le hs.nextTime, hs.nextTime, hs.inside, hs.spent⟩
        have htruns : ∀ box ∈ all.filter (·.kind = kindOf "trun"), box.Within traf.bytes.length := fun box hbox =>
          hall box (List.mem_of_mem_filter hbox)
        refine (readTruns_safe ttml data htrack hfragment traf htruns hbegun).bind fun s hs => meets_ok ?_
        exact ⟨hs.time, hs.time, hs.inside, hs.spent⟩

theorem readTrafs_safe (start : Nat) (moof : Slice) {all : List Box} (h : ∀ box ∈ all, box.Within moof.bytes.length)
    {s : Walk} (hs : s.Sound data.bytes) :
    Meets (readTrafs ttml data.bytes track start moof.bytes s all) (Walk.Sound data.bytes) := by
  induction all generalizing s with
  | nil => exact meets_ok hs
  | cons box more ih =>
    refine (contents_safe moof (h box List.mem_cons_self)).bind fun traf htraf => ?_
    refine (readTraf_safe ttml data htrack start ⟨traf, htraf⟩ hs).bind fun s hs => ?_
    exact ih (fun b hb => h b (List.mem_cons_of_mem box hb)) hs

theorem readTop_safe {all : List Box} (h : ∀ box ∈ all, box.Within data.bytes.length) {s : Walk} (hs : s.Sound data.bytes) :
    Meets (readTop ttml data.bytes track s all) (Walk.Sound data.bytes) := by
  induction all generalizing s with
  | nil => exact meets_ok hs
  | cons box more ih =>
    have hmore : ∀ b ∈ more, b.Within data.bytes.length := fun b hb => h b (List.mem_cons_of_mem box hb)
    unfold readTop
    split
    · exact ih hmore hs
    · refine (contents_safe data (h box List.mem_cons_self)).bind fun moof hmoof => ?_
      refine (boxes_safe ⟨moof, hmoof⟩).bind fun boxes hboxes => ?_
      have hbegun : Walk.Sound data.bytes { s with cursor := (more.find? (·.kind = kindOf "mdat")).map Box.first } :=
        ⟨hs.time, hs.nextTime, hs.inside, hs.spent⟩
      have htrafs : ∀ b ∈ boxes.filter (·.kind = kindOf "traf"), b.Within moof.length := fun b hb =>
        hboxes b (List.mem_of_mem_filter hb)
      refine (readTrafs_safe ttml data htrack box.start ⟨moof, hmoof⟩ htrafs hbegun).bind fun s hs => ?_
      exact ih hmore hs

end Read

theorem sound_begin (data : Slice) : (Walk.begin_ data.bytes).Sound data.bytes where
  time := Nat.zero_le _
  nextTime := Nat.zero_le _
  inside _ h := absurd h List.not_mem_nil
  spent := Nat.zero_add _

theorem walkMp4_safe (ttml : Ttml) (data : Slice) : Meets (walkMp4 ttml data.bytes) (Walk.Sound data.bytes) := by
  refine Meets.bind (read_safe data) fun found hfound => ?_
  cases found with
  | none => exact meets_fail
  | some track =>
    exact (boxes_safe data).bind fun top htop => readTop_safe ttml data (hfound track rfl) htop (sound_begin data)

/-- Reading any bytes ends without a fault: each sample read is in the data, and
all of them, each counted as at least 1, are no more than it. -/
theorem parseMp4_within_budget (ttml : Ttml) (data : Slice) :
    parseMp4 ttml data.bytes ≠ fault ∧
      ∀ result, parseMp4 ttml data.bytes = .ok result →
        ∃ s, walkMp4 ttml data.bytes = .ok s ∧ result = (s.cues, s.images) ∧
          (∀ r ∈ s.read, r.1 ≤ r.2 ∧ r.2 ≤ data.bytes.length) ∧
          (s.read.map fun r => max 1 (r.2 - r.1)).sum ≤ data.bytes.length := by
  have hwalk := walkMp4_safe ttml data
  have hparse : Meets (parseMp4 ttml data.bytes) fun result =>
      ∃ s, walkMp4 ttml data.bytes = .ok s ∧ result = (s.cues, s.images) := by
    have hkept : Meets (walkMp4 ttml data.bytes) fun s => walkMp4 ttml data.bytes = .ok s := ⟨hwalk.1, fun _ h => h⟩
    exact hkept.bind fun s hs => meets_ok ⟨s, hs, rfl⟩
  refine ⟨hparse.1, fun result hresult => ?_⟩
  obtain ⟨s, hs, hcues⟩ := hparse.2 result hresult
  have hsound := hwalk.2 s hs
  have hspent := hsound.spent
  exact ⟨s, hs, hcues, hsound.inside, by omega⟩

end Hyperfetch.Subs
