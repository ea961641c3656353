import Hyperfetch.Hls.Prefetch
import Hyperfetch.Hls.Rounds

/-!
# What is in force at a segment

The registers after some lines are what these lines alone say, each by the last tag of
its kind and what was in force there (`walkAt`): a segment's key is that of the last
`#EXT-X-KEY`, its init section that of the last `#EXT-X-MAP` with the key in force at
that. Lines are newest first here.

Where the numbering is given before the first link, and it ends within 64 bits, the
numbers rise, as a recording takes them to (`Live.Rising`).
-/

namespace Hyperfetch.Hls.Playlist

open Weft Vod

variable {F : Type} (times : Times F) (join : Join) (ads : List (F × F)) (answer : Url → Except String (List UInt8))

/-! ## The last tag of a kind -/

def Line.extInf? : Line → Option Text
  | .extInf info => some info
  | _ => none

def Line.mediaSequence? : Line → Option Text
  | .mediaSequence seq => some seq
  | _ => none

def Line.key? : Line → Option Text
  | .key list => some list
  | _ => none

def Line.isUri : Line → Bool
  | .uri _ => true
  | _ => false

def durationAt (older : List Line) : F := ((older.findSome? Line.extInf?).map (extInfDuration times)).getD times.two

def mediaSequenceAt (older : List Line) : Nat := ((older.findSome? Line.mediaSequence?).bind fun seq => parseU64 (trim seq)).getD 0

/-- The links so far. -/
def links (older : List Line) : Nat := (older.filter Line.isUri).length

def sequenceAt (older : List Line) : Nat := saturatingAdd (mediaSequenceAt older) (links older)

/-- The key of an `#EXT-X-KEY`, none where it ends encryption. -/
def keyOf (list : Text) : Option ActiveKey :=
  match keyUrl join (parseAttributes list) with
  | .ok (some url) =>
    match answer url, readIv (parseAttributes list) with
    | .ok key, .ok iv => some ⟨key, iv⟩
    | _, _ => none
  | _ => none

def keyAt (older : List Line) : Option ActiveKey := (older.findSome? Line.key?).bind (keyOf join answer)

/-- The init section of the last `#EXT-X-MAP`, with the key in force at that. -/
def initAt : List Line → Option InitSection
  | [] => none
  | .map list :: older => (readMap join (keyAt join answer older) (parseAttributes list)).toOption
  | _ :: older => initAt older

/-- Where a byte range without an offset goes on. -/
def nextStartAt : List Line → Nat
  | [] => 0
  | .byteRange spec :: older => ((parseByteRange spec (nextStartAt older)).toOption.map fun r => saturatingAdd r.1.end_ 1).getD 0
  | _ :: older => nextStartAt older

/-- The last byte range, if it came after the last link. -/
def rangeAt : List Line → Option Bytes
  | [] => none
  | .byteRange spec :: older => (parseByteRange spec (nextStartAt older)).toOption
  | .uri _ :: _ => none
  | _ :: older => rangeAt older

/-- When the next segment starts: the last date, and the segments since. -/
def clockAt : List Line → Option F
  | [] => none
  | .programDateTime date :: _ => times.epochSeconds date
  | .uri _ :: older => (clockAt older).map (times.add · (durationAt times older))
  | _ :: older => clockAt older

/-- What is left of a break at a segment this long, that taken off. -/
def takenOff (left : Option F) (duration : F) : Option F :=
  (left.filter fun left => !times.lt left (times.half duration)).map (times.sub · duration)

/-- The seconds left of an ad break. -/
def adLeftAt : List Line → Option F
  | [] => none
  | .cueOut spec :: _ => some (breakLeft times spec)
  | .cueOutCont spec :: older => adLeftAt older <|> some (breakLeft times spec)
  | .cueIn :: _ => none
  | .uri _ :: older => takenOff times (adLeftAt older) (durationAt times older)
  | _ :: older => adLeftAt older

/-- A segment here is an ad. -/
def adAt (older : List Line) : Bool :=
  (takenOff times (adLeftAt times older) (durationAt times older)).isSome ||
    (clockAt times older).any fun starts =>
      let middle := times.add starts (times.half (durationAt times older))
      ads.any fun ad => times.le ad.1 middle && times.lt middle ad.2

/-- Since the last segment came a discontinuity, or an ad. -/
def gapAt : List Line → Bool
  | [] => false
  | .discontinuity :: _ => true
  | .uri _ :: older => adAt times ads older
  | _ :: older => gapAt older

/-- The segment of a link here. -/
def segmentAt (older : List Line) (index : Nat) (url : Url) : Listed F where
  segment := {
    index := index
    sequence := sequenceAt older
    url := url
    byteRange := rangeAt older
    encryption := (keyAt join answer older).map fun k => ⟨k.key, k.iv.getD (beBytes 16 (sequenceAt older))⟩
    init := initAt join answer older
    discontinuity := gapAt times ads older }
  durationSecs := durationAt times older
  date := clockAt times older

/-- The segments so far. -/
def segmentsAt : List Line → List (Listed F)
  | [] => []
  | .uri text :: older =>
    if adAt times ads older then segmentsAt older
    else segmentsAt older ++ (joined join text).toOption.toList.map (segmentAt times join ads answer older (segmentsAt older).length)
  | _ :: older => segmentsAt older

/-- The registers after some lines. -/
def walkAt (older : List Line) : Walk F where
  segments := segmentsAt times join ads answer older
  mediaSequence := mediaSequenceAt older
  listed := links older
  duration := durationAt times older
  byteRange := rangeAt older
  nextRangeStart := nextStartAt older
  key := keyAt join answer older
  init := initAt join answer older
  discontinuity := gapAt times ads older
  adLeft := adLeftAt times older
  clock := clockAt times older

/-! ## The walk reads them -/

variable {times join ads answer}

theorem isAd_walkAt (older : List Line) : (walkAt times join ads answer older).isAd times ads = adAt times ads older := rfl

theorem line_walkAt {older : List Line} {line : Line} (hkey : line.key? = none) {after : Walk F}
    (h : (walkAt times join ads answer older).line times join ads line = .ok after) : after = walkAt times join ads answer (line :: older) := by
  cases line with
  | key list => cases hkey
  | mediaSequence seq =>
    obtain ⟨n, hn, hafter⟩ := bind_eq_ok.mp h
    obtain rfl := Except.ok.inj hafter
    have hvalue : mediaSequenceAt (.mediaSequence seq :: older) = n := by
      show (parseU64 (trim seq)).getD 0 = n
      rw [okOr_eq_ok.mp hn]
      rfl
    rw [← hvalue]
    rfl
  | byteRange spec =>
    obtain ⟨range, hrange, hafter⟩ := bind_eq_ok.mp h
    obtain rfl := Except.ok.inj hafter
    have hrange : parseByteRange spec (nextStartAt older) = .ok range := hrange
    have hat : rangeAt (.byteRange spec :: older) = some range := congrArg Except.toOption hrange
    have hnext : nextStartAt (.byteRange spec :: older) = saturatingAdd range.1.end_ 1 := by
      rw [nextStartAt, hrange]
      rfl
    rw [← hat, ← hnext]
    rfl
  | map list =>
    obtain ⟨init, hinit, hafter⟩ := bind_eq_ok.mp h
    obtain rfl := Except.ok.inj hafter
    have hat : initAt join answer (.map list :: older) = some init := congrArg Except.toOption hinit
    rw [← hat]
    rfl
  | uri text =>
    have h : (walkAt times join ads answer older).uri times join ads text = .ok after := h
    unfold Walk.uri at h
    split at h
    · cases h
    · rw [isAd_walkAt] at h
      split at h
      next had =>
        obtain rfl := Except.ok.inj h
        have hsegments : segmentsAt times join ads answer (.uri text :: older) = segmentsAt times join ads answer older := if_pos had
        have hgap : gapAt times ads (.uri text :: older) = true := had
        conv_rhs => rw [walkAt, hsegments, hgap]
        rfl
      next had =>
        obtain ⟨url, hurl, hafter⟩ := bind_eq_ok.mp h
        obtain rfl := Except.ok.inj hafter
        have hsegments : segmentsAt times join ads answer (.uri text :: older) = segmentsAt times join ads answer older ++
            [segmentAt times join ads answer older (segmentsAt times join ads answer older).length url] := by
          rw [segmentsAt, if_neg had, hurl]
          rfl
        have hgap : gapAt times ads (.uri text :: older) = false := Bool.eq_false_iff.mpr had
        conv_rhs => rw [walkAt, hsegments, hgap]
        rfl
  | _ =>
    obtain rfl := Except.ok.inj h
    rfl

variable {K : Type} {keys : Keys K} {Q : K → Prop}

/-- Keys that are what `answer` gives. -/
def Answers (keys : Keys K) (answer : Url → Except String (List UInt8)) (Q : K → Prop) : Prop :=
  ∀ url k, Q k → (keys.get url k).1 = answer url ∧ Q (keys.get url k).2

theorem step_walkAt (hget : Answers keys answer Q) {older : List Line} {line : Line} {k : K} (hk : Q k) :
    Q ((walkAt times join ads answer older).step times keys join ads k line).2 ∧
      ∀ after, ((walkAt times join ads answer older).step times keys join ads k line).1 = .ok after →
        after = walkAt times join ads answer (line :: older) := by
  cases hkey : line.key? with
  | none =>
    have hstep : (walkAt times join ads answer older).step times keys join ads k line =
        ((walkAt times join ads answer older).line times join ads line, k) := by
      cases line with
      | key list => cases hkey
      | _ => rfl
    rw [hstep]
    exact ⟨hk, fun after h => line_walkAt hkey h⟩
  | some list =>
    cases line with
    | key list =>
      simp only [Walk.step, Walk.keyLine]
      cases hurl : keyUrl join (parseAttributes list) with
      | error e =>
        refine ⟨hk, fun after h => ?_⟩
        cases h
      | ok url =>
        cases url with
        | none =>
          refine ⟨hk, fun after h => ?_⟩
          obtain rfl := Except.ok.inj h
          have hat : keyAt join answer (.key list :: older) = none := by
            show keyOf join answer list = none
            rw [keyOf, hurl]
          conv_rhs => rw [walkAt, hat]
          rfl
        | some url =>
          obtain ⟨hanswer, hafter⟩ := hget url k hk
          dsimp only
          generalize keys.get url k = got at hanswer hafter
          obtain ⟨key, k'⟩ := got
          obtain rfl : key = answer url := hanswer
          cases hkey : answer url with
          | error e =>
            refine ⟨hafter, fun after h => ?_⟩
            cases h
          | ok key =>
            refine ⟨hafter, fun after h => ?_⟩
            cases hiv : readIv (parseAttributes list) with
            | error e =>
              rw [hiv] at h
              cases h
            | ok iv =>
              rw [hiv] at h
              obtain rfl := Except.ok.inj h
              have hat : keyAt join answer (.key list :: older) = some ⟨key, iv⟩ := by
                show keyOf join answer list = _
                rw [keyOf, hurl]
                dsimp only
                rw [hkey, hiv]
              conv_rhs => rw [walkAt, hat]
              rfl
    | _ => cases hkey

theorem walkLines_walkAt (hget : Answers keys answer Q) (rest : List Line) {older : List Line} {k : K} (hk : Q k) {after : Walk F}
    (h : (walkLines times keys join ads rest (walkAt times join ads answer older) k).1 = .ok after) :
    after = walkAt times join ads answer (rest.reverse ++ older) := by
  induction rest generalizing older k with
  | nil => exact (Except.ok.inj h).symm
  | cons line rest ih =>
    obtain ⟨hafter, hstep⟩ := @step_walkAt F times join ads answer K keys Q hget older line k hk
    rw [walkLines] at h
    generalize (walkAt times join ads answer older).step times keys join ads k line = stepped at h hafter hstep
    obtain ⟨walked, k'⟩ := stepped
    cases walked with
    | error e => cases h
    | ok w =>
      obtain rfl := hstep w rfl
      rw [ih hafter h, List.reverse_cons, List.append_assoc]
      rfl

/-- The segments of a playlist that is read. -/
theorem walk_segments (hget : Answers keys answer Q) {text : Text} {k : K} (hk : Q k) {listed : List (Listed F)}
    (h : (walkMediaPlaylist times keys join text k).1 = .ok listed) :
    listed = segmentsAt times join (adWindows times text) answer (readLines text).reverse := by
  have h : (walkLines times keys join (adWindows times text) (readLines text) (Walk.start times) k).1.map Walk.segments = .ok listed := h
  cases hwalk : (walkLines times keys join (adWindows times text) (readLines text) (Walk.start times) k).1 with
  | error e =>
    rw [hwalk] at h
    cases h
  | ok after =>
    rw [hwalk] at h
    obtain rfl := Except.ok.inj h
    have hstart : Walk.start times = walkAt times join (adWindows times text) answer [] := rfl
    rw [hstart] at hwalk
    rw [walkLines_walkAt hget _ hk hwalk, List.append_nil]
    rfl

theorem answers_plain (fetch : Url → Except String (List UInt8)) (known : Url → Option (List UInt8)) :
    Answers (plainKeys fetch) (Playlist.answer fetch known) (Right fetch known) := by
  intro url now hnow
  rw [plain_get hnow url]
  exact ⟨rfl, hnow.learnt url⟩

/-! ## Each segment -/

theorem segmentsAt_of_not_uri {line : Line} (h : line.isUri = false) (older : List Line) :
    segmentsAt times join ads answer (line :: older) = segmentsAt times join ads answer older := by
  cases line with
  | uri text => cases h
  | _ => rfl

/-- The segments are those of the links that are no ads, each with what is in force there. -/
theorem segmentsAt_getElem? {older : List Line} {i : Nat} {l : Listed F} :
    (segmentsAt times join ads answer older)[i]? = some l ↔
      ∃ newer text before url, older = newer ++ .uri text :: before ∧ adAt times ads before = false ∧ joined join text = .ok url ∧
        (segmentsAt times join ads answer before).length = i ∧ l = segmentAt times join ads answer before i url := by
  induction older with
  | nil =>
    constructor
    · intro h
      cases h
    · rintro ⟨newer, text, before, url, hsplit, -⟩
      cases newer <;> cases hsplit
  | cons line older ih =>
    -- a link further back is one of `older`
    have hback : (∃ newer text before url, line :: older = newer ++ .uri text :: before ∧ adAt times ads before = false ∧
        joined join text = .ok url ∧ (segmentsAt times join ads answer before).length = i ∧ l = segmentAt times join ads answer before i url) ↔
        (∃ text url, line = .uri text ∧ adAt times ads older = false ∧ joined join text = .ok url ∧
          (segmentsAt times join ads answer older).length = i ∧ l = segmentAt times join ads answer older i url) ∨
          (segmentsAt times join ads answer older)[i]? = some l := by
      rw [ih]
      constructor
      · rintro ⟨newer, text, before, url, hsplit, hrest⟩
        cases newer with
        | nil =>
          obtain ⟨rfl, rfl⟩ := List.cons.inj hsplit
          exact .inl ⟨text, url, rfl, hrest⟩
        | cons first newer =>
          obtain ⟨rfl, rfl⟩ := List.cons.inj hsplit
          exact .inr ⟨newer, text, before, url, rfl, hrest⟩
      · rintro (⟨text, url, rfl, hrest⟩ | ⟨newer, text, before, url, rfl, hrest⟩)
        · exact ⟨[], text, older, url, rfl, hrest⟩
        · exact ⟨line :: newer, text, before, url, rfl, hrest⟩
    rw [hback]
    cases huri : line.isUri with
    | false =>
      rw [segmentsAt_of_not_uri huri]
      constructor
      · exact .inr
      · rintro (⟨text, url, rfl, -⟩ | h)
        · cases huri
        · exact h
    | true =>
      cases line with
      | uri text =>
        rw [segmentsAt]
        cases had : adAt times ads older with
        | true => simp
        | false =>
          cases hurl : joined join text with
          | error e => simp [hurl, Except.toOption]
          | ok url =>
            rw [if_neg Bool.false_ne_true]
            show (segmentsAt times join ads answer older ++ [segmentAt times join ads answer older _ url])[i]? = some l ↔ _
            rcases Nat.lt_trichotomy i (segmentsAt times join ads answer older).length with hlt | rfl | hgt
            · rw [List.getElem?_append_left hlt]
              constructor
              · exact .inr
              · rintro (⟨-, -, -, -, -, rfl, -⟩ | h)
                · exact absurd hlt (Nat.lt_irrefl _)
                · exact h
            · rw [List.getElem?_concat_length, List.getElem?_eq_none (Nat.le_refl _)]
              constructor
              · rintro h
                exact .inl ⟨text, url, rfl, rfl, hurl, rfl, (Option.some.inj h).symm⟩
              · rintro (⟨text', url', htext, -, hurl', -, rfl⟩ | h)
                · obtain rfl := Line.uri.inj htext
                  rw [Except.ok.inj (hurl.symm.trans hurl')]
                · cases h
            · rw [List.getElem?_eq_none (by simpa using hgt), List.getElem?_eq_none (Nat.le_of_lt hgt)]
              constructor
              · intro h
                cases h
              · rintro (⟨-, -, -, -, -, rfl, -⟩ | h)
                · exact absurd hgt (Nat.lt_irrefl _)
                · cases h
      | _ => cases huri

/-- The segments of a playlist that is read are its links that are no ads, in their order, each
with the key, the init section, the number and the range in force at its line. -/
theorem segments_in_force (times : Times F) (join : Join) (fetch : Url → Except String (List UInt8)) (known : Url → Option (List UInt8))
    {text : Text} {listed : List (Listed F)} (h : (walkMediaPlaylist times (plainKeys fetch) join text known).1 = .ok listed) (i : Nat)
    (l : Listed F) :
    listed[i]? = some l ↔ ∃ front link rest url, readLines text = front ++ .uri link :: rest ∧
      adAt times (adWindows times text) front.reverse = false ∧ joined join link = .ok url ∧
      (segmentsAt times join (adWindows times text) (Playlist.answer fetch known) front.reverse).length = i ∧
      l = segmentAt times join (adWindows times text) (Playlist.answer fetch known) front.reverse i url := by
  rw [walk_segments (answers_plain fetch known) right_refl h, segmentsAt_getElem?]
  constructor
  · rintro ⟨newer, link, before, url, hsplit, hrest⟩
    refine ⟨before.reverse, link, newer.reverse, url, ?_, by rwa [List.reverse_reverse]⟩
    rw [← List.reverse_reverse (readLines text), hsplit]
    simp
  · rintro ⟨front, link, rest, url, hsplit, hrest⟩
    refine ⟨rest.reverse, link, front.reverse, url, ?_, hrest⟩
    rw [hsplit]
    simp

/-- The second segment of a playlist of two keys. -/
theorem segments_in_force_two : ∃ listed, (walkMediaPlaylist ticks (plainKeys theKey) bare twoKeys fun _ => none).1 = .ok listed ∧
    ∀ l, listed[1]? = some l ↔ ∃ front link rest url, readLines twoKeys = front ++ .uri link :: rest ∧
      adAt ticks (adWindows ticks twoKeys) front.reverse = false ∧ joined bare link = .ok url ∧
      (segmentsAt ticks bare (adWindows ticks twoKeys) (Playlist.answer theKey fun _ => none) front.reverse).length = 1 ∧
      l = segmentAt ticks bare (adWindows ticks twoKeys) (Playlist.answer theKey fun _ => none) front.reverse 1 url := by
  have hread : (walkMediaPlaylist ticks (plainKeys theKey) bare twoKeys fun _ => none).1.toOption.isSome = true := by decide +kernel
  cases hwalk : (walkMediaPlaylist ticks (plainKeys theKey) bare twoKeys fun _ => none).1 with
  | error e =>
    rw [hwalk] at hread
    cases hread
  | ok listed => exact ⟨listed, rfl, segments_in_force ticks bare theKey (fun _ => none) hwalk 1⟩

/-! ## The numbers -/

/-- The numbering is given before the first link. -/
def NumberedFirst (lines : List Line) : Prop := lines.Pairwise fun a b => a.isUri = true → b.mediaSequence? = none

instance (lines : List Line) : Decidable (NumberedFirst lines) :=
  inferInstanceAs (Decidable (lines.Pairwise fun a b => a.isUri = true → b.mediaSequence? = none))

theorem segmentsAt_of_no_links {older : List Line} (h : ∀ line ∈ older, line.isUri = false) : segmentsAt times join ads answer older = [] := by
  induction older with
  | nil => rfl
  | cons line older ih =>
    rw [segmentsAt_of_not_uri (h line List.mem_cons_self)]
    exact ih fun line hline => h line (List.mem_cons_of_mem _ hline)

/-- The numbers rise, and are below the next. -/
theorem segmentsAt_rising {older : List Line} (hfirst : older.Pairwise fun b a => a.isUri = true → b.mediaSequence? = none)
    (hroom : mediaSequenceAt older + links older ≤ u64Max + 1) :
    (∀ l ∈ segmentsAt times join ads answer older, l.segment.sequence < mediaSequenceAt older + links older) ∧
      (segmentsAt times join ads answer older).Pairwise fun a b => a.segment.sequence < b.segment.sequence := by
  induction older with
  | nil => exact ⟨fun l hl => absurd hl List.not_mem_nil, List.Pairwise.nil⟩
  | cons line older ih =>
    obtain ⟨hline, hrest⟩ := List.pairwise_cons.mp hfirst
    cases hseq : line.mediaSequence? with
    | some seq =>
      have hnone : segmentsAt times join ads answer (line :: older) = [] := by
        apply segmentsAt_of_no_links
        intro other hother
        rcases List.mem_cons.mp hother with rfl | hother
        · cases other with
          | uri text => cases hseq
          | _ => rfl
        · by_contra huri
          rw [hline other hother (Bool.not_eq_false _ ▸ huri)] at hseq
          cases hseq
      rw [hnone]
      exact ⟨fun l hl => absurd hl List.not_mem_nil, List.Pairwise.nil⟩
    | none =>
      have hsame : mediaSequenceAt (line :: older) = mediaSequenceAt older := by
        rw [mediaSequenceAt, mediaSequenceAt, List.findSome?_cons, hseq]
      rw [hsame] at hroom ⊢
      cases huri : line.isUri with
      | false =>
        have hlinks : links (line :: older) = links older := by rw [links, links, List.filter_cons_of_neg (by rw [huri]; decide)]
        rw [hlinks] at hroom ⊢
        rw [segmentsAt_of_not_uri huri]
        exact ih hrest hroom
      | true =>
        have hlinks : links (line :: older) = links older + 1 := by rw [links, links, List.filter_cons_of_pos huri, List.length_cons]
        rw [hlinks] at hroom ⊢
        obtain ⟨hbelow, hrising⟩ := ih hrest (by omega)
        cases line with
        | uri text =>
          rw [segmentsAt]
          split
          · exact ⟨fun l hl => by have := hbelow l hl; omega, hrising⟩
          · have hlast : ∀ url, (segmentAt times join ads answer older (segmentsAt times join ads answer older).length url).segment.sequence =
                mediaSequenceAt older + links older := by
              intro url
              show saturatingAdd (mediaSequenceAt older) (links older) = _
              unfold saturatingAdd
              omega
            constructor
            · intro l hl
              rcases List.mem_append.mp hl with hl | hl
              · have := hbelow l hl
                omega
              · obtain ⟨url, -, rfl⟩ := List.mem_map.mp hl
                rw [hlast url]
                omega
            · refine List.pairwise_append.mpr ⟨hrising, ?_, ?_⟩
              · cases (joined join text).toOption with
                | none => exact List.Pairwise.nil
                | some url => exact List.pairwise_singleton _ _
              · intro a ha b hb
                obtain ⟨url, -, rfl⟩ := List.mem_map.mp hb
                rw [hlast url]
                exact hbelow a ha
        | _ => cases huri

theorem length_countBack (stop : F) (listed : List (Listed F)) : (countBack times stop listed).length = listed.length := by
  induction listed generalizing stop with
  | nil => rfl
  | cons l listed ih => rw [countBack, List.length_cons, List.length_cons, ih]

theorem length_of_mapM {α β : Type} {f : α → Option β} {xs : List α} {ys : List β} (h : xs.mapM f = some ys) : ys.length = xs.length := by
  induction xs generalizing ys with
  | nil =>
    obtain rfl := Option.some.inj h
    rfl
  | cons x xs ih =>
    rw [List.mapM_cons] at h
    obtain ⟨y, -, h⟩ := Option.bind_eq_some_iff.mp h
    obtain ⟨rest, hrest, h⟩ := Option.bind_eq_some_iff.mp h
    obtain rfl := Option.some.inj h
    rw [List.length_cons, List.length_cons, ih hrest]

theorem length_datesOf (now : F) (listed : List (Listed F)) : (datesOf times now listed).length = listed.length := by
  unfold datesOf
  cases hdates : listed.mapM Listed.date with
  | some dates => exact length_of_mapM hdates
  | none => rw [Option.getD_none, List.length_reverse, length_countBack, List.length_reverse]

/-- What a recording is listed: numbers that rise, above the last one it had. -/
theorem live_rising (times : Times F) (join : Join) (fetch : Url → Except String (List UInt8)) (known : Url → Option (List UInt8))
    {text : Text} (hfirst : NumberedFirst (readLines text))
    (hroom : mediaSequenceAt (readLines text).reverse + links (readLines text) ≤ u64Max + 1) {now : F} {last : Option Nat}
    {listing : Live.Listing F InitSection} (h : (livePlaylist times (plainKeys fetch) join text now last known).1 = .ok listing) :
    Live.Rising listing.segments ∧ ∀ entry ∈ listing.segments, ∀ n ∈ last, n < entry.1.sequence := by
  unfold livePlaylist at h
  dsimp only at h
  cases hwalk : (walkMediaPlaylist times (plainKeys fetch) join text known).1 with
  | error e =>
    rw [hwalk] at h
    cases h
  | ok listed =>
    rw [hwalk] at h
    obtain rfl := Except.ok.inj h
    have hlisted := walk_segments (answers_plain fetch known) right_refl hwalk
    have hrising : listed.Pairwise fun a b => a.segment.sequence < b.segment.sequence := by
      rw [hlisted]
      refine (segmentsAt_rising (List.pairwise_reverse.mpr hfirst) ?_).2
      rwa [links, List.filter_reverse, List.length_reverse]
    have hzip : (listed.zip (datesOf times now listed)).Pairwise fun a b => a.1.segment.sequence < b.1.segment.sequence := by
      rw [← List.pairwise_map (f := Prod.fst) (R := fun a b : Listed F => a.segment.sequence < b.segment.sequence),
        List.map_fst_zip (Nat.le_of_eq (length_datesOf now listed).symm)]
      exact hrising
    constructor
    · rw [Live.Rising, List.map_map, List.pairwise_map]
      exact hzip.filter _
    · intro entry hentry n hn
      obtain ⟨e, he, rfl⟩ := List.mem_map.mp hentry
      have hlast := (List.mem_filter.mp he).2
      rw [Option.mem_def.mp hn] at hlast
      show n < e.1.segment.sequence
      simpa using hlast

theorem live_rising_two : ∃ listing, (livePlaylist ticks (plainKeys theKey) bare twoKeys 9 (some 7) fun _ => none).1 = .ok listing ∧
    listing.segments.length = 1 ∧ Live.Rising listing.segments ∧ ∀ entry ∈ listing.segments, 7 < entry.1.sequence := by
  have hread : ((livePlaylist ticks (plainKeys theKey) bare twoKeys 9 (some 7) fun _ => none).1.toOption.map (·.segments.length)) = some 1 := by
    decide +kernel
  obtain ⟨listing, hlisting, hone⟩ := Option.map_eq_some_iff.mp hread
  cases hwalk : (livePlaylist ticks (plainKeys theKey) bare twoKeys 9 (some 7) fun _ => none).1 with
  | error e =>
    rw [hwalk] at hlisting
    cases hlisting
  | ok found =>
    rw [hwalk] at hlisting
    obtain rfl := Option.some.inj hlisting
    obtain ⟨hrising, habove⟩ := live_rising ticks bare theKey (fun _ => none) (by decide +kernel) (by decide +kernel) hwalk
    exact ⟨found, rfl, hone, hrising, fun entry hentry => habove entry hentry 7 rfl⟩

end Hyperfetch.Hls.Playlist
