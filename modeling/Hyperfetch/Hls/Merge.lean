import Hyperfetch.Hls.Segments
import Hyperfetch.Weft.Checked
import Hyperfetch.Weft.Tiling

/-!
# Segments fetched together (`plan_requests`)

Consecutive segments whose ranges adjoin in one file are fetched by one request. A
plan is built a segment at a time, the last request taking the next segment if it
may; so the segments fall into runs, a request each (`Planned`), and each run's
ranges are a chain from its request's first byte to its last.

The lengths of a request and of the next segment are added before the sum is
compared with the limit. With ranges that adjoin the sum fits 64 bits, unless it
comes to all of `0..=u64::MAX` (`Overruns`).
-/

namespace Hyperfetch.Hls.Vod

open Weft

/-- A segment, and whether its init section is written before it. -/
abbrev Listed := HlsSegment × Bool

/-- Whether segment `i` is written with its init section. -/
def writesInit (segments : List HlsSegment) (i : Nat) : Bool :=
  match segments[i]? with
  | none => false
  | some s => s.init.isSome && (i == 0 || segments[i - 1]?.any (·.init != s.init))

/-- One request: a segment, or several whose byte ranges it fetches together. -/
structure Request where
  /-- The (first) segment, with the byte range of all of them. -/
  segment : HlsSegment
  withInit : Bool
  /-- The byte ranges of the segments fetched together; empty for a single one. -/
  merged : List Bytes
  deriving DecidableEq

/-- `ByteRange::new(range.start, more.end).ok()`. -/
def spanned (range more : Bytes) : Option Bytes :=
  if h : range.val.start ≤ more.val.end_ then some ⟨⟨range.val.start, more.val.end_⟩, h, more.property.bounded⟩ else none

/-- The byte range of `request` extended by that of `next`, if one request of at
most `limit` bytes may fetch both. -/
def mergedRange (request next : HlsSegment) (limit : Nat) : Checked Empty (Option Bytes) :=
  match request.byteRange, next.byteRange with
  | some range, some more =>
    -- `checked_add` gives nothing only past the last byte there is, where no range starts
    let adjoining := range.val.end_ + 1 = more.val.start ∧ request.url = next.url ∧ next.discontinuity = false
    let plain := request.encryption = none ∧ next.encryption = none
    if adjoining ∧ plain then do
      let sum ← Checked.add range.val.len more.val.len
      if sum > limit then .ok none else .ok (spanned range more)
    else .ok none
  | _, _ => .ok none

/-- The request with one more segment. -/
def Request.extend (last : Request) (next : HlsSegment) (range : Bytes) : Request :=
  { last with
    segment := { last.segment with byteRange := some range }
    merged := (if last.merged.isEmpty then last.segment.byteRange.toList else last.merged) ++ next.byteRange.toList }

/-- One turn of `plan_requests`. -/
def planStep (limit : Nat) (requests : List Request) (next : Listed) : Checked Empty (List Request) :=
  let pushed := requests ++ [⟨next.1, next.2, []⟩]
  match requests.getLast? with
  | none => .ok pushed
  | some last =>
    if next.2 then .ok pushed
    else do
      let merged ← mergedRange last.segment next.1 limit
      match merged with
      | some range => .ok (requests.dropLast ++ [last.extend next.1 range])
      | none => .ok pushed

/-- The segments from position `first` on. -/
def listed (segments : List HlsSegment) (first : Nat) : List Listed :=
  (segments.zip ((List.range segments.length).map (writesInit segments))).drop first

def planRequests (segments : List HlsSegment) (first limit : Nat) : Checked Empty (List Request) :=
  (listed segments first).foldlM (planStep limit) []

theorem listed_segments (segments : List HlsSegment) (first : Nat) :
    (listed segments first).map (·.1) = segments.drop first := by
  rw [listed, List.map_drop, List.map_fst_zip (by simp)]

/-! ## What a request fetches -/

/-- What may be fetched together with the segment before. -/
structure Follows (a b : Listed) : Prop where
  adjoins : ∃ r s, a.1.byteRange = some r ∧ b.1.byteRange = some s ∧ r.val.end_ + 1 = s.val.start
  url : a.1.url = b.1.url
  plain : a.1.encryption = none ∧ b.1.encryption = none
  no_discontinuity : b.1.discontinuity = false
  no_init : b.2 = false

/-- The request is that of a run of segments, each following the one before. -/
structure Fetches (limit : Nat) (request : Request) (first : Listed) (rest : List Listed) : Prop where
  segment : request.segment = { first.1 with byteRange := request.segment.byteRange }
  with_init : request.withInit = first.2
  follows : (first :: rest).IsChain Follows
  alone : rest = [] → request.segment.byteRange = first.1.byteRange ∧ request.merged = []
  together : rest ≠ [] → request.merged.map some = (first :: rest).map (·.1.byteRange) ∧
    ∃ whole, request.segment.byteRange = some whole ∧ whole.val.end_ + 1 - whole.val.start ≤ limit ∧
      Chain (fun r : Bytes => r.val.start) (fun r => r.val.end_) whole.val.start (whole.val.end_ + 1) request.merged

/-- Each request fetches a run; the runs are the segments. -/
def Planned (limit : Nat) (requests : List Request) (segments : List Listed) : Prop :=
  ∃ runs : List (Listed × List Listed),
    List.Forall₂ (fun request run => Fetches limit request run.1 run.2) requests runs ∧
      runs.flatMap (fun run => run.1 :: run.2) = segments

theorem Planned.fetches {limit : Nat} {requests : List Request} {segments : List Listed} {request : Request}
    (h : Planned limit requests segments) (hrequest : request ∈ requests) :
    ∃ first rest, Fetches limit request first rest := by
  obtain ⟨runs, hruns, -⟩ := h
  induction hruns with
  | nil => exact absurd hrequest (List.not_mem_nil)
  | cons hrun _ ih =>
    rcases List.mem_cons.mp hrequest with rfl | hrequest
    · exact ⟨_, _, hrun⟩
    · exact ih hrequest

/-- Where what a request fetches is. -/
def Request.places (request : Request) : List (Url × Option Bytes) :=
  if request.merged.isEmpty then [request.segment.place]
  else request.merged.map fun range => (request.segment.url, some range)

theorem Follows.url_of_chain {first : Listed} {rest : List Listed} (h : (first :: rest).IsChain Follows) :
    ∀ s ∈ rest, s.1.url = first.1.url := by
  induction rest generalizing first with
  | nil => intro s hs; simp at hs
  | cons next rest ih =>
    rw [List.isChain_cons_cons] at h
    intro s hs
    rcases List.mem_cons.mp hs with rfl | hs
    · exact h.1.url.symm
    · exact (ih h.2 s hs).trans h.1.url.symm

theorem Fetches.places_eq {limit : Nat} {request : Request} {first : Listed} {rest : List Listed}
    (h : Fetches limit request first rest) : request.places = (first :: rest).map (·.1.place) := by
  have hurl : request.segment.url = first.1.url := by rw [h.segment]
  cases rest with
  | nil =>
    obtain ⟨hrange, hmerged⟩ := h.alone rfl
    simp [Request.places, hmerged, HlsSegment.place, hurl, hrange]
  | cons next rest =>
    obtain ⟨hmerged, -⟩ := h.together (List.cons_ne_nil _ _)
    have hne : request.merged.isEmpty = false := by
      cases hm : request.merged with
      | nil => simp [hm] at hmerged
      | cons => rfl
    have hone : ∀ s ∈ first :: next :: rest, s.1.url = first.1.url := by
      intro s hs
      rcases List.mem_cons.mp hs with rfl | hs
      · rfl
      · exact Follows.url_of_chain h.follows s hs
    rw [Request.places, hne, if_neg (by decide), hurl]
    calc request.merged.map (fun range => (first.1.url, some range))
        = (request.merged.map some).map (first.1.url, ·) := by rw [List.map_map]; rfl
      _ = (first :: next :: rest).map (fun s => (first.1.url, s.1.byteRange)) := by rw [hmerged, List.map_map]; rfl
      _ = (first :: next :: rest).map (·.1.place) := List.map_congr_left fun s hs => by rw [HlsSegment.place, hone s hs]

theorem Planned.places_eq {limit : Nat} {requests : List Request} {segments : List Listed}
    (h : Planned limit requests segments) : requests.flatMap Request.places = segments.map (·.1.place) := by
  obtain ⟨runs, hruns, rfl⟩ := h
  induction hruns with
  | nil => rfl
  | cons hrun _ ih => rw [List.flatMap_cons, List.flatMap_cons, List.map_append, ih, hrun.places_eq]

/-! ## One more segment -/

/-- What `merged_range` asks of the two before it adds their lengths. -/
structure Joins (request next : HlsSegment) (range more : Bytes) : Prop where
  request_range : request.byteRange = some range
  next_range : next.byteRange = some more
  adjoins : range.val.end_ + 1 = more.val.start
  url : request.url = next.url
  no_discontinuity : next.discontinuity = false
  plain : request.encryption = none ∧ next.encryption = none

theorem mergedRange_of_not_joins {request next : HlsSegment} {limit : Nat}
    (h : ∀ range more, ¬Joins request next range more) : mergedRange request next limit = .ok none := by
  unfold mergedRange
  split
  next range more hrange hmore =>
    dsimp only
    rw [if_neg]
    rintro ⟨⟨hadjoins, hurl, hdisc⟩, hplain⟩
    exact h range more ⟨hrange, hmore, hadjoins, hurl, hdisc, hplain⟩
  next => rfl

/-- The sum of the lengths is how many bytes both hold: neither alone is all that 64 bits count. -/
theorem Joins.mergedRange_eq {request next : HlsSegment} {range more : Bytes} (h : Joins request next range more)
    (limit : Nat) : mergedRange request next limit =
      if more.val.end_ + 1 - range.val.start ≤ Checked.wordMax then
        if more.val.end_ + 1 - range.val.start > limit then .ok none else .ok (spanned range more)
      else Checked.fault := by
  have hadjoins := h.adjoins
  obtain ⟨hordered, hbounded⟩ := range.property
  obtain ⟨hordered', hbounded'⟩ := more.property
  have hmax : u64Max = Checked.wordMax := rfl
  have hlen : range.val.len = range.val.end_ - range.val.start + 1 := by
    rw [ByteRange.len, saturatingAdd, min_eq_left]
    omega
  have hlen' : more.val.len = more.val.end_ - more.val.start + 1 := by
    rw [ByteRange.len, saturatingAdd, min_eq_left]
    omega
  have hsum : range.val.len + more.val.len = more.val.end_ + 1 - range.val.start := by omega
  unfold mergedRange
  rw [h.request_range, h.next_range]
  dsimp only
  rw [if_pos ⟨⟨h.adjoins, h.url, h.no_discontinuity⟩, h.plain⟩, Checked.add, hsum]
  split
  · rfl
  · rfl

theorem Joins.spanned_eq {request next : HlsSegment} {range more : Bytes} (h : Joins request next range more) :
    ∃ whole : Bytes, spanned range more = some whole ∧ whole.val.start = range.val.start ∧
      whole.val.end_ = more.val.end_ := by
  have hadjoins := h.adjoins
  have hordered := range.property.ordered
  have hordered' := more.property.ordered
  have hle : range.val.start ≤ more.val.end_ := by omega
  exact ⟨_, dif_pos hle, rfl, rfl⟩

theorem mergedRange_ok {request next : HlsSegment} {limit : Nat} {whole : Bytes}
    (h : mergedRange request next limit = .ok (some whole)) :
    ∃ range more, Joins request next range more ∧ whole.val.start = range.val.start ∧ whole.val.end_ = more.val.end_ ∧
      whole.val.end_ + 1 - whole.val.start ≤ limit := by
  by_cases hjoins : ∃ range more, Joins request next range more
  · obtain ⟨range, more, hjoins⟩ := hjoins
    obtain ⟨spanned, hspanned, hstart, hend⟩ := hjoins.spanned_eq
    rw [hjoins.mergedRange_eq, hspanned] at h
    split at h
    · split at h
      · cases h
      · cases h
        exact ⟨range, more, hjoins, hstart, hend, by rw [hstart, hend]; omega⟩
    · cases h
  · rw [mergedRange_of_not_joins fun range more hj => hjoins ⟨range, more, hj⟩] at h
    cases h

/-- The sum overflows only where the two together are all of `0..=u64::MAX`. -/
theorem mergedRange_fault {request next : HlsSegment} {limit : Nat} (h : mergedRange request next limit = Checked.fault) :
    ∃ range more, Joins request next range more ∧ range.val.start = 0 ∧ more.val.end_ = Checked.wordMax := by
  by_cases hjoins : ∃ range more, Joins request next range more
  · obtain ⟨range, more, hjoins⟩ := hjoins
    rw [hjoins.mergedRange_eq] at h
    split at h
    · split at h <;> cases h
    next hover =>
      have hbounded : more.val.end_ ≤ Checked.wordMax := more.property.bounded
      exact ⟨range, more, hjoins, by omega, by omega⟩
  · rw [mergedRange_of_not_joins fun range more hj => hjoins ⟨range, more, hj⟩] at h
    cases h

/-- A segment that follows another joins what has that one's end. -/
theorem Follows.joins {a b : Listed} (h : Follows a b) {request : HlsSegment} {range : Bytes}
    (hrange : request.byteRange = some range) (hurl : request.url = a.1.url) (hplain : request.encryption = none)
    (hend : ∀ r, a.1.byteRange = some r → range.val.end_ = r.val.end_) :
    ∃ more, b.1.byteRange = some more ∧ Joins request b.1 range more := by
  obtain ⟨r, more, hr, hmore, hadjoins⟩ := h.adjoins
  exact ⟨more, hmore, hrange, hmore, (congrArg (· + 1) (hend r hr)).trans hadjoins, hurl.trans h.url,
    h.no_discontinuity, hplain, h.plain.2⟩

/-! ## The plan, a segment at a time -/

theorem fetches_single (limit : Nat) (s : Listed) : Fetches limit ⟨s.1, s.2, []⟩ s [] where
  segment := rfl
  with_init := rfl
  follows := List.isChain_singleton s
  alone := fun _ => ⟨rfl, rfl⟩
  together := fun h => absurd rfl h

/-- A request ends where its last segment does. -/
theorem Fetches.last_range {limit : Nat} {request : Request} {first last : Listed} {front rest : List Listed}
    (h : Fetches limit request first rest) (hlast : first :: rest = front ++ [last]) {range : Bytes}
    (hrange : request.segment.byteRange = some range) : ∃ r, last.1.byteRange = some r ∧ r.val.end_ = range.val.end_ := by
  cases hrest : rest with
  | nil =>
    rw [hrest] at hlast
    have hone : [] ++ [first] = front ++ [last] := hlast
    obtain ⟨-, hsame⟩ := List.append_inj' hone rfl
    cases hsame
    exact ⟨range, (h.alone hrest).1 ▸ hrange, rfl⟩
  | cons next rest' =>
    obtain ⟨hmerged, whole, hwhole, -, hchain⟩ := h.together (by simp [hrest])
    obtain rfl : whole = range := Option.some.inj (hwhole.symm.trans hrange)
    rw [hlast, List.map_append] at hmerged
    obtain ⟨init, tail, hsplit, -, htail⟩ := List.map_eq_append_iff.mp hmerged
    obtain ⟨r, rfl, hr⟩ : ∃ r, tail = [r] ∧ some r = last.1.byteRange := by
      cases tail with
      | nil => simp at htail
      | cons r tail =>
        cases tail with
        | nil => exact ⟨r, rfl, by simpa using htail⟩
        | cons => simp at htail
    rw [hsplit] at hchain
    exact ⟨r, hr.symm, Nat.succ.inj (chain_concat.mp hchain).2.2⟩

/-- What joins a request follows its last segment. -/
theorem Fetches.last_follows {limit : Nat} {request : Request} {first last next : Listed} {front rest : List Listed}
    {range more : Bytes} (h : Fetches limit request first rest) (hlast : first :: rest = front ++ [last])
    (hflag : next.2 = false) (hjoins : Joins request.segment next.1 range more) : Follows last next := by
  obtain ⟨r, hr, hr_end⟩ := h.last_range hlast hjoins.request_range
  have hin : last ∈ first :: rest := hlast ▸ List.mem_append_right front (List.mem_singleton_self last)
  have hurl : last.1.url = request.segment.url := by
    rw [h.segment]
    rcases List.mem_cons.mp hin with rfl | hin
    · rfl
    · exact Follows.url_of_chain h.follows last hin
  have hplain : last.1.encryption = none := by
    rcases List.mem_cons.mp hin with rfl | hin
    · have hfirst := hjoins.plain.1
      rwa [h.segment] at hfirst
    · obtain ⟨before, after, rfl⟩ := List.append_of_mem hin
      have hchain := h.follows
      obtain ⟨prev, hprev⟩ : ∃ prev, prev ∈ (first :: before).getLast? := ⟨_, List.getLast?_eq_getLast_of_ne_nil (by simp)⟩
      rw [← List.cons_append, List.isChain_append] at hchain
      exact (hchain.2.2 prev hprev last rfl).plain.2
  exact ⟨⟨r, more, hr, hjoins.next_range, hr_end ▸ hjoins.adjoins⟩, hurl.trans hjoins.url, ⟨hplain, hjoins.plain.2⟩,
    hjoins.no_discontinuity, hflag⟩

theorem Fetches.extend {limit : Nat} {request : Request} {first next : Listed} {rest : List Listed} {whole : Bytes}
    (h : Fetches limit request first rest) (hflag : next.2 = false)
    (hmerged : mergedRange request.segment next.1 limit = .ok (some whole)) :
    Fetches limit (request.extend next.1 whole) first (rest ++ [next]) := by
  obtain ⟨range, more, hjoins, hstart, hend, hlimit⟩ := mergedRange_ok hmerged
  refine ⟨?_, h.with_init, ?_, fun hnil => absurd hnil (by simp), fun _ => ?_⟩
  · show { request.segment with byteRange := some whole } = { first.1 with byteRange := some whole }
    rw [h.segment]
  · rw [← List.cons_append, List.isChain_append]
    refine ⟨h.follows, List.isChain_singleton next, fun last hlast y hy => ?_⟩
    obtain ⟨front, hsplit⟩ := List.getLast?_eq_some_iff.mp hlast
    rw [List.head?_cons, Option.mem_some_iff] at hy
    exact hy ▸ h.last_follows hsplit hflag hjoins
  · cases rest with
    | nil =>
      obtain ⟨hsame, hempty⟩ := h.alone rfl
      rw [hjoins.request_range] at hsame
      have hlist : (request.extend next.1 whole).merged = [range, more] := by
        simp [Request.extend, hempty, hjoins.request_range, hjoins.next_range]
      refine ⟨by simp [hlist, hsame.symm, hjoins.next_range], whole, rfl, hlimit, ?_⟩
      rw [hlist]
      exact ⟨hstart.symm, range.property.ordered, hjoins.adjoins.symm, more.property.ordered,
        congrArg (· + 1) hend.symm⟩
    | cons second rest =>
      obtain ⟨hmap, whole', hwhole', -, hchain⟩ := h.together (List.cons_ne_nil _ _)
      obtain rfl : whole' = range := Option.some.inj (hwhole'.symm.trans hjoins.request_range)
      have hne : request.merged.isEmpty = false := by
        cases hm : request.merged with
        | nil => simp [hm] at hmap
        | cons => rfl
      have hlist : (request.extend next.1 whole).merged = request.merged ++ [more] := by
        simp [Request.extend, hne, hjoins.next_range]
      refine ⟨?_, whole, rfl, hlimit, ?_⟩
      · rw [hlist, List.map_append, hmap, ← List.cons_append, List.map_append]
        simp [hjoins.next_range]
      · rw [hlist, chain_concat, hstart, ← hjoins.adjoins]
        exact ⟨hchain, by rw [hjoins.adjoins]; exact more.property.ordered, congrArg (· + 1) hend.symm⟩

theorem Planned.push {limit : Nat} {requests : List Request} {segments : List Listed} (h : Planned limit requests segments)
    (next : Listed) : Planned limit (requests ++ [⟨next.1, next.2, []⟩]) (segments ++ [next]) := by
  obtain ⟨runs, hruns, rfl⟩ := h
  refine ⟨runs ++ [(next, [])], ?_, by simp⟩
  exact List.rel_append hruns (List.Forall₂.cons (fetches_single limit next) List.Forall₂.nil)

/-- The last request is that of the last run. -/
theorem Planned.last {limit : Nat} {requests : List Request} {last : Request} {segments : List Listed}
    (h : Planned limit (requests ++ [last]) segments) :
    ∃ before first rest, Planned limit requests before ∧ Fetches limit last first rest ∧
      segments = before ++ first :: rest := by
  obtain ⟨runs, hruns, rfl⟩ := h
  rw [← List.forall₂_reverse_iff, List.reverse_append, List.reverse_singleton, List.singleton_append,
    List.forall₂_cons_left_iff] at hruns
  obtain ⟨run, back, hlast, hback, hruns⟩ := hruns
  obtain rfl : runs = back.reverse ++ [run] := by rw [← List.reverse_cons, ← hruns, List.reverse_reverse]
  refine ⟨_, run.1, run.2, ⟨back.reverse, ?_, rfl⟩, hlast, by simp⟩
  rw [← List.forall₂_reverse_iff, List.reverse_reverse]
  exact hback

theorem Planned.extend {limit : Nat} {requests : List Request} {last : Request} {segments : List Listed} {next : Listed}
    {whole : Bytes} (h : Planned limit (requests ++ [last]) segments) (hflag : next.2 = false)
    (hmerged : mergedRange last.segment next.1 limit = .ok (some whole)) :
    Planned limit (requests ++ [last.extend next.1 whole]) (segments ++ [next]) := by
  obtain ⟨before, first, rest, ⟨runs, hruns, rfl⟩, hlast, rfl⟩ := h.last
  refine ⟨runs ++ [(first, rest ++ [next])], ?_, by simp⟩
  exact List.rel_append hruns (List.Forall₂.cons (hlast.extend hflag hmerged) List.Forall₂.nil)

/-- A turn that may merge: what the last request becomes. -/
theorem planStep_concat (limit : Nat) (requests : List Request) (last : Request) {next : Listed} (hflag : next.2 = false) :
    planStep limit (requests ++ [last]) next =
      (fun merged => merged.elim (requests ++ [last] ++ [⟨next.1, next.2, []⟩]) fun range =>
        requests ++ [last.extend next.1 range]) <$> mergedRange last.segment next.1 limit := by
  rw [planStep, List.getLast?_concat, List.dropLast_concat]
  dsimp only
  rw [hflag, if_neg (by decide)]
  cases mergedRange last.segment next.1 limit with
  | error e => rfl
  | ok merged => cases merged <;> rfl

/-- A turn goes on with the plan, or its sum overflows. -/
theorem planStep_cases {limit : Nat} {requests : List Request} {segments : List Listed}
    (h : Planned limit requests segments) (next : Listed) :
    (∃ requests', planStep limit requests next = .ok requests' ∧ Planned limit requests' (segments ++ [next])) ∨
      (planStep limit requests next = Checked.fault ∧ next.2 = false ∧
        ∃ front last, requests = front ++ [last] ∧ mergedRange last.segment next.1 limit = Checked.fault) := by
  rcases List.eq_nil_or_concat requests with rfl | ⟨front, last, rfl⟩
  · exact Or.inl ⟨_, rfl, h.push next⟩
  · rw [List.concat_eq_append] at h ⊢
    cases hflag : next.2 with
    | true =>
      refine Or.inl ⟨_, ?_, h.push next⟩
      rw [planStep, List.getLast?_concat]
      dsimp only
      rw [if_pos hflag]
    | false =>
      rw [planStep_concat limit front last hflag]
      cases hmerged : mergedRange last.segment next.1 limit with
      | error e =>
        cases e with
        | fault => exact Or.inr ⟨rfl, rfl, front, last, rfl, hmerged⟩
        | error e => exact e.elim
      | ok merged =>
        cases merged with
        | none => exact Or.inl ⟨_, rfl, h.push next⟩
        | some whole => exact Or.inl ⟨_, rfl, h.extend hflag hmerged⟩

/-! ## When the sum overflows -/

/-- Somewhere a run starts at byte 0 and the segment after it ends at the last byte
64 bits count, and what stands before that one is a single segment or no more than
the limit. -/
def Overruns (limit : Nat) (segments : List Listed) : Prop :=
  ∃ before first middle last after, segments = before ++ first :: (middle ++ last :: after) ∧
    (first :: (middle ++ [last])).IsChain Follows ∧
    (∃ r, first.1.byteRange = some r ∧ r.val.start = 0) ∧
    ∃ r, last.1.byteRange = some r ∧ r.val.end_ = Checked.wordMax ∧ (middle = [] ∨ r.val.start ≤ limit)

/-- A request's range starts where its first segment's does. -/
theorem Fetches.first_range {limit : Nat} {request : Request} {first : Listed} {rest : List Listed}
    (h : Fetches limit request first rest) {range : Bytes} (hrange : request.segment.byteRange = some range) :
    ∃ r, first.1.byteRange = some r ∧ r.val.start = range.val.start := by
  by_cases hrest : rest = []
  · exact ⟨range, (h.alone hrest).1 ▸ hrange, rfl⟩
  · obtain ⟨hmerged, whole, hwhole, -, hchain⟩ := h.together hrest
    obtain rfl : whole = range := Option.some.inj (hwhole.symm.trans hrange)
    cases hm : request.merged with
    | nil => simp [hm] at hmerged
    | cons r merged =>
      rw [hm, List.map_cons, List.map_cons, List.cons.injEq] at hmerged
      rw [hm] at hchain
      exact ⟨r, hmerged.1.symm, hchain.1⟩

/-- A fault is an overrun. -/
theorem Planned.overruns {limit : Nat} {requests : List Request} {last : Request} {segments after : List Listed}
    {next : Listed} (h : Planned limit (requests ++ [last]) segments) (hflag : next.2 = false)
    (hfault : mergedRange last.segment next.1 limit = Checked.fault) : Overruns limit (segments ++ next :: after) := by
  obtain ⟨range, more, hjoins, hstart, hend⟩ := mergedRange_fault hfault
  obtain ⟨before, first, rest, -, hlast, rfl⟩ := h.last
  obtain ⟨r, hr, hr_start⟩ := hlast.first_range hjoins.request_range
  refine ⟨before, first, rest, next, after, by simp, ?_, ⟨r, hr, hr_start.trans hstart⟩, more, hjoins.next_range, hend, ?_⟩
  · rw [← List.cons_append, List.isChain_append]
    refine ⟨hlast.follows, List.isChain_singleton next, fun last' hlast' y hy => ?_⟩
    obtain ⟨front, hsplit⟩ := List.getLast?_eq_some_iff.mp hlast'
    rw [List.head?_cons, Option.mem_some_iff] at hy
    exact hy ▸ hlast.last_follows hsplit hflag hjoins
  · by_cases hrest : rest = []
    · exact Or.inl hrest
    · obtain ⟨-, whole, hwhole, hlimit, -⟩ := hlast.together hrest
      obtain rfl : whole = range := Option.some.inj (hwhole.symm.trans hjoins.request_range)
      have hadjoins := hjoins.adjoins
      exact Or.inr (by omega)

theorem plan_cases {limit : Nat} {requests : List Request} {done : List Listed} (segments : List Listed)
    (h : Planned limit requests done) :
    (∃ requests', segments.foldlM (planStep limit) requests = .ok requests' ∧
      Planned limit requests' (done ++ segments)) ∨
      (segments.foldlM (planStep limit) requests = Checked.fault ∧ Overruns limit (done ++ segments)) := by
  induction segments generalizing requests done with
  | nil => exact Or.inl ⟨requests, rfl, by rwa [List.append_nil]⟩
  | cons next rest ih =>
    rcases planStep_cases h next with ⟨requests', hstep, hplanned⟩ | ⟨hstep, hflag, front, last, rfl, hfault⟩
    · rw [List.foldlM_cons, hstep, ← List.singleton_append, ← List.append_assoc]
      exact ih hplanned
    · refine Or.inr ⟨?_, h.overruns hflag hfault⟩
      rw [List.foldlM_cons, hstep]
      rfl

theorem planned_of_plan {segments : List HlsSegment} {first limit : Nat} {requests : List Request}
    (h : planRequests segments first limit = .ok requests) : Planned limit requests (listed segments first) := by
  have hplanned : Planned limit [] [] := ⟨[], List.Forall₂.nil, rfl⟩
  rcases plan_cases (listed segments first) hplanned with ⟨requests', hplan, hplanned⟩ | ⟨hfault, -⟩
  · rw [planRequests, hplan] at h
    cases h
    exact hplanned
  · rw [planRequests, hfault] at h
    cases h

/-- Along a run the ranges go on to the last one's start. -/
theorem start_le_last {first last : Listed} {middle : List Listed} {r s : Bytes}
    (h : (first :: (middle ++ [last])).IsChain Follows) (hr : first.1.byteRange = some r)
    (hs : last.1.byteRange = some s) : r.val.end_ + 1 ≤ s.val.start := by
  induction middle generalizing first r with
  | nil =>
    rw [List.nil_append, List.isChain_cons_cons] at h
    obtain ⟨r', s', hr', hs', hadjoins⟩ := h.1.adjoins
    rw [hr] at hr'
    rw [hs] at hs'
    cases hr'
    cases hs'
    exact hadjoins.le
  | cons next middle ih =>
    rw [List.cons_append, List.isChain_cons_cons] at h
    obtain ⟨r', next_range, hr', hnext, hadjoins⟩ := h.1.adjoins
    rw [hr] at hr'
    cases hr'
    have hle := ih h.2 hnext
    have hordered := next_range.property.ordered
    omega

/-- From a request that starts at byte 0 the run is merged up to the sum that overflows. -/
theorem run_faults {limit : Nat} {prev last : Listed} {middle after : List Listed} {s : Bytes} {requests : List Request}
    {request : Request} {range : Bytes} (h : (prev :: (middle ++ [last])).IsChain Follows)
    (hlast : last.1.byteRange = some s) (hend : s.val.end_ = Checked.wordMax) (hlimit : middle = [] ∨ s.val.start ≤ limit)
    (hrange : request.segment.byteRange = some range) (hstart : range.val.start = 0)
    (hends : ∀ r, prev.1.byteRange = some r → range.val.end_ = r.val.end_) (hurl : request.segment.url = prev.1.url)
    (hplain : request.segment.encryption = none) :
    (middle ++ last :: after).foldlM (planStep limit) (requests ++ [request]) = Checked.fault := by
  induction middle generalizing prev request range with
  | nil =>
    rw [List.nil_append, List.isChain_cons_cons] at h
    obtain ⟨more, hmore, hjoins⟩ := h.1.joins hrange hurl hplain hends
    obtain rfl : more = s := Option.some.inj (hmore.symm.trans hlast)
    rw [List.nil_append, List.foldlM_cons, planStep_concat _ _ _ h.1.no_init, hjoins.mergedRange_eq, hstart, if_neg (by omega)]
    rfl
  | cons next middle ih =>
    rw [List.cons_append, List.isChain_cons_cons] at h
    obtain ⟨more, hmore, hjoins⟩ := h.1.joins hrange hurl hplain hends
    have hle := start_le_last h.2 hmore hlast
    have hs_le := s.property.ordered
    have hs_limit : s.val.start ≤ limit := hlimit.resolve_left (List.cons_ne_nil _ _)
    obtain ⟨whole, hwhole, hwhole_start, hwhole_end⟩ := hjoins.spanned_eq
    rw [List.cons_append, List.foldlM_cons, planStep_concat _ _ _ h.1.no_init, hjoins.mergedRange_eq, hstart, if_pos (by omega),
      if_neg (by omega), hwhole]
    have hnext_ends : ∀ r, next.1.byteRange = some r → whole.val.end_ = r.val.end_ := by
      intro r hr
      rw [hmore] at hr
      cases hr
      exact hwhole_end
    exact ih h.2 (Or.inr hs_limit) rfl (hwhole_start.trans hstart) hnext_ends (hurl.trans h.1.url) hplain

/-- Nothing adjoins a range that starts at byte 0. -/
theorem planStep_from_zero (limit : Nat) (requests : List Request) {next : Listed} {range : Bytes}
    (hrange : next.1.byteRange = some range) (hstart : range.val.start = 0) :
    planStep limit requests next = .ok (requests ++ [⟨next.1, next.2, []⟩]) := by
  rcases List.eq_nil_or_concat requests with rfl | ⟨front, last, rfl⟩
  · rfl
  · rw [List.concat_eq_append]
    cases hflag : next.2 with
    | true =>
      rw [planStep, List.getLast?_concat]
      dsimp only
      rw [if_pos hflag, hflag]
    | false =>
      have hapart : ∀ whole more, ¬Joins last.segment next.1 whole more := by
        intro whole more hjoins
        have hadjoins := hjoins.adjoins
        rw [← Option.some.inj (hrange.symm.trans hjoins.next_range), hstart] at hadjoins
        exact absurd hadjoins (Nat.succ_ne_zero _)
      rw [planStep_concat limit front last hflag, mergedRange_of_not_joins hapart, hflag]
      rfl

/-- An overrun is a fault, if it is not after one. -/
theorem Overruns.faults {limit : Nat} {segments : List Listed} (h : Overruns limit segments) :
    segments.foldlM (planStep limit) [] = Checked.fault := by
  obtain ⟨before, first, middle, last, after, rfl, hchain, ⟨range, hrange, hstart⟩, s, hlast, hend, hlimit⟩ := h
  rw [List.foldlM_append]
  have hplanned : Planned limit [] [] := ⟨[], List.Forall₂.nil, rfl⟩
  rcases plan_cases before hplanned with ⟨requests, hbefore, hplanned⟩ | ⟨hfault, -⟩
  · rw [hbefore, Checked.ok_bind, List.foldlM_cons]
    have hfirst := planStep_from_zero limit requests hrange hstart
    obtain ⟨next, hnext⟩ : ∃ next, Follows first next := by
      cases middle with
      | nil => exact ⟨last, (List.isChain_cons_cons.mp hchain).1⟩
      | cons next middle => exact ⟨next, (List.isChain_cons_cons.mp hchain).1⟩
    rw [hfirst, Checked.ok_bind]
    exact run_faults hchain hlast hend hlimit hrange hstart (fun r hr => by rw [hrange] at hr; cases hr; rfl) rfl
      hnext.plain.1
  · rw [hfault]
    rfl

/-- A plan is made just where no run overruns; it covers the segments from the
position on, each once, in order, at its own place, and each of its requests is
that of a run. -/
theorem planRequests_iff (segments : List HlsSegment) (first limit : Nat) :
    (∃ requests, planRequests segments first limit = .ok requests ∧ Planned limit requests (listed segments first) ∧
      (listed segments first).map (·.1) = segments.drop first ∧
      requests.flatMap Request.places = (segments.drop first).map (·.place)) ↔
      ¬Overruns limit (listed segments first) := by
  have hplanned : Planned limit [] [] := ⟨[], List.Forall₂.nil, rfl⟩
  constructor
  · rintro ⟨requests, hplan, -⟩ hover
    rw [planRequests, hover.faults] at hplan
    cases hplan
  · intro hover
    rcases plan_cases (listed segments first) hplanned with ⟨requests, hplan, hplanned⟩ | ⟨-, hbad⟩
    · refine ⟨requests, hplan, hplanned, listed_segments segments first, ?_⟩
      rw [hplanned.places_eq, List.nil_append, ← listed_segments, List.map_map]
      rfl
    · exact absurd hbad hover

/-- A part of a file, as a segment. -/
def partOf (range : Bytes) : HlsSegment where
  index := 0
  sequence := 0
  url := ⟨"http://h/media.ts".toList, by decide⟩
  byteRange := some range
  encryption := none
  init := none
  discontinuity := false

/-- `#EXT-X-BYTERANGE:1@0` and `#EXT-X-BYTERANGE:18446744073709551615@1`. -/
theorem all_of_u64_overflows :
    planRequests [partOf ⟨⟨0, 0⟩, by decide, by decide⟩, partOf ⟨⟨1, u64Max⟩, by decide, by decide⟩] 0 8388608 =
      Checked.fault := by
  rfl

end Hyperfetch.Hls.Vod
