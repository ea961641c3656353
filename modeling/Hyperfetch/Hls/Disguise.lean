import Hyperfetch.Hls.Merge

/-!
# What a request's data is (`fetch_request`, `strip_disguise`)

A segment without an init section is cut to its MPEG-TS packets: from the first
place five packets in a row begin to the last whole packet after it (`kept`).
Segments fetched together are cut as one, segments fetched apart each on its own.
The two give the same where the cuts are the same (`SameCut`): together and apart
the same bytes of the file are kept then, and only then (`places_eq_iff`).

Parameters: the files of a server, each the same at every request, and the
decryption of AES-128. Links do not expire here, so that none are renewed.
-/

namespace Hyperfetch.Hls.Vod

open Weft

/-! ## The cut -/

/-- `PACKET`. -/
def packet : Nat := 188

def packetsAt (data : List UInt8) (i : Nat) : Bool :=
  (List.range 5).all fun k => data[i + k * packet]? == some 0x47

/-- Where the run of packets starts. -/
def runStart (data : List UInt8) : Option Nat := (List.range data.length).find? (packetsAt data)

/-- How many packets on the last one stands. -/
def lastPacket (data : List UInt8) (start : Nat) : Nat :=
  ((List.range ((data.length - start) / packet)).reverse.find? fun k => data[start + k * packet]? == some 0x47).getD 0

/-- What is kept: from where, and to where. -/
def kept (data : List UInt8) : Nat × Nat :=
  match runStart data with
  | none => (0, data.length)
  | some start => (start, start + (lastPacket data start + 1) * packet)

def stripDisguise (data : List UInt8) : List UInt8 := (data.take (kept data).2).drop (kept data).1

/-- The fifth packet of a run is there. -/
theorem packetsAt_fits {data : List UInt8} {i : Nat} (h : packetsAt data i = true) : i + 4 * packet < data.length := by
  have hfifth := List.all_eq_true.mp h 4 (by decide)
  rw [beq_iff_eq] at hfifth
  exact (List.getElem?_eq_some_iff.mp hfifth).1

/-- Something is kept, and it is there. -/
theorem kept_bounds {data : List UInt8} (h : data ≠ []) : (kept data).1 < (kept data).2 ∧ (kept data).2 ≤ data.length := by
  unfold kept
  cases hstart : runStart data with
  | none => exact ⟨List.length_pos_of_ne_nil h, le_refl _⟩
  | some start =>
    dsimp only
    have hfifth := packetsAt_fits (List.find?_some hstart)
    have hlast : lastPacket data start + 1 ≤ (data.length - start) / packet := by
      have hroom : 1 ≤ (data.length - start) / packet := by
        unfold packet at *
        omega
      unfold lastPacket
      cases hfound : (List.range ((data.length - start) / packet)).reverse.find? fun k =>
          data[start + k * packet]? == some 0x47 with
      | none => exact hroom
      | some k => simpa using List.mem_of_find?_eq_some hfound
    have hend : (lastPacket data start + 1) * packet ≤ data.length - start :=
      (Nat.mul_le_mul_right packet hlast).trans (Nat.div_mul_le_self _ _)
    constructor
    · have : 0 < (lastPacket data start + 1) * packet := by
        unfold packet
        omega
      omega
    · omega

/-- What has no room for a run of packets is left as it is. -/
theorem stripDisguise_short {data : List UInt8} (h : data.length ≤ 4 * packet) : stripDisguise data = data := by
  have hnone : runStart data = none := by
    rw [runStart, List.find?_eq_none]
    intro i _ hat
    have hfits := packetsAt_fits hat
    omega
  rw [stripDisguise, kept, hnone]
  show (data.take data.length).drop 0 = data
  rw [List.take_length, List.drop_zero]

/-- The whole is cut in front where its first part is, behind where its last part
is, and no part is cut elsewhere. -/
structure SameCut (first : List UInt8) (middle : List (List UInt8)) (last : List UInt8) : Prop where
  front : (kept (first ++ (middle.flatten ++ last))).1 = (kept first).1
  first_whole : (kept first).2 = first.length
  middle_whole : ∀ part ∈ middle, kept part = (0, part.length)
  last_whole : (kept last).1 = 0
  back : (kept (first ++ (middle.flatten ++ last))).2 = first.length + (middle.flatten.length + (kept last).2)

theorem SameCut.strip_eq {first last : List UInt8} {middle : List (List UInt8)} (h : SameCut first middle last)
    (hfirst : first ≠ []) : stripDisguise (first ++ (middle.flatten ++ last)) =
      ((first :: (middle ++ [last])).map stripDisguise).flatten := by
  have hmiddle : (middle.map stripDisguise).flatten = middle.flatten := by
    have heach : ∀ part ∈ middle, stripDisguise part = part := by
      intro part hpart
      rw [stripDisguise, h.middle_whole part hpart, List.take_length, List.drop_zero]
    rw [List.map_congr_left heach, List.map_id']
  have hbound := (kept_bounds hfirst).1
  have hin : (kept first).1 ≤ first.length := by
    rw [← h.first_whole]
    exact hbound.le
  rw [List.map_cons, List.map_append, List.map_singleton, List.flatten_cons, List.flatten_append, List.flatten_singleton,
    hmiddle]
  conv_lhs => rw [stripDisguise, h.front, h.back]
  rw [List.take_length_add_append, List.take_length_add_append, List.drop_append_of_le_length hin]
  rw [stripDisguise, h.first_whole, List.take_length, stripDisguise, h.last_whole, List.drop_zero]

/-! ## Which bytes of the file are kept -/

/-- The places of what is kept of a part that starts at `offset`. -/
def placesOf (offset : Nat) (part : List UInt8) : List Nat :=
  List.range' (offset + (kept part).1) ((kept part).2 - (kept part).1)

/-- The places of what is kept of parts each cut on its own. -/
def placesApart : Nat → List (List UInt8) → List Nat
  | _, [] => []
  | offset, part :: rest => placesOf offset part ++ placesApart (offset + part.length) rest

/-- What is kept of the parts goes from place `a` to place `b` without a gap. -/
def Gapless : Nat → Nat → Nat → List (List UInt8) → Prop
  | a, b, _, [] => a = b
  | a, b, offset, part :: rest =>
    a = offset + (kept part).1 ∧ Gapless (offset + (kept part).2) b (offset + part.length) rest

theorem Gapless.le {a b offset : Nat} {parts : List (List UInt8)} (hne : ∀ part ∈ parts, part ≠ [])
    (h : Gapless a b offset parts) : a ≤ b := by
  induction parts generalizing a offset with
  | nil => exact le_of_eq h
  | cons part rest ih =>
    have hbounds := kept_bounds (hne part (List.mem_cons_self ..))
    have hle := ih (fun p hp => hne p (List.mem_cons_of_mem _ hp)) h.2
    have hstart := h.1
    omega

theorem range_eq_placesApart_iff {a b offset : Nat} {parts : List (List UInt8)} (hne : ∀ part ∈ parts, part ≠ [])
    (hab : a ≤ b) : List.range' a (b - a) = placesApart offset parts ↔ Gapless a b offset parts := by
  induction parts generalizing a offset with
  | nil =>
    rw [placesApart, List.range'_eq_nil_iff, Gapless]
    omega
  | cons part rest ih =>
    have hrest : ∀ p ∈ rest, p ≠ [] := fun p hp => hne p (List.mem_cons_of_mem _ hp)
    obtain ⟨hlt, -⟩ := kept_bounds (hne part (List.mem_cons_self ..))
    have hsplit : a = offset + (kept part).1 → offset + (kept part).2 ≤ b →
        List.range' a (b - a) = placesOf offset part ++ List.range' (offset + (kept part).2) (b - (offset + (kept part).2)) := by
      intro ha hb
      have happend := @List.range'_append_1 a ((kept part).2 - (kept part).1) (b - (offset + (kept part).2))
      rw [show a + ((kept part).2 - (kept part).1) = offset + (kept part).2 by omega,
        show (kept part).2 - (kept part).1 + (b - (offset + (kept part).2)) = b - a by omega] at happend
      rw [← happend, placesOf, ha]
    rw [placesApart, Gapless]
    constructor
    · intro h
      have hlen := congrArg List.length h
      rw [List.length_append, placesOf, List.length_range', List.length_range'] at hlen
      have hstart : a = offset + (kept part).1 := by
        have hget := congrArg List.head? h
        rw [placesOf, List.head?_append, List.head?_range', List.head?_range', if_neg (by omega), if_neg (by omega)] at hget
        exact Option.some.inj hget
      rw [hsplit hstart (by omega)] at h
      exact ⟨hstart, (ih hrest (by omega)).mp (List.append_cancel_left h)⟩
    · rintro ⟨hstart, h⟩
      have hle := h.le hrest
      rw [hsplit hstart hle, (ih hrest hle).mpr h]

/-- Parts that are to go on from where the one before them is cut or ends. -/
theorem gapless_rest_iff {a b offset : Nat} {middle : List (List UInt8)} {last : List UInt8}
    (hne : ∀ part ∈ middle, part ≠ []) (ha : a ≤ offset) :
    Gapless a b offset (middle ++ [last]) ↔ a = offset ∧ (∀ part ∈ middle, kept part = (0, part.length)) ∧
      (kept last).1 = 0 ∧ b = offset + (middle.flatten.length + (kept last).2) := by
  induction middle generalizing a offset with
  | nil =>
    simp only [List.nil_append, Gapless, List.not_mem_nil, false_implies, implies_true, true_and, List.flatten_nil,
      List.length_nil]
    omega
  | cons part middle ih =>
    obtain ⟨-, hin⟩ := kept_bounds (hne part (List.mem_cons_self ..))
    rw [List.cons_append, Gapless, ih (fun p hp => hne p (List.mem_cons_of_mem _ hp)) (by omega),
      List.forall_mem_cons, Prod.ext_iff, List.flatten_cons, List.length_append]
    dsimp only
    constructor
    · rintro ⟨hstart, hend, hmiddle, hlast, hb⟩
      exact ⟨by omega, ⟨⟨by omega, by omega⟩, hmiddle⟩, hlast, by omega⟩
    · rintro ⟨hstart, ⟨⟨hfront, hback⟩, hmiddle⟩, hlast, hb⟩
      exact ⟨by omega, by omega, hmiddle, hlast, by omega⟩

/-- Cut as one and cut apart the same bytes are kept just where the cuts are the same. -/
theorem places_eq_iff {first last : List UInt8} {middle : List (List UInt8)} (hfirst : first ≠ [])
    (hmiddle : ∀ part ∈ middle, part ≠ []) (hlast : last ≠ []) :
    placesOf 0 (first ++ (middle.flatten ++ last)) = placesApart 0 (first :: (middle ++ [last])) ↔
      SameCut first middle last := by
  have hne : ∀ part ∈ first :: (middle ++ [last]), part ≠ [] := by
    intro part hpart
    rw [List.mem_cons, List.mem_append, List.mem_singleton] at hpart
    rcases hpart with rfl | hpart | rfl
    · exact hfirst
    · exact hmiddle part hpart
    · exact hlast
  have hwhole : first ++ (middle.flatten ++ last) ≠ [] := List.append_ne_nil_of_left_ne_nil hfirst _
  rw [placesOf, Nat.zero_add, range_eq_placesApart_iff hne (kept_bounds hwhole).1.le, Gapless, Nat.zero_add, Nat.zero_add,
    Nat.zero_add, gapless_rest_iff hmiddle (kept_bounds hfirst).2]
  constructor
  · rintro ⟨hfront, hend, hwhole, hstart, hback⟩
    exact ⟨hfront, hend, hwhole, hstart, hback⟩
  · rintro ⟨hfront, hend, hwhole, hstart, hback⟩
    exact ⟨hfront, hend, hwhole, hstart, hback⟩

/-! ## Fetching -/

/-- `MAX_SEGMENT_BYTES`. -/
def maxSegmentBytes : Nat := 256 * 1024 * 1024

section

variable (content : Url → List UInt8) (aes : Aes128Key → List UInt8 → Option (List UInt8))

/-- The bytes of a range of a file. -/
def sliceOf (file : List UInt8) (range : Bytes) : List UInt8 :=
  (file.drop range.val.start).take (range.val.end_ + 1 - range.val.start)

/-- `fetch_once`: the body, all that was asked for and no more than `maxBytes`. -/
def fetchOnce (url : Url) (range : Option Bytes) (maxBytes : Nat) : Option (List UInt8) :=
  match range with
  | none => if (content url).length ≤ maxBytes then some (content url) else none
  | some r =>
    let body := sliceOf (content url) r
    if body.length ≤ maxBytes ∧ body.length = r.val.len then some body else none

def limitOf (range : Option Bytes) : Nat := range.elim maxSegmentBytes fun r => min r.val.len maxSegmentBytes

def decrypt (data : List UInt8) (key : Option Aes128Key) : Option (List UInt8) :=
  key.elim (some data) fun key => aes key data

/-- The init section, where it is asked for. -/
def initData (segment : HlsSegment) (withInit : Bool) : Option (List UInt8) :=
  match segment.init.filter fun _ => withInit with
  | none => some []
  | some init => do
    let data ← fetchOnce content init.url init.byteRange (limitOf init.byteRange)
    decrypt aes data init.encryption

/-- Only MPEG-TS is disguised; a segment with an init section is left as it is. -/
def cleaned (segment : HlsSegment) (data : List UInt8) : List UInt8 :=
  if segment.init.isNone then stripDisguise data else data

def fetchSegmentOnce (segment : HlsSegment) (withInit : Bool) : Option (List UInt8) := do
  let before ← initData content aes segment withInit
  let data ← fetchOnce content segment.url segment.byteRange (limitOf segment.byteRange)
  let data ← decrypt aes data segment.encryption
  some (before ++ cleaned segment data)

/-- One of the segments fetched together. -/
def Request.part (request : Request) (i : Nat) (range : Bytes) : HlsSegment :=
  { request.segment with
    index := request.segment.index + i
    sequence := request.segment.sequence + i
    byteRange := some range }

/-- The segments of a request, each fetched on its own. -/
def fetchApart (request : Request) : Option (List UInt8) :=
  (request.merged.zipIdx.mapM fun row =>
    fetchSegmentOnce content aes (request.part row.2 row.1) (request.withInit && row.2 == 0)).map List.flatten

/-- `fetch_request`; `refused` says whether the server refuses, or cuts short, what
is fetched for several segments. -/
def fetchRequest (refused : Bool) (request : Request) : Option (List UInt8) :=
  if request.merged.isEmpty then fetchSegmentOnce content aes request.segment request.withInit
  else
    match if refused then none else fetchSegmentOnce content aes request.segment request.withInit with
    | some data => some data
    | none => fetchApart content aes request

/-! ## Together and apart -/

/-- What the server has of each segment of a request. -/
def Request.bodies (request : Request) : List (List UInt8) := request.merged.map (sliceOf (content request.segment.url))

/-- What parts are cut to is the same whether they are cut as one or apart. -/
def SameCuts (parts : List (List UInt8)) : Prop :=
  ∃ first middle last, parts = first :: (middle ++ [last]) ∧ SameCut first middle last

variable {content} {aes}

/-- A request for several segments has one range, their ranges' chain, and no key. -/
theorem Planned.merged_request {limit : Nat} {requests : List Request} {segments : List Listed} {request : Request}
    (h : Planned limit requests segments) (hrequest : request ∈ requests) (hmerged : request.merged ≠ []) :
    ∃ whole, request.segment.byteRange = some whole ∧ request.segment.encryption = none ∧ 2 ≤ request.merged.length ∧
      Chain (fun r : Bytes => r.val.start) (fun r => r.val.end_) whole.val.start (whole.val.end_ + 1) request.merged := by
  obtain ⟨first, rest, hfetches⟩ := h.fetches hrequest
  cases rest with
  | nil => exact absurd (hfetches.alone rfl).2 hmerged
  | cons next rest =>
    obtain ⟨hmap, whole, hwhole, -, hchain⟩ := hfetches.together (List.cons_ne_nil _ _)
    have hlength := congrArg List.length hmap
    simp only [List.length_map, List.length_cons] at hlength
    have hplain : request.segment.encryption = none := by
      rw [hfetches.segment]
      exact (List.isChain_cons_cons.mp hfetches.follows).1.plain.1
    exact ⟨whole, hwhole, hplain, by omega, hchain⟩

/-- The slices of ranges that adjoin are one slice. -/
theorem slices_flatten (file : List UInt8) {a b : Nat} {ranges : List Bytes}
    (h : Chain (fun r : Bytes => r.val.start) (fun r => r.val.end_) a b ranges) :
    (ranges.map (sliceOf file)).flatten = (file.drop a).take (b - a) := by
  induction ranges generalizing a with
  | nil =>
    have hab : a = b := h
    simp [hab]
  | cons r rest ih =>
    obtain ⟨hstart, hordered, hrest⟩ := h
    have hle := hrest.le
    dsimp only at hstart hordered hrest hle
    rw [List.map_cons, List.flatten_cons, ih hrest, sliceOf, hstart,
      show b - a = (r.val.end_ + 1 - a) + (b - (r.val.end_ + 1)) by omega, List.take_add, List.drop_drop,
      show a + (r.val.end_ + 1 - a) = r.val.end_ + 1 by omega]

/-- A range within a chain. -/
theorem within_chain {a b : Nat} {ranges : List Bytes}
    (h : Chain (fun r : Bytes => r.val.start) (fun r => r.val.end_) a b ranges) {r : Bytes} (hr : r ∈ ranges) :
    a ≤ r.val.start ∧ r.val.end_ + 1 ≤ b := by
  induction ranges generalizing a with
  | nil => exact absurd hr (List.not_mem_nil)
  | cons next rest ih =>
    obtain ⟨hstart, hordered, hrest⟩ := h
    have hle := hrest.le
    dsimp only at hstart hordered hrest hle
    rcases List.mem_cons.mp hr with rfl | hr
    · omega
    · have := ih hrest hr
      omega

/-- Where the whole of a range is got, the file has it. -/
theorem fetchOnce_whole {url : Url} {whole : Bytes} {body : List UInt8}
    (h : fetchOnce content url (some whole) (limitOf (some whole)) = some body) :
    body = sliceOf (content url) whole ∧ whole.val.end_ + 1 ≤ (content url).length ∧
      whole.val.end_ + 1 - whole.val.start ≤ maxSegmentBytes := by
  unfold fetchOnce at h
  dsimp only at h
  split at h
  next hfits =>
    cases h
    obtain ⟨hmax, hlen⟩ := hfits
    have hle : whole.val.len ≤ maxSegmentBytes := by
      rw [← hlen]
      exact hmax.trans (min_le_right _ _)
    have hordered := whole.property.ordered
    have hcount : whole.val.len = whole.val.end_ - whole.val.start + 1 := by
      rw [ByteRange.len, saturatingAdd] at hle ⊢
      refine min_eq_left ?_
      by_contra hover
      rw [min_eq_right (by omega)] at hle
      exact absurd hle (by decide)
    rw [sliceOf, List.length_take, List.length_drop, hcount] at hlen
    exact ⟨rfl, by omega, by omega⟩
  next => cases h

/-- A range the file has is got, if it is not too large. -/
theorem fetchOnce_part {url : Url} {r : Bytes} (hin : r.val.end_ + 1 ≤ (content url).length)
    (hmax : r.val.end_ + 1 - r.val.start ≤ maxSegmentBytes) :
    fetchOnce content url (some r) (limitOf (some r)) = some (sliceOf (content url) r) := by
  have hordered := r.property.ordered
  have hsmall : maxSegmentBytes ≤ u64Max := by decide
  have hlen : (sliceOf (content url) r).length = r.val.len := by
    rw [sliceOf, List.length_take, List.length_drop, ByteRange.len, saturatingAdd]
    omega
  have hcount : r.val.len ≤ maxSegmentBytes := by
    rw [ByteRange.len, saturatingAdd]
    omega
  exact if_pos ⟨hlen.le.trans (le_min (le_refl _) hcount), hlen⟩

theorem mapM_zipIdx {α β : Type} {f : α × Nat → Option β} {g : α → β} {xs : List α} {n : Nat}
    (h : ∀ x ∈ xs, ∀ i ≥ n, f (x, i) = some (g x)) : (xs.zipIdx n).mapM f = some (xs.map g) := by
  induction xs generalizing n with
  | nil => rfl
  | cons x xs ih =>
    have hrest := ih (n := n + 1) fun y hy i hi => h y (List.mem_cons_of_mem _ hy) i (by omega)
    rw [List.zipIdx_cons, List.mapM_cons, h x (List.mem_cons_self ..) n (le_refl n), hrest]
    rfl

/-- Fetched together, the body is that of the parts, and none of them is empty. -/
theorem body_eq_bodies {request : Request} {whole : Bytes} {body : List UInt8}
    (hchain : Chain (fun r : Bytes => r.val.start) (fun r => r.val.end_) whole.val.start (whole.val.end_ + 1) request.merged)
    (hbody : fetchOnce content request.segment.url (some whole) (limitOf (some whole)) = some body) :
    body = (request.bodies content).flatten ∧ ∀ part ∈ request.bodies content, part ≠ [] := by
  obtain ⟨rfl, hin, -⟩ := fetchOnce_whole hbody
  refine ⟨(slices_flatten _ hchain).symm, fun part hpart => ?_⟩
  obtain ⟨r, hr, rfl⟩ := List.mem_map.mp hpart
  have hwithin := within_chain hchain hr
  have hordered := r.property.ordered
  apply List.ne_nil_of_length_pos
  rw [sliceOf, List.length_take, List.length_drop]
  omega

/-- What got together is got apart too, each part cleaned on its own. -/
theorem fetchApart_eq {request : Request} {whole : Bytes} {data : List UInt8}
    (hrange : request.segment.byteRange = some whole) (hplain : request.segment.encryption = none)
    (hmerged : request.merged ≠ [])
    (hchain : Chain (fun r : Bytes => r.val.start) (fun r => r.val.end_) whole.val.start (whole.val.end_ + 1) request.merged)
    (hdata : fetchSegmentOnce content aes request.segment request.withInit = some data) :
    ∃ before body, fetchOnce content request.segment.url (some whole) (limitOf (some whole)) = some body ∧
      data = before ++ cleaned request.segment body ∧
      fetchApart content aes request = some (before ++ ((request.bodies content).map (cleaned request.segment)).flatten) := by
  obtain ⟨before, hbefore, hdata⟩ := Option.bind_eq_some_iff.mp hdata
  obtain ⟨body, hbody, hdata⟩ := Option.bind_eq_some_iff.mp hdata
  rw [hplain] at hdata
  rw [hrange] at hbody
  refine ⟨before, body, hbody, (Option.some.inj hdata).symm, ?_⟩
  obtain ⟨-, hin, hmax⟩ := fetchOnce_whole hbody
  have hpart : ∀ r ∈ request.merged, ∀ i withInit prefixed,
      initData content aes (request.part i r) withInit = some prefixed →
      fetchSegmentOnce content aes (request.part i r) withInit =
        some (prefixed ++ cleaned request.segment (sliceOf (content request.segment.url) r)) := by
    intro r hr i withInit prefixed hinit
    have hwithin := within_chain hchain hr
    have hgot := fetchOnce_part (r := r) (show r.val.end_ + 1 ≤ (content request.segment.url).length by omega) (by omega)
    rw [fetchSegmentOnce, hinit]
    show (fetchOnce content request.segment.url (some r) (limitOf (some r)) >>= _) = _
    rw [hgot]
    show (decrypt aes _ request.segment.encryption >>= _) = _
    rw [hplain]
    rfl
  cases hlist : request.merged with
  | nil => exact absurd hlist hmerged
  | cons r rest =>
    rw [hlist] at hpart
    have hfirst := hpart r (List.mem_cons_self ..) 0 request.withInit before hbefore
    have hrest := @mapM_zipIdx _ _
      (fun row : Bytes × Nat => fetchSegmentOnce content aes (request.part row.2 row.1) (request.withInit && row.2 == 0))
      (fun r => cleaned request.segment (sliceOf (content request.segment.url) r)) rest 1 (by
        intro r' hr' i hi
        have hlater : (request.withInit && i == 0) = false := by
          rw [Bool.and_eq_false_iff]
          exact Or.inr (beq_eq_false_iff_ne.mpr (by omega))
        have hnone : initData content aes (request.part i r') false = some [] := by
          unfold initData
          cases hinit : (request.part i r').init <;> rfl
        show fetchSegmentOnce content aes (request.part i r') (request.withInit && i == 0) = _
        rw [hlater, hpart r' (List.mem_cons_of_mem _ hr') i false [] hnone, List.nil_append])
    rw [fetchApart, hlist, List.zipIdx_cons, List.mapM_cons]
    show ((fetchSegmentOnce content aes (request.part 0 r) (request.withInit && true) >>= _).map _ : Option (List UInt8)) = _
    rw [Bool.and_true, hfirst, hrest]
    simp [Request.bodies, hlist, Function.comp_def]

/-- A run fetched together and apart gives the same, where it has an init section
or its parts' cuts are the same; and together and apart the same bytes are kept just
where the cuts are. -/
theorem merged_fetch_same {segments : List HlsSegment} {first limit : Nat} {requests : List Request} {request : Request}
    (hplan : planRequests segments first limit = .ok requests) (hrequest : request ∈ requests)
    (hmerged : request.merged ≠ []) :
    (request.segment.init.isSome = true ∨ SameCuts (request.bodies content) →
      fetchRequest content aes false request = fetchRequest content aes true request) ∧
    ∀ body, fetchOnce content request.segment.url request.segment.byteRange (limitOf request.segment.byteRange) =
        some body →
      (placesOf 0 body = placesApart 0 (request.bodies content) ↔ SameCuts (request.bodies content)) := by
  obtain ⟨whole, hrange, hplain, hmany, hchain⟩ := (planned_of_plan hplan).merged_request hrequest hmerged
  have hne : request.merged.isEmpty = false := by
    rw [← Bool.not_eq_true, List.isEmpty_iff]
    exact hmerged
  constructor
  · intro hsame
    rw [fetchRequest, fetchRequest, hne]
    cases hdata : fetchSegmentOnce content aes request.segment request.withInit with
    | none => rfl
    | some data =>
      obtain ⟨before, body, hbody, rfl, hapart⟩ := fetchApart_eq hrange hplain hmerged hchain hdata
      obtain ⟨hflat, hparts⟩ := body_eq_bodies hchain hbody
      have hcleaned : cleaned request.segment body = ((request.bodies content).map (cleaned request.segment)).flatten := by
        cases hinit : request.segment.init with
        | some init =>
          have hkept : cleaned request.segment = id := by
            funext data
            rw [cleaned, hinit]
            rfl
          rw [hkept, List.map_id, hflat, id]
        | none =>
          have hcut : cleaned request.segment = stripDisguise := by
            funext data
            rw [cleaned, hinit]
            rfl
          obtain ⟨first, middle, last, hsplit, hsame⟩ := hsame.resolve_left (by simp [hinit])
          rw [hcut, hflat, hsplit, List.flatten_cons, List.flatten_append, List.flatten_singleton]
          exact hsame.strip_eq (hparts first (hsplit ▸ List.mem_cons_self ..))
      rw [hcleaned]
      exact hapart.symm
  · intro body hbody
    rw [hrange] at hbody
    obtain ⟨rfl, hparts⟩ := body_eq_bodies hchain hbody
    obtain ⟨first, middle, last, hsplit⟩ : ∃ first middle last, request.bodies content = first :: (middle ++ [last]) := by
      have hlength : 2 ≤ (request.bodies content).length := by
        rw [Request.bodies, List.length_map]
        exact hmany
      cases hbodies : request.bodies content with
      | nil => simp [hbodies] at hlength
      | cons first rest =>
        have hrest : rest ≠ [] := by
          rintro rfl
          simp [hbodies] at hlength
        exact ⟨first, rest.dropLast, rest.getLast hrest, by rw [List.dropLast_append_getLast]⟩
    rw [hsplit] at hparts ⊢
    have hiff := places_eq_iff (hparts first (List.mem_cons_self ..))
      (fun part hpart => hparts part (List.mem_cons_of_mem _ (List.mem_append_left _ hpart)))
      (hparts last (List.mem_cons_of_mem _ (List.mem_append_right _ (List.mem_singleton_self last))))
    rw [List.flatten_cons, List.flatten_append, List.flatten_singleton, hiff]
    constructor
    · intro hsame
      exact ⟨first, middle, last, rfl, hsame⟩
    · rintro ⟨first', middle', last', heq, hsame⟩
      obtain ⟨rfl, hrest⟩ := List.cons.inj heq
      obtain ⟨rfl, hlast⟩ := List.append_inj' hrest rfl
      cases hlast
      exact hsame

end

/-- The request for a file's first `n` bytes and the `n` after them. -/
def halves (n : Nat) (hn : 0 < n) (hfits : n + (n - 1) ≤ u64Max) : Request where
  segment := partOf ⟨⟨0, n + (n - 1)⟩, Nat.zero_le _, hfits⟩
  withInit := false
  merged := [⟨⟨0, n - 1⟩, Nat.zero_le _, by show n - 1 ≤ u64Max; omega⟩, ⟨⟨n, n + (n - 1)⟩, Nat.le_add_right _ _, hfits⟩]

/-- The segments it is for. -/
def halfSegments (n : Nat) (hn : 0 < n) (hfits : n + (n - 1) ≤ u64Max) : List HlsSegment :=
  (halves n hn hfits).merged.map partOf

/-- Two parts without packets. -/
theorem merged_fetch_plain :
    fetchRequest (fun _ => [1, 2, 3, 4]) (fun _ => some) false (halves 2 (by decide) (by decide)) =
      fetchRequest (fun _ => [1, 2, 3, 4]) (fun _ => some) true (halves 2 (by decide) (by decide)) :=
  (@merged_fetch_same (fun _ => [1, 2, 3, 4]) (fun _ => some) (halfSegments 2 (by decide) (by decide)) 0 8 _ _ rfl
    (List.mem_singleton_self _) (by decide)).1
    (Or.inr ⟨[1, 2], [], [3, 4], rfl, by decide, by decide, by decide, by decide, by decide⟩)

/-- Six packets behind a byte of disguise, in two parts. -/
def disguisedFile : List UInt8 := [0, 0] ++ (List.replicate 6 (0x47 :: List.replicate 187 0)).flatten

/-- Together the disguise is cut; apart no part shows five packets in a row. -/
theorem merged_fetch_differs :
    planRequests (halfSegments 565 (by decide) (by decide)) 0 8388608 = .ok [halves 565 (by decide) (by decide)] ∧
      (fetchRequest (fun _ => disguisedFile) (fun _ => some) false (halves 565 (by decide) (by decide))).map List.length =
        some 1128 ∧
      (fetchRequest (fun _ => disguisedFile) (fun _ => some) true (halves 565 (by decide) (by decide))).map List.length =
        some 1130 := by
  refine ⟨rfl, by decide +kernel, ?_⟩
  have hpart : ∀ r ∈ (halves 565 (by decide) (by decide)).merged, ∀ i ≥ 0,
      fetchSegmentOnce (fun _ => disguisedFile) (fun _ => some) ((halves 565 (by decide) (by decide)).part i r)
        (false && i == 0) = some (sliceOf disguisedFile r) := by
    intro r hr i _
    have hend : r.val.end_ < 1130 ∧ r.val.end_ - r.val.start = 564 := by
      rcases List.mem_pair.mp hr with rfl | rfl
      · exact ⟨by decide, rfl⟩
      · exact ⟨by decide, rfl⟩
    have hlong : disguisedFile.length = 1130 := by decide +kernel
    have hordered := r.property.ordered
    have hgot := @fetchOnce_part (fun _ => disguisedFile) (partOf r).url r (by omega) (by unfold maxSegmentBytes; omega)
    rw [fetchSegmentOnce]
    show (fetchOnce (fun _ => disguisedFile) (partOf r).url (some r) (limitOf (some r)) >>= _) = _
    rw [hgot]
    show some (stripDisguise (sliceOf disguisedFile r)) = _
    -- half of the file has no room for five packets
    rw [stripDisguise_short]
    rw [sliceOf, List.length_take, List.length_drop]
    unfold packet
    omega
  have hapart : fetchApart (fun _ => disguisedFile) (fun _ => some) (halves 565 (by decide) (by decide)) =
      some ((halves 565 (by decide) (by decide)).merged.map (sliceOf disguisedFile)).flatten := by
    unfold fetchApart
    exact congrArg (Option.map List.flatten) (mapM_zipIdx hpart)
  have hfetch : fetchRequest (fun _ => disguisedFile) (fun _ => some) true (halves 565 (by decide) (by decide)) =
      fetchApart (fun _ => disguisedFile) (fun _ => some) (halves 565 (by decide) (by decide)) := by
    rw [fetchRequest, if_neg (by decide), if_pos rfl]
  rw [hfetch, hapart]
  decide +kernel

end Hyperfetch.Hls.Vod
