import Hyperfetch.Text
import Hyperfetch.Weft.Fields
import Hyperfetch.Weft.Text
import Hyperfetch.Worker.Attempt

/-!
# The checks of an answer (`check_response`)

What a worker looks at before it writes a byte of an answer's body: the status,
the Content-Range or the Content-Length, and the validator it sent. It asks for
the identity encoding and looks at no Content-Encoding or Content-Type.

A header counts where its first value is text, so the headers are given by
those texts. Parameters: how long a Retry-After asks to wait, and how a status
is shown.
-/

namespace Hyperfetch

open Weft

/-! ## `Content-Range` -/

/-- The total of a Content-Range, which may be `*`. -/
def parseTotal (invalid : RangeError) (text : Text) : Except RangeError (Option Nat) :=
  if text = ['*'] then .ok none else (okOr invalid (readDecimal u64Max text)).map some

/-- Parses `bytes <digits>-<digits>/<digits or *>` with `start <= end < total`. -/
def parseContentRange (header : Text) : Except RangeError (ByteRange × Option Nat) := do
  let invalid := RangeError.invalidHeader (String.ofList header)
  let (unit, spec) ← okOr invalid (splitOnce ' ' (trim header))
  if !eqIgnoreAsciiCase unit "bytes".toList then .error invalid
  else
    let (rangePart, totalPart) ← okOr invalid (splitOnce '/' (trim spec))
    let (startStr, endStr) ← okOr invalid (splitOnce '-' rangePart)
    let start ← okOr invalid (readDecimal u64Max startStr)
    let end_ ← okOr invalid (readDecimal u64Max endStr)
    let range ← ByteRange.new start end_
    let total ← parseTotal invalid totalPart
    if total.any (range.end_ ≥ ·) then .error invalid else .ok (range, total)

/-- The header says `bytes <start>-<end>/<total>`. -/
def SaysRange (header : Text) (start end_ total : Nat) : Prop :=
  ∃ unit spec startStr endStr totalStr : Text,
    trim header = unit ++ ' ' :: spec ∧ ' ' ∉ unit ∧ eqIgnoreAsciiCase unit "bytes".toList = true ∧
    trim spec = startStr ++ '-' :: (endStr ++ '/' :: totalStr) ∧
    Decimal startStr start ∧ Decimal endStr end_ ∧ Decimal totalStr total

theorem parseTotal_eq_some {invalid : RangeError} {text : Text} {total : Nat} :
    parseTotal invalid text = .ok (some total) ↔ Decimal text total ∧ total ≤ u64Max := by
  unfold parseTotal
  split
  · rename_i hstar
    constructor
    · intro h
      cases h
    · rintro ⟨hdec, _⟩
      have hdigit := hdec.all '*' (by simp [hstar])
      exact absurd hdigit (by decide)
  · rw [← readDecimal_eq_some]
    cases readDecimal u64Max text with
    | none => simp [okOr, Except.map]
    | some n => simp [okOr, Except.map]

theorem new_eq_ok_iff {start end_ : Nat} {range : ByteRange} :
    ByteRange.new start end_ = .ok range ↔ start ≤ end_ ∧ range = ⟨start, end_⟩ := by
  unfold ByteRange.new
  split
  · rename_i hgt
    simp only [reduceCtorEq, false_iff, not_and]
    intro hle
    omega
  · rename_i hle
    simp only [Except.ok.injEq, eq_comm]
    exact ⟨fun h => ⟨by omega, h⟩, fun h => h.2⟩

/-- A Content-Range with a total is accepted as the range and total it says. -/
theorem parseContentRange_eq_ok {header : Text} {start end_ total : Nat} :
    parseContentRange header = .ok (⟨start, end_⟩, some total) ↔
      SaysRange header start end_ total ∧ start ≤ end_ ∧ end_ < total ∧ total ≤ u64Max := by
  unfold parseContentRange
  simp only [bind_eq_ok, okOr_eq_ok]
  constructor
  · rintro ⟨⟨unit, spec⟩, hunit, h⟩
    split at h
    · cases h
    · rename_i hbytes
      simp only [bind_eq_ok, okOr_eq_ok, new_eq_ok_iff] at h
      obtain ⟨⟨rangePart, totalPart⟩, hspec, ⟨startStr, endStr⟩, hrange, s, hs, e, he, r, ⟨hse, rfl⟩, t, ht, h⟩ := h
      split at h
      · cases h
      · rename_i hlt
        cases h
        rw [parseTotal_eq_some] at ht
        rw [readDecimal_eq_some] at hs he
        rw [splitOnce_eq_some] at hunit hspec hrange
        obtain ⟨htrim, hspace⟩ := hunit
        refine ⟨⟨unit, spec, startStr, endStr, totalPart, htrim, hspace, by simpa using hbytes, ?_, hs.1, he.1, ht.1⟩,
          hse, by simpa using hlt, ht.2⟩
        have hfront : rangePart = startStr ++ '-' :: endStr := hrange.1
        rw [hspec.1, hfront, List.append_assoc, List.cons_append]
  · rintro ⟨⟨unit, spec, startStr, endStr, totalStr, htrim, hspace, hbytes, hspec, hs, he, ht⟩, hse, hlt, htop⟩
    refine ⟨(unit, spec), splitOnce_eq_some.mpr ⟨htrim, hspace⟩, ?_⟩
    rw [if_neg (by rw [hbytes]; exact Bool.false_ne_true)]
    simp only [bind_eq_ok, okOr_eq_ok, new_eq_ok_iff]
    -- no digit is a separator, so each field ends where it should
    have hslash : '/' ∉ startStr ++ '-' :: endStr := by
      have hstart : '/' ∉ startStr := hs.not_mem (by decide)
      have hend : '/' ∉ endStr := he.not_mem (by decide)
      simp [hstart, hend]
    refine ⟨(startStr ++ '-' :: endStr, totalStr), splitOnce_eq_some.mpr ⟨?_, hslash⟩,
      (startStr, endStr), splitOnce_eq_some.mpr ⟨rfl, hs.not_mem (by decide)⟩,
      start, readDecimal_eq_some.mpr ⟨hs, by omega⟩, end_, readDecimal_eq_some.mpr ⟨he, by omega⟩, ⟨start, end_⟩,
      ⟨hse, rfl⟩, some total, parseTotal_eq_some.mpr ⟨ht, htop⟩, ?_⟩
    · rw [hspec, List.append_assoc, List.cons_append]
    · rw [if_neg (by simpa using hlt)]

/-! ## The answer -/

/-- The headers that are looked at, and two that are not. -/
inductive HeaderName
  | contentRange
  | contentLength
  | etag
  | lastModified
  | retryAfter
  | contentEncoding
  | contentType
  deriving DecidableEq, Repr

structure HeaderMap where
  /-- A header's first value, where it is text (`headers.get(name)?.to_str().ok()`). -/
  text : HeaderName → Option Text

namespace HeaderMap

/-- The header a validator comes from: strong ETags are quoted, dates are not. -/
def validatorName (validator : Text) : HeaderName := if validator.head? = some '"' then .etag else .lastModified

/-- Whether an answer carries the `If-Range` validator that was sent. -/
def carriesValidator (headers : HeaderMap) (validator : Text) : Bool :=
  (headers.text (validatorName validator)).any fun v => trim v == validator

/-- Whether an answer names a version other than that validator. -/
def namesAnotherVersion (headers : HeaderMap) (validator : Text) : Bool :=
  (headers.text (validatorName validator)).any fun v => trim v != validator

/-- `content_length`: `u64`'s own parser also takes a leading plus. -/
def contentLength (headers : HeaderMap) : Option Nat :=
  (headers.text .contentLength).bind fun v =>
    match trim v with
    | '+' :: digits => readDecimal u64Max digits
    | digits => readDecimal u64Max digits

end HeaderMap

/-- Why an attempt failed, with the server's Retry-After if it sent one. -/
structure Failure where
  kind : FailureKind
  retryAfter : Option Nat
  message : String
  deriving DecidableEq, Repr

/-- A text as it is shown in quotes; `to_str` lets no other character through
that is escaped. -/
def debugStr (text : Text) : String :=
  String.ofList ('"' :: (text.flatMap fun c =>
    if c = '"' ∨ c = '\\' then ['\\', c] else if c = '\t' then ['\\', 't'] else [c]) ++ ['"'])

section

variable (retryAfter : HeaderMap → Option Nat) (statusText : Nat → String)

/-- The failure of a 206 that brings other bytes. -/
def wrongRange (header : Option Text) (start end_ fileSize : Nat) : Failure :=
  let shown := debugStr (header.getD "(missing)".toList)
  ⟨.badMirror, none, s!"Content-Range {shown} does not match the request for bytes {start}-{end_} of {fileSize}"⟩

/-- Classifies the response to `Range: bytes=start-end` (with `If-Range: if_range`
when set) for a file of `file_size` bytes. No chunk ends at `u64::MAX`. -/
def checkResponse (status : Nat) (headers : HeaderMap) (start end_ fileSize : Nat) (ifRange : Option Text) :
    Except Failure Unit :=
  if status = 206 then
    let header := headers.text .contentRange
    match header.map parseContentRange with
    | some (.ok (range, some total)) =>
      if range.start = start ∧ total = fileSize then
        match ifRange.filter headers.namesAnotherVersion with
        | some _ =>
          .error ⟨.fatal, none, "remote file changed: server ignored If-Range and sent part of a different version"⟩
        | none => .ok ()
      else .error (wrongRange header start end_ fileSize)
    | _ => .error (wrongRange header start end_ fileSize)
  else if status = 200 then
    let sameFile := ifRange.all headers.carriesValidator
    if start = 0 ∧ (sameFile = true ∨ end_ + 1 = fileSize) then
      match headers.contentLength with
      | some len =>
        if len ≠ fileSize then .error ⟨.badMirror, none, s!"200 response is {len} bytes, expected {fileSize}"⟩
        else .ok ()
      | none => .ok ()
    else if sameFile then .error ⟨.badMirror, none, s!"server ignored Range and sent 200 for offset {start}"⟩
    else .error ⟨.fatal, none, "remote file changed: server ignored If-Range and sent a different version"⟩
  else if status = 416 then
    .error ⟨.fatal, none, s!"remote file changed: 416 Range Not Satisfiable for bytes {start}-{end_}"⟩
  else if status = 401 ∨ status = 403 ∨ status = 404 ∨ status = 410 then
    .error ⟨.denied, none, s!"HTTP {statusText status}"⟩
  else if status = 429 ∨ status = 503 then .error ⟨.throttled, retryAfter headers, s!"HTTP {statusText status}"⟩
  else .error ⟨.transient, none, s!"HTTP {statusText status}"⟩

/-- Reclassifies the failure of an answer from a redirect target. -/
def atRedirectTarget (status : Nat) (failure : Failure) : Failure :=
  if failure.kind = .throttled then failure
  else if 500 ≤ status ∧ status ≤ 599 then failure
  else { failure with kind := .denied }

/-- What the answer lets the worker that asked do next. -/
def answered (redirected : Bool) (status : Nat) : Except Failure Unit → Choice
  | .ok _ => .go
  | .error failure => .fail (if redirected then atRedirectTarget status failure else failure).kind

/-- The bytes of the answer's body belong from `start` on, of a file of
`fileSize` bytes: as its Content-Range says, or as all of the file. -/
inductive Begins (headers : HeaderMap) (start fileSize : Nat) : Nat → Prop
  | partOf {header : Text} {last : Nat} : headers.text .contentRange = some header →
      SaysRange header start last fileSize → start ≤ last → last < fileSize → Begins headers start fileSize 206
  | whole : start = 0 → (∀ len, headers.contentLength = some len → len = fileSize) → Begins headers start fileSize 200

/-- No header of the answer contradicts the validator sent. -/
def SameVersion (headers : HeaderMap) (ifRange : Option Text) : Prop :=
  ∀ v ∈ ifRange, ∀ named, headers.text (HeaderMap.validatorName v) = some named → trim named = v

theorem sameVersion_of_none {headers : HeaderMap} {ifRange : Option Text}
    (h : ifRange.filter headers.namesAnotherVersion = none) : SameVersion headers ifRange := by
  intro v hv named hnamed
  cases hv
  have hnot : headers.namesAnotherVersion v = false := by simpa [Option.filter_eq_none_iff] using h
  simpa [HeaderMap.namesAnotherVersion, hnamed] using hnot

theorem none_of_sameVersion {headers : HeaderMap} {ifRange : Option Text} (h : SameVersion headers ifRange) :
    ifRange.filter headers.namesAnotherVersion = none := by
  cases ifRange with
  | none => rfl
  | some v =>
    rw [Option.filter_eq_none_iff]
    intro w hw
    cases hw
    cases hnamed : headers.text (HeaderMap.validatorName v) with
    | none => simp [HeaderMap.namesAnotherVersion, hnamed]
    | some named => simp [HeaderMap.namesAnotherVersion, hnamed, h v rfl named hnamed]

/-- An answer that carries the validator does not contradict it. -/
theorem sameVersion_of_carries {headers : HeaderMap} {ifRange : Option Text}
    (h : ifRange.all headers.carriesValidator = true) : SameVersion headers ifRange := by
  intro v hv named hnamed
  cases hv
  simpa [HeaderMap.carriesValidator, hnamed] using h

theorem begins_part {headers : HeaderMap} {start fileSize : Nat} : Begins headers start fileSize 206 ↔
    ∃ header last, headers.text .contentRange = some header ∧ SaysRange header start last fileSize ∧
      start ≤ last ∧ last < fileSize := by
  constructor
  · intro h
    cases h with
    | partOf hheader hsaid hle hlt => exact ⟨_, _, hheader, hsaid, hle, hlt⟩
  · rintro ⟨header, last, hheader, hsaid, hle, hlt⟩
    exact .partOf hheader hsaid hle hlt

theorem begins_whole {headers : HeaderMap} {start fileSize : Nat} : Begins headers start fileSize 200 ↔
    start = 0 ∧ ∀ len, headers.contentLength = some len → len = fileSize := by
  constructor
  · intro h
    cases h with
    | whole hstart hlen => exact ⟨hstart, hlen⟩
  · rintro ⟨hstart, hlen⟩
    exact .whole hstart hlen

/-- Which 206s are accepted. -/
theorem accepts_part {headers : HeaderMap} {start end_ fileSize : Nat} {ifRange : Option Text}
    (hsize : fileSize ≤ u64Max) :
    checkResponse retryAfter statusText 206 headers start end_ fileSize ifRange = .ok () ↔
      Begins headers start fileSize 206 ∧ SameVersion headers ifRange := by
  rw [begins_part]
  unfold checkResponse
  rw [if_pos rfl]
  dsimp only
  constructor
  · intro h
    split at h
    · rename_i range total hparse
      obtain ⟨header, hheader, hparse⟩ := Option.map_eq_some_iff.mp hparse
      split at h
      · rename_i hsame
        obtain ⟨s, e⟩ := range
        obtain ⟨rfl, rfl⟩ := hsame
        obtain ⟨hsaid, hle, hlt, _⟩ := parseContentRange_eq_ok.mp hparse
        split at h
        · cases h
        · rename_i hnone
          exact ⟨⟨header, e, hheader, hsaid, hle, hlt⟩, sameVersion_of_none hnone⟩
      · cases h
    · cases h
  · rintro ⟨⟨header, last, hheader, hsaid, hle, hlt⟩, hversion⟩
    have hparse := parseContentRange_eq_ok.mpr ⟨hsaid, hle, hlt, hsize⟩
    rw [hheader, Option.map_some, hparse]
    dsimp only
    rw [if_pos ⟨rfl, rfl⟩, none_of_sameVersion hversion]

/-- Which 200s are accepted. -/
theorem accepts_whole {headers : HeaderMap} {start end_ fileSize : Nat} {ifRange : Option Text} :
    checkResponse retryAfter statusText 200 headers start end_ fileSize ifRange = .ok () ↔
      Begins headers start fileSize 200 ∧ (ifRange.all headers.carriesValidator = true ∨ end_ + 1 = fileSize) := by
  rw [begins_whole]
  unfold checkResponse
  rw [if_neg (by decide), if_pos rfl]
  dsimp only
  by_cases hgo : start = 0 ∧ (ifRange.all headers.carriesValidator = true ∨ end_ + 1 = fileSize)
  · rw [if_pos hgo]
    cases headers.contentLength with
    | none => simp [hgo]
    | some len =>
      by_cases hlen : len = fileSize
      · simp [hlen, hgo]
      · simp [hlen]
  · rw [if_neg hgo]
    constructor
    · intro h
      split at h
      · cases h
      · cases h
    · rintro ⟨⟨hstart, _⟩, hversion⟩
      exact absurd ⟨hstart, hversion⟩ hgo

/-- Nothing else is accepted. -/
theorem status_of_accepted {status : Nat} {headers : HeaderMap} {start end_ fileSize : Nat} {ifRange : Option Text}
    (h : checkResponse retryAfter statusText status headers start end_ fileSize ifRange = .ok ()) :
    status = 206 ∨ status = 200 := by
  by_cases hpartial : status = 206
  · exact .inl hpartial
  · by_cases hwhole : status = 200
    · exact .inr hwhole
    · unfold checkResponse at h
      rw [if_neg hpartial, if_neg hwhole] at h
      split at h
      · cases h
      · split at h
        · cases h
        · split at h
          · cases h
          · cases h

/-- An accepted answer's body begins at the start asked for, in a file of the
size expected as far as the answer says, and of the version asked for unless
all of the file was; whatever is not accepted ends the attempt before it writes. -/
theorem accepted_where_it_belongs {status : Nat} {headers : HeaderMap} {start end_ fileSize : Nat}
    {ifRange : Option Text} (hsize : fileSize ≤ u64Max) :
    let verdict := checkResponse retryAfter statusText status headers start end_ fileSize ifRange
    (verdict = .ok () → Begins headers start fileSize status ∧
      (SameVersion headers ifRange ∨ status = 200 ∧ start = 0 ∧ end_ + 1 = fileSize)) ∧
    (verdict = .ok () ↔
      (status = 206 ∧ Begins headers start fileSize 206 ∧ SameVersion headers ifRange) ∨
      (status = 200 ∧ Begins headers start fileSize 200 ∧
        (ifRange.all headers.carriesValidator = true ∨ end_ + 1 = fileSize))) ∧
    ∀ lease redirected, ∃ stage, (Stage.asking start).step lease (answered redirected status verdict) = some stage ∧
      (verdict = .ok () → stage = .waiting ⟨start, 0⟩) ∧
      (verdict ≠ .ok () → ∃ kind, stage = .settling (.err kind)) := by
  intro verdict
  have hiff : verdict = .ok () ↔
      (status = 206 ∧ Begins headers start fileSize 206 ∧ SameVersion headers ifRange) ∨
      (status = 200 ∧ Begins headers start fileSize 200 ∧
        (ifRange.all headers.carriesValidator = true ∨ end_ + 1 = fileSize)) := by
    constructor
    · intro h
      rcases status_of_accepted retryAfter statusText h with rfl | rfl
      · exact .inl ⟨rfl, (accepts_part retryAfter statusText hsize).mp h⟩
      · exact .inr ⟨rfl, (accepts_whole retryAfter statusText).mp h⟩
    · rintro (⟨rfl, h⟩ | ⟨rfl, h⟩)
      · exact (accepts_part retryAfter statusText hsize).mpr h
      · exact (accepts_whole retryAfter statusText).mpr h
  refine ⟨fun h => ?_, hiff, fun lease redirected => ?_⟩
  · rcases hiff.mp h with ⟨rfl, hbegins, hversion⟩ | ⟨rfl, hbegins, hcarries | hall⟩
    · exact ⟨hbegins, .inl hversion⟩
    · exact ⟨hbegins, .inl (sameVersion_of_carries hcarries)⟩
    · exact ⟨hbegins, .inr ⟨rfl, (begins_whole.mp hbegins).1, hall⟩⟩
  · cases hverdict : verdict with
    | ok u => exact ⟨.waiting ⟨start, 0⟩, rfl, fun _ => rfl, fun hne => absurd rfl hne⟩
    | error failure => exact ⟨_, rfl, fun heq => (by cases heq), fun _ => ⟨_, rfl⟩⟩

end

/-- The headers of an answer, as name and text. -/
def HeaderMap.ofList (entries : List (HeaderName × String)) : HeaderMap :=
  ⟨fun name => (entries.find? fun e => e.1 = name).map fun e => e.2.toList⟩

/-- Bytes 5 to 7 of ten. -/
theorem accepted_where_it_belongs_five :
    Begins (.ofList [(.contentRange, "bytes 5-7/10"), (.etag, "\"v1\"")]) 5 10 206 ∧
      SameVersion (.ofList [(.contentRange, "bytes 5-7/10"), (.etag, "\"v1\"")]) (some "\"v1\"".toList) := by
  have haccepted : checkResponse (fun _ => none) toString 206
      (.ofList [(.contentRange, "bytes 5-7/10"), (.etag, "\"v1\"")]) 5 7 10 (some "\"v1\"".toList) = .ok () := by
    decide
  have h := (accepted_where_it_belongs (fun _ => none) toString (by decide)).1 haccepted
  exact ⟨h.1, h.2.resolve_right fun hwhole => absurd hwhole.1 (by decide)⟩

/-- Another version is accepted when all of the file was asked for, and a
compressed part whenever its range fits. -/
theorem other_renderings_accepted :
    (¬ ∀ (status : Nat) (headers : HeaderMap) (start end_ fileSize : Nat) (ifRange : Option Text),
      checkResponse (fun _ => none) toString status headers start end_ fileSize ifRange = .ok () →
        SameVersion headers ifRange) ∧
    ¬ ∀ (status : Nat) (headers : HeaderMap) (start end_ fileSize : Nat) (ifRange : Option Text),
      checkResponse (fun _ => none) toString status headers start end_ fileSize ifRange = .ok () →
        headers.text .contentEncoding ≠ some "gzip".toList := by
  constructor
  · intro h
    have hsame := h 200 (.ofList [(.contentLength, "10"), (.etag, "\"v2\"")]) 0 9 10 (some "\"v1\"".toList) (by decide)
    exact absurd (hsame _ rfl "\"v2\"".toList (by decide)) (by decide)
  · intro h
    exact h 206 (.ofList [(.contentRange, "bytes 0-9/10"), (.contentEncoding, "gzip")]) 0 9 10 none (by decide) (by decide)

end Hyperfetch
