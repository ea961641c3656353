import Hyperfetch.Repair.Prepare
import Hyperfetch.Weft.Marks
import Hyperfetch.Worker.Response

/-!
# Repairing in place (`repair_in_place`, `fetch_range`)

The gaps are fetched one after the other into the `.part`, each mirror held to the
version it served first. What a fetch has written is marked as completed after it
(`Weft.Honest`), and the file gets its final name only once all of it is completed
(`repaired_repairInPlace`).

What the mirrors answer is given, an answer a request: the repair is left `waiting`
where there are no more. A cancelled pause between two requests ends it as a
cancelled request does.
-/

namespace Hyperfetch.Repair

open Weft

/-- What identifies one version of the file. -/
structure Version where
  etag : Option Text
  lastModified : Option Text
  deriving DecidableEq

namespace Version

def recorded (state : DownloadState) : Version := ⟨state.etag, state.lastModified⟩

def served (headers : HeaderMap) : Version := ⟨headers.text .etag, headers.text .lastModified⟩

/-- Whether `other` may be this version. -/
def matches_ (self other : Version) : Bool :=
  match self.etag, other.etag with
  | some a, some b => a == b
  | _, _ =>
    match self.lastModified, other.lastModified with
    | some a, some b => a == b
    | _, _ => true

/-- The validator for `If-Range`; weak ETags are not allowed there. -/
def ifRange (self : Version) : Option Text :=
  (self.etag.filter fun e => !"W/".toList.isPrefixOf e).or self.lastModified

end Version

inductive FetchError
  /-- Another attempt or mirror may succeed. -/
  | retry (message : String)
  /-- This mirror serves another version of the file. -/
  | wrongVersion (message : String)
  /-- The whole repair stops. -/
  | fatal (message : String)
  deriving DecidableEq

def cancelledText : String := "Repair cancelled by user"

/-- What comes of a body next. -/
inductive Item
  /-- A chunk; where writing it fails, how much was written and why it failed. -/
  | chunk (data : List UInt8) (fault : Option (Nat × String))
  | broken (why : String)
  | cancelled

inductive Answer
  | failed (why : String)
  | cancelled
  | response (status : Nat) (headers : HeaderMap) (body : List Item)

/-- How far a fetch got, what it wrote and how it ended. -/
structure Progress where
  offset : Nat
  log : List (LogEvent UInt8)
  result : Except FetchError Unit

def stopped (offset : Nat) (error : FetchError) : Progress := ⟨offset, [], .error error⟩

/-- The body of an answer for the bytes up to `servedEnd`. -/
def fetchBody (url : String) (servedEnd : Nat) : List Item → Nat → Progress
  | [], offset =>
    if servedEnd < offset then ⟨offset, [], .ok ()⟩
    else stopped offset (.retry s!"{url} ended the response at byte {offset} of {servedEnd}")
  | item :: rest, offset =>
    if servedEnd < offset then ⟨offset, [], .ok ()⟩
    else
      match item with
      | .broken why => stopped offset (.retry s!"error reading from {url}: {why}")
      | .cancelled => stopped offset (.fatal cancelledText)
      | .chunk chunk fault =>
        let data := chunk.take (servedEnd + 1 - offset)
        match fault with
        | some (stored, why) =>
          ⟨offset, [.wrote offset (data.take stored)], .error (.fatal s!"Failed writing repair data: {why}")⟩
        | none =>
          let next := fetchBody url servedEnd rest (offset + data.length)
          { next with log := .wrote offset data :: next.log }

section

variable (url : String) (totalSize : Nat)

/-- `fetch_range`: the version this mirror is held to from now on, and how far the fetch got. -/
def fetchRange (recorded : Version) (seen : Option Version) (offset end_ : Nat) : Answer → Option Version × Progress
  | .failed why => (seen, stopped offset (.retry s!"request to {url} failed: {why}"))
  | .cancelled => (seen, stopped offset (.fatal cancelledText))
  | .response status headers body =>
    let changed := FetchError.wrongVersion s!"the file at {url} changed since it was downloaded"
    if status = 200 then
      -- with our validator it only means that the range was ignored
      if (seen.bind Version.ifRange).all headers.carriesValidator then
        (seen, stopped offset (.retry s!"{url} ignored the range request and sent the whole file"))
      else (seen, stopped offset changed)
    else if status ≠ 206 then
      (seen, stopped offset (.retry s!"{url} answered HTTP {status} instead of 206 Partial Content"))
    else if !(seen.getD recorded).matches_ (.served headers) then (seen, stopped offset changed)
    else
      match headers.text .contentRange with
      | none => (seen, stopped offset (.retry s!"{url} sent 206 without a Content-Range"))
      | some header =>
        let wrong := FetchError.retry (s!"{url} answered Content-Range '{String.ofList header}' for bytes " ++
          s!"{offset}-{end_} of a {totalSize}-byte file")
        match parseContentRange header with
        | .ok (range, some total) =>
          if range.start = offset ∧ range.end_ ≤ end_ ∧ total = totalSize then
            (seen.or (some (.served headers)), fetchBody url range.end_ body offset)
          else (seen, stopped offset wrong)
        | _ => (seen, stopped offset wrong)

end

/-- Between two fetches. -/
structure Repairing where
  completedRanges : List ByteRange
  log : List (LogEvent UInt8)
  /-- The version each mirror served so far. -/
  seen : List (Option Version)
  /-- Why a mirror was dropped. -/
  dropped : List (Option String)

inductive Halt
  /-- For the answer to a request. -/
  | waiting
  | stopped (message : String)
  deriving DecidableEq

def usable (dropped : List (Option String)) : List Nat :=
  (List.range dropped.length).filter fun i => dropped.getD i none == none

/-- What a fetch from `offset` makes of the repair. -/
def fetched (repair : Repairing) (mirror offset : Nat) (fetch : Option Version × Progress) : Repairing :=
  let marked := if offset < fetch.2.offset then [(⟨offset, fetch.2.offset - 1⟩ : ByteRange)] else []
  { repair with
    completedRanges := repair.completedRanges ++ marked
    log := repair.log ++ (fetch.2.log ++ marked.map fun range => .marked range.start range.end_)
    seen := repair.seen.set mirror fetch.1 }

def attemptsPerMirror : Nat := 2

def showRange (range : ByteRange) : String := s!"{range.start}-{range.end_} ({range.len} B)"

section

variable (urls : List String) (totalSize : Nat) (recorded : Version)

/-- One range, from `offset` on; `none` once it is fetched. -/
def repairRange (rangeIdx : Nat) (range : ByteRange) (answers : List Answer) (offset failures : Nat) (repair : Repairing) :
    Repairing × List Answer × Option Halt :=
  if range.end_ < offset then (repair, answers, none)
  else
    let mirrors := usable repair.dropped
    if mirrors = [] then
      (repair, answers, some (.stopped ("Repair stopped: " ++ "; ".intercalate (repair.dropped.filterMap id))))
    else
      match answers with
      | [] => (repair, [], some .waiting)
      | answer :: rest =>
        let mirror := mirrors.getD ((rangeIdx + failures) % mirrors.length) 0
        let fetch :=
          fetchRange (urls.getD mirror "") totalSize recorded (repair.seen.getD mirror none) offset range.end_ answer
        let repair := fetched repair mirror offset fetch
        let failures := if offset < fetch.2.offset then 0 else failures
        match fetch.2.result with
        | .ok () => repairRange rangeIdx range rest fetch.2.offset failures repair
        | .error (.fatal message) => (repair, rest, some (.stopped message))
        | .error (.wrongVersion message) =>
          repairRange rangeIdx range rest fetch.2.offset failures
            { repair with dropped := repair.dropped.set mirror (some message) }
        | .error (.retry message) =>
          if failures + 1 ≥ mirrors.length * attemptsPerMirror then
            (repair, rest, some (.stopped s!"Could not repair range {showRange range}: {message}"))
          else repairRange rangeIdx range rest fetch.2.offset (failures + 1) repair

def repairRanges : List ByteRange → Nat → List Answer → Repairing → Repairing × Option Halt
  | [], _, _, repair => (repair, none)
  | range :: gaps, rangeIdx, answers, repair =>
    match repairRange urls totalSize recorded rangeIdx range answers range.start 0 repair with
    | (repair, answers, none) => repairRanges gaps (rangeIdx + 1) answers repair
    | (repair, _, some halt) => (repair, some halt)

end

/-! ## The end of a repair -/

inductive FinishStep
  | sync
  | rename
  | removeState
  | saveState
  deriving DecidableEq

inductive InPlaceError
  | flush
  | rename
  | saveState
  | repair (message : String)
  deriving DecidableEq

/-- `finish_repair`. -/
def finishRepair (fails : FinishStep → Bool) (state : DownloadState) (complete : Bool) (disk : Disk) :
    Except InPlaceError Unit × Disk :=
  if fails .sync then (.error .flush, disk)
  else if complete && disk.final.isNone then
    if fails .rename then (.error .rename, disk)
    else
      let named := { disk with final := disk.part, part := none }
      (.ok (), if fails .removeState then named else { named with partState := .absent })
  else if fails .saveState then (.error .saveState, disk)
  else
    (.ok (), { disk with partState := .saved { state with completedRanges := mergeRanges state.completedRanges } })

/-- A repair in place: what it has marked and written, and what is on the disk. -/
structure InPlace where
  completedRanges : List ByteRange
  log : List (LogEvent UInt8)
  disk : Disk
  /-- `none` while it waits for an answer. -/
  result : Option (Except InPlaceError Unit)

def repairInPlace (fails : FinishStep → Bool) (urls : List String) (totalSize : Nat) (gaps : List ByteRange)
    (answers : List Answer) (state : DownloadState) (disk : Disk) : InPlace :=
  let start : Repairing :=
    ⟨state.completedRanges, [], List.replicate urls.length none, List.replicate urls.length none⟩
  let run := repairRanges urls totalSize (.recorded state) gaps 0 answers start
  let written := { disk with part := disk.part.map (replay · run.1.log) }
  let finish := finishRepair fails { state with completedRanges := run.1.completedRanges }
    (run.2.isNone && (computeGaps totalSize run.1.completedRanges).isEmpty) written
  match run.2 with
  | some .waiting => ⟨run.1.completedRanges, run.1.log, written, none⟩
  | outcome =>
    ⟨run.1.completedRanges, run.1.log, finish.2, some (match finish.1, outcome with
      | .error e, _ => .error e
      | .ok (), some (.stopped message) => .error (.repair message)
      | .ok (), _ => .ok ())⟩

/-! ## What a fetch writes -/

/-- A fetch of the bytes from `offset` to before `after`: it got no further than it wrote. -/
structure Progress.Advances (progress : Progress) (offset after : Nat) : Prop where
  start : offset ≤ progress.offset
  stop : progress.offset ≤ after
  within : ∀ e ∈ progress.log, e.Within offset after
  unmarked : ∀ i, ¬Marked progress.log i
  written : ∀ i, offset ≤ i → i < progress.offset → Written progress.log i

theorem advances_nothing {offset after : Nat} (h : offset ≤ after) (result : Except FetchError Unit) :
    Progress.Advances ⟨offset, [], result⟩ offset after where
  start := Nat.le_refl offset
  stop := h
  within := fun _ he => absurd he List.not_mem_nil
  unmarked := marked_nil
  written := fun _ hlow hhigh => absurd hhigh (Nat.not_lt.mpr hlow)

theorem Progress.Advances.mono {progress : Progress} {offset after after' : Nat} (h : progress.Advances offset after)
    (hafter : after ≤ after') : progress.Advances offset after' :=
  { h with
    stop := h.stop.trans hafter
    within := fun e he => (h.within e he).mono (Nat.le_refl offset) hafter }

theorem advances_fetchBody (url : String) (servedEnd : Nat) (items : List Item) {offset : Nat}
    (h : offset ≤ servedEnd + 1) : (fetchBody url servedEnd items offset).Advances offset (servedEnd + 1) := by
  induction items generalizing offset with
  | nil =>
    unfold fetchBody
    split
    · exact advances_nothing h _
    · exact advances_nothing h _
  | cons item rest ih =>
    unfold fetchBody
    split
    · exact advances_nothing h _
    next hopen =>
      cases item with
      | broken why => exact advances_nothing h _
      | cancelled => exact advances_nothing h _
      | chunk chunk fault =>
        have hlen : offset + (chunk.take (servedEnd + 1 - offset)).length ≤ servedEnd + 1 := by
          rw [List.length_take]
          omega
        cases fault with
        | some fault =>
          obtain ⟨stored, why⟩ := fault
          refine { start := Nat.le_refl offset, stop := h, within := ?_, unmarked := ?_, written := ?_ }
          · intro e he
            obtain rfl := List.mem_singleton.mp he
            refine ⟨Nat.le_refl offset, le_trans ?_ hlen⟩
            rw [List.length_take]
            omega
          · intro i
            simp [LogEvent.Marks]
          · intro i hlow hhigh
            exact absurd hhigh (Nat.not_lt.mpr hlow)
        | none =>
          -- the rest goes on where this chunk ends
          have hrest := ih hlen
          refine { start := ?_, stop := hrest.stop, within := ?_, unmarked := ?_, written := ?_ }
          · exact le_trans (Nat.le_add_right _ _) hrest.start
          · intro e he
            rcases List.mem_cons.mp he with rfl | he
            · exact ⟨Nat.le_refl offset, hlen⟩
            · exact (hrest.within e he).mono (Nat.le_add_right _ _) (Nat.le_refl _)
          · intro i hi
            rcases marked_cons.mp hi with hi | hi
            · exact hi
            · exact hrest.unmarked i hi
          · intro i hlow hhigh
            apply written_cons.mpr
            rcases Nat.lt_or_ge i (offset + (chunk.take (servedEnd + 1 - offset)).length) with hi | hi
            · exact Or.inl ⟨hlow, hi⟩
            · exact Or.inr (hrest.written i hi hhigh)

theorem advances_fetchRange (url : String) (totalSize : Nat) (recorded : Version) (seen : Option Version)
    {offset end_ : Nat} (h : offset ≤ end_) (answer : Answer) :
    (fetchRange url totalSize recorded seen offset end_ answer).2.Advances offset (end_ + 1) := by
  have hnothing (error : FetchError) : (stopped offset error).Advances offset (end_ + 1) :=
    advances_nothing (h.trans (Nat.le_succ end_)) _
  cases answer with
  | failed why => exact hnothing _
  | cancelled => exact hnothing _
  | response status headers body =>
    simp only [fetchRange]
    split
    · split
      · exact hnothing _
      · exact hnothing _
    split
    · exact hnothing _
    split
    · exact hnothing _
    split
    · exact hnothing _
    split
    next range total hparsed =>
      split
      next hsame =>
        -- a served range is in order and ends within the one asked for
        have hordered : range.start ≤ range.end_ := (parseContentRange_eq_ok.mp hparsed).2.1
        have hbody := advances_fetchBody url range.end_ body (show offset ≤ range.end_ + 1 by omega)
        exact hbody.mono (Nat.succ_le_succ hsame.2.1)
      next => exact hnothing _
    next => exact hnothing _

/-! ## What a run marks -/

/-- From one state of a repair to a later one: what was marked is completed, was
written before, and lies in the gaps. -/
structure Extends (gaps : List ByteRange) (before later : Repairing) (log : List (LogEvent UInt8))
    (marks : List ByteRange) : Prop where
  log_eq : later.log = before.log ++ log
  completed : later.completedRanges = before.completedRanges ++ marks
  honest : Honest log
  covered : ∀ b, Covered marks b ↔ Marked log b
  valid : ∀ m ∈ marks, m.Valid
  inside : ∀ e ∈ log, ∃ gap ∈ gaps, e.Within gap.start (gap.end_ + 1)

theorem not_covered_nil (b : Nat) : ¬Covered [] b := by simp [Covered]

theorem Extends.refl (gaps : List ByteRange) (repair : Repairing) : Extends gaps repair repair [] [] where
  log_eq := (List.append_nil _).symm
  completed := (List.append_nil _).symm
  honest := Honest.of_unmarked marked_nil
  covered := fun b => iff_of_false (not_covered_nil b) (marked_nil b)
  valid := fun _ hm => absurd hm List.not_mem_nil
  inside := fun _ he => absurd he List.not_mem_nil

theorem Extends.trans {gaps : List ByteRange} {first second third : Repairing} {log log' : List (LogEvent UInt8)}
    {marks marks' : List ByteRange} (h : Extends gaps first second log marks)
    (h' : Extends gaps second third log' marks') : Extends gaps first third (log ++ log') (marks ++ marks') where
  log_eq := by rw [h'.log_eq, h.log_eq, List.append_assoc]
  completed := by rw [h'.completed, h.completed, List.append_assoc]
  honest := h.honest.append h'.honest
  covered := fun b => by rw [covered_append, marked_append, h.covered, h'.covered]
  valid := fun m hm => (List.mem_append.mp hm).elim (h.valid m) (h'.valid m)
  inside := fun e he => (List.mem_append.mp he).elim (h.inside e) (h'.inside e)

theorem Extends.mono {gaps gaps' : List ByteRange} {before later : Repairing} {log : List (LogEvent UInt8)}
    {marks : List ByteRange} (h : Extends gaps before later log marks) (hgaps : gaps ⊆ gaps') :
    Extends gaps' before later log marks :=
  { h with
    inside := fun e he => by
      obtain ⟨gap, hgap, hwithin⟩ := h.inside e he
      exact ⟨gap, hgaps hgap, hwithin⟩ }

theorem covered_singleton {r : ByteRange} {b : Nat} : Covered [r] b ↔ r.start ≤ b ∧ b ≤ r.end_ := by simp [Covered]

/-- One fetch marks the bytes it got. -/
theorem extends_fetched {range : ByteRange} (hvalid : range.Valid) {offset : Nat} (hoffset : range.start ≤ offset)
    (repair : Repairing) (mirror : Nat) {fetch : Option Version × Progress}
    (h : fetch.2.Advances offset (range.end_ + 1)) :
    ∃ log marks, Extends [range] repair (fetched repair mirror offset fetch) log marks ∧
      ∀ b, Covered marks b ↔ offset ≤ b ∧ b < fetch.2.offset := by
  have hinside : ∀ e ∈ fetch.2.log, ∃ gap ∈ [range], e.Within gap.start (gap.end_ + 1) := fun e he =>
    ⟨range, List.mem_singleton_self range, (h.within e he).mono hoffset (Nat.le_refl _)⟩
  have hhonest : Honest fetch.2.log := Honest.of_unmarked h.unmarked
  by_cases hmoved : offset < fetch.2.offset
  · have hbounded := hvalid.bounded
    have hstop := h.stop
    have hiff (b : Nat) : Covered [(⟨offset, fetch.2.offset - 1⟩ : ByteRange)] b ↔ offset ≤ b ∧ b < fetch.2.offset := by
      rw [covered_singleton]
      show offset ≤ b ∧ b ≤ fetch.2.offset - 1 ↔ _
      omega
    refine ⟨fetch.2.log ++ [.marked offset (fetch.2.offset - 1)], [⟨offset, fetch.2.offset - 1⟩],
      { log_eq := ?_, completed := ?_, honest := ?_, covered := ?_, valid := ?_, inside := ?_ }, hiff⟩
    · simp only [fetched, if_pos hmoved, List.map_cons, List.map_nil]
    · simp only [fetched, if_pos hmoved]
    · apply hhonest.mark
      intro i hlow hhigh
      exact h.written i hlow (by omega)
    · intro b
      have hunmarked := h.unmarked b
      simp [hunmarked, covered_singleton, LogEvent.Marks]
    · intro m hm
      obtain rfl := List.mem_singleton.mp hm
      exact ⟨Nat.le_sub_one_of_lt hmoved, by show fetch.2.offset - 1 ≤ u64Max; omega⟩
    · intro e he
      rcases List.mem_append.mp he with he | he
      · exact hinside e he
      · obtain rfl := List.mem_singleton.mp he
        exact ⟨range, List.mem_singleton_self range, trivial⟩
  · refine ⟨fetch.2.log, [],
      { log_eq := ?_, completed := ?_, honest := hhonest, covered := ?_, valid := ?_, inside := hinside }, ?_⟩
    · simp only [fetched, if_neg hmoved, List.map_nil, List.append_nil]
    · simp only [fetched, if_neg hmoved]
    · exact fun b => iff_of_false (not_covered_nil b) (h.unmarked b)
    · exact fun _ hm => absurd hm List.not_mem_nil
    · intro b
      refine iff_of_false (not_covered_nil b) ?_
      omega

/-- Only what a repair has marked and written counts. -/
theorem Extends.of_same {gaps : List ByteRange} {before before' later : Repairing} {log : List (LogEvent UInt8)}
    {marks : List ByteRange} (h : Extends gaps before' later log marks) (hlog : before'.log = before.log)
    (hcompleted : before'.completedRanges = before.completedRanges) : Extends gaps before later log marks :=
  { h with
    log_eq := by rw [h.log_eq, hlog]
    completed := by rw [h.completed, hcompleted] }

section

variable (urls : List String) (totalSize : Nat) (recorded : Version)

/-- A range is done once all of it from `offset` on is marked. -/
theorem extends_repairRange (rangeIdx : Nat) {range : ByteRange} (hvalid : range.Valid) (answers : List Answer)
    {offset : Nat} (hoffset : range.start ≤ offset) (failures : Nat) (repair : Repairing) :
    ∃ log marks,
      Extends [range] repair
          (repairRange urls totalSize recorded rangeIdx range answers offset failures repair).1 log marks ∧
        ((repairRange urls totalSize recorded rangeIdx range answers offset failures repair).2.2 = none →
          ∀ b, offset ≤ b → b ≤ range.end_ → Covered marks b) := by
  induction answers generalizing offset failures repair with
  | nil =>
    unfold repairRange
    split
    · exact ⟨[], [], Extends.refl _ repair, fun _ b hlow hhigh => by omega⟩
    · dsimp only
      split
      · exact ⟨[], [], Extends.refl _ repair, fun h => by cases h⟩
      · exact ⟨[], [], Extends.refl _ repair, fun h => by cases h⟩
  | cons answer rest ih =>
    unfold repairRange
    split
    · exact ⟨[], [], Extends.refl _ repair, fun _ b hlow hhigh => by omega⟩
    next hopen =>
      dsimp only
      split
      · exact ⟨[], [], Extends.refl _ repair, fun h => by cases h⟩
      · -- what this fetch marks comes first, what the rest of the run marks follows
        generalize usable repair.dropped = mirrors
        generalize mirrors.getD ((rangeIdx + failures) % mirrors.length) 0 = mirror
        generalize hfetch : fetchRange (urls.getD mirror "") totalSize recorded (repair.seen.getD mirror none) offset
          range.end_ answer = fetch
        have hadvances : fetch.2.Advances offset (range.end_ + 1) := by
          rw [← hfetch]
          exact advances_fetchRange _ _ _ _ (Nat.not_lt.mp hopen) answer
        obtain ⟨log, marks, hstep, hmarks⟩ := extends_fetched hvalid hoffset repair mirror hadvances
        have hon (failures' : Nat) (repair' : Repairing) (hlog : repair'.log = (fetched repair mirror offset fetch).log)
            (hcompleted : repair'.completedRanges = (fetched repair mirror offset fetch).completedRanges) :
            ∃ log marks,
              Extends [range] repair
                  (repairRange urls totalSize recorded rangeIdx range rest fetch.2.offset failures' repair').1 log marks ∧
                ((repairRange urls totalSize recorded rangeIdx range rest fetch.2.offset failures' repair').2.2 = none →
                  ∀ b, offset ≤ b → b ≤ range.end_ → Covered marks b) := by
          obtain ⟨log', marks', hrest, hdone⟩ := ih (hoffset.trans hadvances.start) failures' repair'
          refine ⟨log ++ log', marks ++ marks', hstep.trans (hrest.of_same hlog hcompleted), ?_⟩
          intro hnone b hlow hhigh
          rw [covered_append, hmarks]
          rcases Nat.lt_or_ge b fetch.2.offset with hb | hb
          · exact Or.inl ⟨hlow, hb⟩
          · exact Or.inr (hdone hnone b hb hhigh)
        generalize (if offset < fetch.2.offset then 0 else failures) = failures'
        split
        · exact hon _ _ rfl rfl
        · exact ⟨log, marks, hstep, fun h => by cases h⟩
        · exact hon _ _ rfl rfl
        · split
          · exact ⟨log, marks, hstep, fun h => by cases h⟩
          · exact hon _ _ rfl rfl

/-- Every byte of the gaps is marked once all of them are done. -/
theorem extends_repairRanges {gaps : List ByteRange} (hvalid : ∀ gap ∈ gaps, gap.Valid) (rangeIdx : Nat)
    (answers : List Answer) (repair : Repairing) :
    ∃ log marks,
      Extends gaps repair (repairRanges urls totalSize recorded gaps rangeIdx answers repair).1 log marks ∧
        ((repairRanges urls totalSize recorded gaps rangeIdx answers repair).2 = none →
          ∀ b, Covered gaps b → Covered marks b) := by
  induction gaps generalizing rangeIdx answers repair with
  | nil => exact ⟨[], [], Extends.refl _ repair, fun _ b hb => hb⟩
  | cons range gaps ih =>
    obtain ⟨log, marks, hstep, hdone⟩ := extends_repairRange urls totalSize recorded rangeIdx
      (hvalid range List.mem_cons_self) answers (Nat.le_refl range.start) 0 repair
    have hstep := hstep.mono (List.cons_subset_cons range (List.nil_subset gaps))
    unfold repairRanges
    split
    next repair' answers' hrun =>
      rw [hrun] at hstep hdone
      obtain ⟨log', marks', hrest, hall⟩ := ih (fun gap hgap => hvalid gap (List.mem_cons_of_mem range hgap))
        (rangeIdx + 1) answers' repair'
      refine ⟨log ++ log', marks ++ marks', hstep.trans (hrest.mono (List.subset_cons_self range gaps)), ?_⟩
      intro hnone b hb
      rw [covered_append]
      obtain ⟨gap, hgap, hholds⟩ := hb
      rcases List.mem_cons.mp hgap with rfl | hgap
      · exact Or.inl (hdone rfl b hholds.1 hholds.2)
      · exact Or.inr (hall hnone b ⟨gap, hgap, hholds⟩)
    next repair' answers' halt hrun =>
      rw [hrun] at hstep
      exact ⟨log, marks, hstep, fun h => by cases h⟩

end

/-! ## The whole repair -/

/-- What a repair in place does with a `.part` of which `state` vouches for some bytes. -/
structure Repaired (order : Order) (state : DownloadState) (disk : Disk) (repair : InPlace) : Prop where
  /-- A byte is marked only after it was written. -/
  honest : Honest repair.log
  completed : ∀ b, Covered repair.completedRanges b ↔ Covered state.completedRanges b ∨ Marked repair.log b
  /-- No byte that was vouched for is written, and none past the end. -/
  fresh : ∀ b, Written repair.log b → b < order.totalSize ∧ ¬Covered state.completedRanges b
  kept : ∀ file, disk.part = some file → ∀ b, ¬Written repair.log b → (replay file repair.log)[b]? = file[b]?
  /-- A byte that was written is the one written there last. -/
  latest : ∀ file, disk.part = some file → ∀ before offset data later, repair.log = before ++ .wrote offset data :: later →
    ∀ b, offset ≤ b ∧ b < offset + data.length → ¬Written later b → (replay file repair.log)[b]? = data[b - offset]?
  saved : repair.disk.partState = disk.partState ∨ repair.disk.partState = .absent ∨
    ∃ later, repair.disk.partState = .saved later ∧
      ∀ b, Covered later.completedRanges b ↔ Covered repair.completedRanges b
  /-- Only a file that is completed gets its final name. -/
  named : (repair.disk.final = disk.final ∧ repair.disk.part = disk.part.map (replay · repair.log)) ∨
    (repair.disk.final = disk.part.map (replay · repair.log) ∧ repair.disk.part = none ∧
      ∀ b, b < order.totalSize → Covered repair.completedRanges b)
  done : repair.result = some (.ok ()) → ∀ b, b < order.totalSize → Covered repair.completedRanges b

/-- What the end of a repair leaves. -/
theorem finishRepair_disk (fails : FinishStep → Bool) (state : DownloadState) (hvalid : ∀ r ∈ state.completedRanges, r.Valid)
    (complete : Bool) (disk : Disk) :
    ((finishRepair fails state complete disk).2.final = disk.final ∧
          (finishRepair fails state complete disk).2.part = disk.part ∨
        (finishRepair fails state complete disk).2.final = disk.part ∧
          (finishRepair fails state complete disk).2.part = none ∧ complete = true) ∧
      ((finishRepair fails state complete disk).2.partState = disk.partState ∨
        (finishRepair fails state complete disk).2.partState = .absent ∨
        ∃ later, (finishRepair fails state complete disk).2.partState = .saved later ∧
          ∀ b, Covered later.completedRanges b ↔ Covered state.completedRanges b) := by
  unfold finishRepair
  split
  · exact ⟨Or.inl ⟨rfl, rfl⟩, Or.inl rfl⟩
  · split
    next hcomplete =>
      have hcomplete := (Bool.and_eq_true_iff.mp hcomplete).1
      split
      · exact ⟨Or.inl ⟨rfl, rfl⟩, Or.inl rfl⟩
      · dsimp only
        split
        · exact ⟨Or.inr ⟨rfl, rfl, hcomplete⟩, Or.inl rfl⟩
        · exact ⟨Or.inr ⟨rfl, rfl, hcomplete⟩, Or.inr (Or.inl rfl)⟩
    · split
      · exact ⟨Or.inl ⟨rfl, rfl⟩, Or.inl rfl⟩
      · exact ⟨Or.inl ⟨rfl, rfl⟩, Or.inr (Or.inr ⟨_, rfl, covered_mergeRanges (fits_of_valid hvalid)⟩)⟩

theorem repaired_repairInPlace (fails : FinishStep → Bool) (urls : List String) (order : Order) (answers : List Answer)
    {state : DownloadState} (hvalid : ∀ r ∈ state.completedRanges, r.Valid) {disk : Disk}
    (hpart : ∀ file, disk.part = some file → file.length = order.totalSize) :
    Repaired order state disk (repairInPlace fails urls order.totalSize
      (computeGaps order.totalSize state.completedRanges) answers state disk) := by
  have hgaps := valid_computeGaps order.size_le hvalid
  have hgap (b : Nat) := covered_computeGaps order.size_le (fits_of_valid hvalid) b
  unfold repairInPlace
  dsimp only
  obtain ⟨log, marks, hrun, hall⟩ := extends_repairRanges urls order.totalSize (.recorded state) hgaps 0 answers
    ⟨state.completedRanges, [], List.replicate urls.length none, List.replicate urls.length none⟩
  generalize repairRanges urls order.totalSize (.recorded state) (computeGaps order.totalSize state.completedRanges) 0
    answers ⟨state.completedRanges, [], List.replicate urls.length none, List.replicate urls.length none⟩ = run at hrun hall ⊢
  have hlog : run.1.log = log := hrun.log_eq
  have hcompleted : run.1.completedRanges = state.completedRanges ++ marks := hrun.completed
  have hcovered (b : Nat) : Covered run.1.completedRanges b ↔ Covered state.completedRanges b ∨ Marked log b := by
    rw [hcompleted, covered_append, hrun.covered]
  have hrunValid : ∀ r ∈ run.1.completedRanges, r.Valid := by
    rw [hcompleted]
    exact fun r hr => (List.mem_append.mp hr).elim (hvalid r) (hrun.valid r)
  -- every gap lies in the file, and outside what was vouched for
  have hin : ∀ e ∈ log, e.Within 0 order.totalSize := by
    intro e he
    obtain ⟨gap, hgapmem, hwithin⟩ := hrun.inside e he
    exact hwithin.mono (Nat.zero_le _) ((computeGaps_spec order.size_le hvalid).1 gap hgapmem).2
  have hfresh (b : Nat) (hb : Written log b) : b < order.totalSize ∧ ¬Covered state.completedRanges b := by
    obtain ⟨e, he, hwrites⟩ := hb
    obtain ⟨gap, hgapmem, hwithin⟩ := hrun.inside e he
    obtain ⟨hlow, hhigh⟩ := hwithin.writes hwrites
    exact (hgap b).mp ⟨gap, hgapmem, hlow, Nat.le_of_lt_succ hhigh⟩
  have hwhole (h : run.2 = none) (b : Nat) (hb : b < order.totalSize) : Covered run.1.completedRanges b := by
    rw [hcompleted, covered_append]
    by_cases hvouched : Covered state.completedRanges b
    · exact Or.inl hvouched
    · exact Or.inr (hall h b ((hgap b).mpr ⟨hb, hvouched⟩))
  have hkept (file : List UInt8) (hfile : disk.part = some file) (b : Nat) (hb : ¬Written log b) :
      (replay file log)[b]? = file[b]? := getElem?_replay hin (hpart file hfile).ge hb
  have hlatest (file : List UInt8) (hfile : disk.part = some file) (before : List (LogEvent UInt8)) (offset : Nat)
      (data : List UInt8) (later : List (LogEvent UInt8)) (hsplit : log = before ++ .wrote offset data :: later) (b : Nat)
      (hb : offset ≤ b ∧ b < offset + data.length) (hlater : ¬Written later b) :
      (replay file log)[b]? = data[b - offset]? := by
    rw [hsplit] at hin ⊢
    exact getElem?_replay_last hin (hpart file hfile).ge hb hlater
  obtain ⟨hnames, hsaved⟩ := finishRepair_disk fails { state with completedRanges := run.1.completedRanges } hrunValid
    (run.2.isNone && (computeGaps order.totalSize run.1.completedRanges).isEmpty)
    { disk with part := disk.part.map (replay · run.1.log) }
  rw [hlog] at hnames hsaved ⊢
  split
  · exact ⟨hrun.honest, hcovered, hfresh, hkept, hlatest, Or.inl rfl, Or.inl ⟨rfl, rfl⟩, fun h => by cases h⟩
  next houtcome =>
    refine ⟨hrun.honest, hcovered, hfresh, hkept, hlatest, hsaved, ?_, ?_⟩
    · refine hnames.imp id fun h => ⟨h.1, h.2.1, ?_⟩
      exact hwhole (by simpa using (Bool.and_eq_true_iff.mp h.2.2).1)
    · intro hok
      apply hwhole
      cases hhalt : run.2 with
      | none => rfl
      | some halt =>
        rw [hhalt] at hok houtcome
        cases halt with
        | waiting => exact absurd rfl houtcome
        | stopped message =>
          -- a repair that stopped is not done, however it ended on the disk
          have hok := Option.some.inj hok
          split at hok
          · cases hok
          · cases hok
          · rename_i hnot
            exact absurd rfl (hnot message)

/-- **A repair vouches for no bad byte.** It starts from exactly the bytes that were
recorded, are not broken and are in the file, adds to them only what it has
written, and gives the file its final name only once they are all of it. One that
cannot be set up leaves what `Left` says. -/
theorem repair_vouches (fails : Step → Bool) (finishFails : FinishStep → Bool) (urls : List String) (order : Order)
    {disk : Disk} (hdisk : disk.Readable) (named : Name) (answers : List Answer) :
    Sound disk order (disk.resolveTarget named) (prepareRepair fails order disk named) ∧
      ∀ state after, prepareRepair fails order disk named = (.ok state, after) →
        Repaired order state after (repairInPlace finishFails urls order.totalSize
          (computeGaps order.totalSize state.completedRanges) answers state after) := by
  have hsound := sound_prepareRepair fails order hdisk named
  refine ⟨hsound, fun state after hprepared => ?_⟩
  rw [hprepared] at hsound
  obtain ⟨hexact, -, hpart, -⟩ : Ready disk order (disk.resolveTarget named) state after := hsound
  apply repaired_repairInPlace finishFails urls order answers hexact.valid
  intro file hfile
  obtain rfl : _ = file := Option.some.inj (hpart.symm.trans hfile)
  exact length_setLen 0 order.totalSize _

/-- Four bytes, the second of them broken. -/
def secondBroken : Order where
  fileName := fun _ => "f".toList
  totalSize := 4
  missingRanges := [⟨1, 1⟩]
  urls := ["https://h/f".toList]
  recordedEtag := none
  size_le := by decide
  missing_valid := by
    intro r hr
    obtain rfl := List.mem_singleton.mp hr
    exact ⟨Nat.le_refl 1, by decide⟩

/-- A file at its final name with no state beside it. -/
def finalOnly : Disk := ⟨some [1, 0, 3, 4], none, .absent, .absent⟩

theorem repair_vouches_final :
    Sound finalOnly secondBroken .final (prepareRepair (fun _ => false) secondBroken finalOnly .final) ∧
      ∃ state after, prepareRepair (fun _ => false) secondBroken finalOnly .final = (.ok state, after) ∧
        Repaired secondBroken state after (repairInPlace (fun _ => false) ["https://h/f"] 4
          (computeGaps 4 state.completedRanges) [.failed "timed out"] state after) := by
  have hreadable : finalOnly.Readable := by
    intro name state h
    cases name with
    | final => cases h
    | part => cases h
  have h := repair_vouches (fun _ => false) (fun _ => false) ["https://h/f"] secondBroken hreadable .final
    [.failed "timed out"]
  exact ⟨h.1, _, _, rfl, h.2 _ _ rfl⟩

/-- With no room for the `.part` the repair fails after it has moved the file and saved a state. -/
theorem failed_repair_moves :
    (prepareRepair (· == .reserve) secondBroken finalOnly .final).1 = .error .openFile ∧
      finalOnly.final = some [1, 0, 3, 4] ∧
      (prepareRepair (· == .reserve) secondBroken finalOnly .final).2.final = none ∧
      finalOnly.partState = .absent ∧
      ∃ state, (prepareRepair (· == .reserve) secondBroken finalOnly .final).2.partState = .saved state :=
  ⟨rfl, rfl, rfl, rfl, _, rfl⟩

end Hyperfetch.Repair
