import Hyperfetch.Weft.TSys
import Mathlib.Data.List.Infix

/-!
# A file downloaded through the page (`bridge.js`)

`downloadFile` asks for one range after another, `streamFile` passes on a body
that comes whole. A step is the answer to a request, a piece of a body, or the
background's reply to a slice. Where a server that did not tell the size sends
the whole file to a request from its middle, the download ends as if it were
over: `resolved_whole_iff` says that nothing else cuts a file short.

Left out: what is shown of the progress and the media type.
-/

namespace Hyperfetch

open Weft

namespace Browser

/-- Bytes per ranged request. -/
def range : Nat := 8 * 1024 * 1024

/-- Bytes per message to the background. -/
def sliceSize : Nat := 8 * 1024 * 1024

/-- Tries per request. -/
def attempts : Nat := 3

/-- What one `fetch` comes to. -/
inductive Answer
  /-- 206: the body, the start and the size its `Content-Range` gives where the
  page may read it (`*` for no size), and whether the body could be read. -/
  | part (bytes : List UInt8) (contentRange : Option (Nat × Option Nat)) (readable : Bool)
  /-- 200, with its `Content-Length`. -/
  | whole (contentLength : Option Nat)
  | refused (status : Nat)
  | failed

/-- Where a delivery goes on: with the next range, `len` bytes after `at_`, or
with the body of a stream. -/
inductive After
  | next (at_ len : Nat)
  | stream (len : Nat) (last : Bool)

inductive Phase
  /-- Waiting for the answer to the `n`-th try for the range at `at_`, asked
  with credentials or without. -/
  | asking (at_ n : Nat) (credentials : Bool)
  /-- The next slice of `rest` is on its way to the background. -/
  | delivering (rest : List UInt8) (after : After)
  /-- Waiting for more of a stream. -/
  | reading (held : List UInt8)
  | resolved
  | thrown

structure Job where
  /-- The file's size, 0 while it is not known. -/
  total : Nat
  done : Nat
  /-- The origin refuses requests with credentials. -/
  plain : Bool
  aborted : Bool
  delivered : List UInt8
  phase : Phase

def Job.start : Job := ⟨0, 0, false, false, [], .asking 0 1 true⟩

inductive Event
  | answer (a : Answer)
  | chunk (bytes : List UInt8)
  | ended
  | broke
  | taken
  | notTaken
  | abort

namespace Job

/-- Asks for the range at `at_`; a request made once aborted fails at once. -/
def ask (job : Job) (at_ n : Nat) : Job :=
  { job with phase := if job.aborted then .thrown else .asking at_ n (!job.plain) }

/-- An attempt failed that may work when tried again. -/
def failAttempt (job : Job) (at_ n : Nat) : Job :=
  if n < attempts then job.ask at_ (n + 1) else { job with phase := .thrown }

/-- A delivery is complete. -/
def goOn (job : Job) : After → Job
  | .next at_ len =>
    let job := { job with done := at_ + len }
    if len = 0 ∨ job.total ≠ 0 ∧ job.total ≤ at_ + len then { job with phase := .resolved }
    else job.ask (at_ + len) 1
  | .stream len last =>
    let job := { job with done := job.done + len }
    if last then { job with phase := .resolved }
    else { job with phase := if job.aborted then .thrown else .reading [] }

/-- Sends the next slice of `rest`. -/
def deliver (job : Job) (rest : List UInt8) (after : After) : Job :=
  if rest.isEmpty then job.goOn after
  else { job with phase := if job.aborted then .thrown else .delivering rest after }

/-- A response of `open` for the range at `at_`. -/
def got (job : Job) (at_ n : Nat) : Answer → Job
  | .part bytes contentRange readable =>
    if readable then
      match contentRange with
      | some (first, size) =>
        if first = at_ then { job with total := size.getD 0 }.deliver bytes (.next at_ bytes.length)
        else { job with phase := .thrown }
      | none => job.deliver bytes (.next at_ bytes.length)
    else job.failAttempt at_ n
  | .whole contentLength =>
    if at_ = 0 then { job with total := contentLength.getD 0, phase := .reading [] }
    -- some servers answer a range past the end with the whole file
    else if job.total = 0 then { job with phase := .resolved }
    else { job with phase := .thrown }
  | .refused status =>
    if 500 ≤ status ∨ status = 408 ∨ status = 429 then job.failAttempt at_ n
    -- asked past the end of a file whose size was not known
    else if at_ ≠ 0 ∧ job.total = 0 ∧ status = 416 then { job with phase := .resolved }
    else { job with phase := .thrown }
  | .failed => job.failAttempt at_ n

/-- The answer to one request of `open`. One with credentials that fails is
made again without them, and the origin remembered once that works. -/
def answered (job : Job) (at_ n : Nat) (credentials : Bool) (a : Answer) : Job :=
  match credentials, a with
  | true, .failed => { job with phase := .asking at_ n false }
  | true, a => job.got at_ n a
  | false, .refused status => if job.plain then job.got at_ n (.refused status) else job.failAttempt at_ n
  | false, .failed => job.failAttempt at_ n
  | false, a => { job with plain := true }.got at_ n a

/-- One step; `none` where it cannot be taken. -/
def step (job : Job) : Event → Option Job
  | .answer a =>
    match job.phase with
    | .asking at_ n credentials => some (job.answered at_ n credentials a)
    | _ => none
  | .chunk bytes =>
    match job.phase with
    | .reading held =>
      if range ≤ (held ++ bytes).length then
        some (job.deliver (held ++ bytes) (.stream (held ++ bytes).length false))
      else some { job with phase := .reading (held ++ bytes) }
    | _ => none
  | .ended =>
    match job.phase with
    | .reading held =>
      if held.isEmpty then some { job with phase := .resolved }
      else some (job.deliver held (.stream held.length true))
    | _ => none
  | .broke =>
    match job.phase with
    | .reading _ => some { job with phase := .thrown }
    | _ => none
  | .taken =>
    match job.phase with
    | .delivering rest after =>
      some ({ job with delivered := job.delivered ++ rest.take sliceSize }.deliver (rest.drop sliceSize) after)
    | _ => none
  | .notTaken =>
    match job.phase with
    | .delivering _ _ => some { job with phase := .thrown }
    | _ => none
  | .abort =>
    match job.phase with
    | .asking _ _ _ | .reading _ => some { job with aborted := true, phase := .thrown }
    | .delivering _ _ => some { job with aborted := true }
    | _ => none

end Job

/-! ## The server -/

/-- What a server that holds `file` may answer a request from `at_` on. -/
def Answer.Fits (file : List UInt8) (at_ : Nat) : Answer → Prop
  | .part bytes contentRange _ =>
    bytes ≠ [] ∧ bytes.length ≤ range ∧ bytes <+: file.drop at_ ∧
      ∀ first size, contentRange = some (first, size) → first = at_ ∧ (size = none ∨ size = some file.length)
  | .whole _ => True
  | .refused status => ¬ (200 ≤ status ∧ status < 300) ∧ (status = 416 → file.length ≤ at_)
  | .failed => True

/-- What may come of the server's `file` in a job's state. -/
def Event.Fits (file : List UInt8) (job : Job) (e : Event) : Prop :=
  match e, job.phase with
  | .answer a, .asking at_ _ _ => a.Fits file at_
  | .chunk bytes, .reading held => job.delivered ++ held ++ bytes <+: file
  | .ended, .reading held => job.delivered ++ held = file
  | _, _ => True

/-- The whole file comes to a request from its middle, while its size is not
known. -/
def Event.CutsShort (file : List UInt8) (job : Job) (e : Event) : Prop :=
  match e, job.phase with
  | .answer (.whole _), .asking at_ _ _ => 0 < at_ ∧ at_ < file.length ∧ job.total = 0
  | _, _ => False

/-- A job and the events that lead from one state to another. -/
inductive Run (file : List UInt8) : Job → List Event → Job → Prop
  | nil (job : Job) : Run file job [] job
  | cons {job job' job'' : Job} {e : Event} {rest : List Event} (hfits : e.Fits file job)
      (hstep : job.step e = some job') (hrest : Run file job' rest job'') : Run file job (e :: rest) job''

/-! ## What was delivered -/

variable {file : List UInt8} {job job' : Job}

/-- The size is the file's if it is known. -/
def Job.SizeKnown (file : List UInt8) (job : Job) : Prop := job.total = 0 ∨ job.total = file.length

/-- What was delivered is how the file starts, up to where a request goes on. -/
def Job.Sound (file : List UInt8) (job : Job) : Prop :=
  match job.phase with
  | .asking at_ _ _ => job.SizeKnown file ∧ at_ ≤ file.length ∧ job.delivered = file.take at_
  | .delivering rest (.next at_ len) =>
    job.SizeKnown file ∧ len ≠ 0 ∧ at_ + len ≤ file.length ∧ job.delivered ++ rest = file.take (at_ + len)
  | .delivering rest (.stream _ last) =>
    job.delivered ++ rest <+: file ∧ (last = true → job.delivered ++ rest = file)
  | .reading held => job.delivered ++ held <+: file
  | .resolved => job.delivered = file
  | .thrown => True

theorem sound_start : Job.start.Sound file := ⟨.inl rfl, Nat.zero_le _, rfl⟩

theorem Job.sound_ask {at_ n : Nat} (hsize : job.SizeKnown file) (hat : at_ ≤ file.length)
    (hdelivered : job.delivered = file.take at_) : (job.ask at_ n).Sound file := by
  unfold Job.ask Job.Sound
  by_cases haborted : job.aborted = true
  · simp only [haborted, if_true]
  · simp only [haborted, Bool.false_eq_true, if_false]
    exact ⟨hsize, hat, hdelivered⟩

theorem Job.sound_failAttempt {at_ n : Nat} (hsize : job.SizeKnown file) (hat : at_ ≤ file.length)
    (hdelivered : job.delivered = file.take at_) : (job.failAttempt at_ n).Sound file := by
  unfold Job.failAttempt
  split
  · exact sound_ask hsize hat hdelivered
  · trivial

/-- After the last byte of a known size, or of a stream, the file is whole. -/
theorem Job.sound_goOn_next {at_ len : Nat} (hsize : job.SizeKnown file) (hlen : len ≠ 0)
    (hat : at_ + len ≤ file.length) (hdelivered : job.delivered = file.take (at_ + len)) :
    (job.goOn (.next at_ len)).Sound file := by
  unfold Job.goOn
  by_cases hover : len = 0 ∨ job.total ≠ 0 ∧ job.total ≤ at_ + len
  · simp only [hover, if_true]
    obtain ⟨hknown, hle⟩ := hover.resolve_left hlen
    have htotal : job.total = file.length := hsize.resolve_left hknown
    show job.delivered = file
    rw [hdelivered]
    exact List.take_of_length_le (htotal ▸ hle)
  · simp only [hover, if_false]
    exact sound_ask hsize hat hdelivered

theorem Job.sound_goOn_stream {len : Nat} {last : Bool} (hstarts : job.delivered <+: file)
    (hlast : last = true → job.delivered = file) : (job.goOn (.stream len last)).Sound file := by
  unfold Job.goOn
  by_cases hover : last = true
  · simp only [hover, if_true]
    exact hlast hover
  · simp only [hover, Bool.false_eq_true, if_false]
    unfold Job.Sound
    by_cases haborted : job.aborted = true
    · simp only [haborted, if_true]
    · simp only [haborted, Bool.false_eq_true, if_false]
      show job.delivered ++ [] <+: file
      rw [List.append_nil]
      exact hstarts

theorem Job.sound_deliver_next {rest : List UInt8} {at_ len : Nat} (hsize : job.SizeKnown file) (hlen : len ≠ 0)
    (hat : at_ + len ≤ file.length) (hdelivered : job.delivered ++ rest = file.take (at_ + len)) :
    (job.deliver rest (.next at_ len)).Sound file := by
  unfold Job.deliver
  by_cases hempty : rest.isEmpty = true
  · rw [if_pos hempty]
    rw [List.isEmpty_iff.mp hempty, List.append_nil] at hdelivered
    exact sound_goOn_next hsize hlen hat hdelivered
  · rw [if_neg hempty]
    unfold Job.Sound
    by_cases haborted : job.aborted = true
    · simp only [haborted, if_true]
    · simp only [haborted, Bool.false_eq_true, if_false]
      exact ⟨hsize, hlen, hat, hdelivered⟩

theorem Job.sound_deliver_stream {rest : List UInt8} {len : Nat} {last : Bool}
    (hstarts : job.delivered ++ rest <+: file) (hlast : last = true → job.delivered ++ rest = file) :
    (job.deliver rest (.stream len last)).Sound file := by
  unfold Job.deliver
  by_cases hempty : rest.isEmpty = true
  · rw [if_pos hempty]
    rw [List.isEmpty_iff.mp hempty, List.append_nil] at hstarts hlast
    exact sound_goOn_stream hstarts hlast
  · rw [if_neg hempty]
    unfold Job.Sound
    by_cases haborted : job.aborted = true
    · simp only [haborted, if_true]
    · simp only [haborted, Bool.false_eq_true, if_false]
      exact ⟨hstarts, hlast⟩

theorem take_append_of_prefix {bytes : List UInt8} {at_ : Nat} (h : bytes <+: file.drop at_) (hne : bytes ≠ []) :
    at_ + bytes.length ≤ file.length ∧ file.take at_ ++ bytes = file.take (at_ + bytes.length) := by
  have hlen := h.length_le
  have hpos := List.length_pos_iff.mpr hne
  rw [List.length_drop] at hlen
  refine ⟨by omega, ?_⟩
  rw [List.take_add, ← List.prefix_iff_eq_take.mp h]

theorem Job.sound_part {bytes : List UInt8} {contentRange : Option (Nat × Option Nat)} {readable : Bool} {at_ n : Nat}
    (hsize : job.SizeKnown file) (hat : at_ ≤ file.length) (hdelivered : job.delivered = file.take at_)
    (hfits : (Answer.part bytes contentRange readable).Fits file at_) :
    (job.got at_ n (.part bytes contentRange readable)).Sound file := by
  obtain ⟨hne, _, hstarts, hrange⟩ := hfits
  obtain ⟨hend, happend⟩ := take_append_of_prefix hstarts hne
  have hlen : bytes.length ≠ 0 := (List.length_pos_iff.mpr hne).ne'
  have hbytes : job.delivered ++ bytes = file.take (at_ + bytes.length) := hdelivered ▸ happend
  unfold Job.got
  cases readable with
  | false => exact sound_failAttempt hsize hat hdelivered
  | true =>
    cases contentRange with
    | none => exact sound_deliver_next hsize hlen hend hbytes
    | some header =>
      obtain ⟨first, size⟩ := header
      obtain ⟨hfirst, htotal⟩ := hrange first size rfl
      simp only [if_true, hfirst]
      refine sound_deliver_next ?_ hlen hend hbytes
      rcases htotal with rfl | rfl
      · exact .inl rfl
      · exact .inr rfl

theorem Job.sound_refused {status at_ n : Nat} (hsize : job.SizeKnown file) (hat : at_ ≤ file.length)
    (hdelivered : job.delivered = file.take at_) (hfits : (Answer.refused status).Fits file at_) :
    (job.got at_ n (.refused status)).Sound file := by
  have hgot : job.got at_ n (.refused status) =
      if 500 ≤ status ∨ status = 408 ∨ status = 429 then job.failAttempt at_ n
      else if at_ ≠ 0 ∧ job.total = 0 ∧ status = 416 then { job with phase := .resolved }
      else { job with phase := .thrown } := rfl
  rw [hgot]
  split
  · exact sound_failAttempt hsize hat hdelivered
  · split
    · rename_i hover
      show job.delivered = file
      rw [hdelivered]
      exact List.take_of_length_le (hfits.2 hover.2.2)
    · trivial

/-- The whole file, unless it comes to a request from its middle. -/
theorem Job.sound_whole {contentLength : Option Nat} {at_ n : Nat}
    (hdelivered : job.delivered = file.take at_)
    (hcut : ¬ (0 < at_ ∧ at_ < file.length ∧ job.total = 0)) :
    (job.got at_ n (.whole contentLength)).Sound file := by
  unfold Job.got
  by_cases hzero : at_ = 0
  · simp only [hzero, if_true]
    show job.delivered ++ [] <+: file
    rw [hdelivered, hzero]
    exact List.nil_prefix
  · simp only [hzero, if_false]
    by_cases htotal : job.total = 0
    · simp only [htotal, if_true]
      show job.delivered = file
      rw [hdelivered]
      exact List.take_of_length_le (by omega)
    · simp only [htotal, if_false]
      trivial

theorem Job.sound_got {a : Answer} {at_ n : Nat} (hsize : job.SizeKnown file) (hat : at_ ≤ file.length)
    (hdelivered : job.delivered = file.take at_) (hfits : a.Fits file at_)
    (hcut : ∀ contentLength, a = .whole contentLength → ¬ (0 < at_ ∧ at_ < file.length ∧ job.total = 0)) :
    (job.got at_ n a).Sound file := by
  cases a with
  | part bytes contentRange readable => exact sound_part hsize hat hdelivered hfits
  | whole contentLength => exact sound_whole hdelivered (hcut contentLength rfl)
  | refused status => exact sound_refused hsize hat hdelivered hfits
  | failed => exact sound_failAttempt hsize hat hdelivered

theorem Job.sound_answered {a : Answer} {at_ n : Nat} {credentials : Bool} (hsize : job.SizeKnown file)
    (hat : at_ ≤ file.length) (hdelivered : job.delivered = file.take at_) (hfits : a.Fits file at_)
    (hcut : ∀ contentLength, a = .whole contentLength → ¬ (0 < at_ ∧ at_ < file.length ∧ job.total = 0)) :
    (job.answered at_ n credentials a).Sound file := by
  cases credentials with
  | true =>
    cases a with
    | failed => exact ⟨hsize, hat, hdelivered⟩
    | _ => exact sound_got hsize hat hdelivered hfits hcut
  | false =>
    cases a with
    | refused status =>
      show (if job.plain then job.got at_ n (.refused status) else job.failAttempt at_ n).Sound file
      split
      · exact sound_got hsize hat hdelivered hfits hcut
      · exact sound_failAttempt hsize hat hdelivered
    | failed => exact sound_failAttempt hsize hat hdelivered
    | part bytes contentRange readable =>
      exact @sound_got file { job with plain := true } _ at_ n hsize hat hdelivered hfits hcut
    | whole contentLength =>
      exact @sound_got file { job with plain := true } _ at_ n hsize hat hdelivered hfits hcut

/-- A step keeps what was delivered a start of the file, unless it cuts the
file short. -/
theorem Job.sound_step {e : Event} (h : job.Sound file) (hfits : e.Fits file job) (hcut : ¬ e.CutsShort file job)
    (hstep : job.step e = some job') : job'.Sound file := by
  obtain ⟨total, done, plain, aborted, delivered, phase⟩ := job
  cases e with
  | answer a =>
    cases phase with
    | asking at_ n credentials =>
      cases hstep
      obtain ⟨hsize, hat, hdelivered⟩ := h
      refine sound_answered hsize hat hdelivered hfits ?_
      rintro contentLength rfl
      exact hcut
    | _ => cases hstep
  | chunk bytes =>
    cases phase with
    | reading held =>
      have hstarts : delivered ++ (held ++ bytes) <+: file := by
        rw [← List.append_assoc]
        exact hfits
      simp only [Job.step] at hstep
      split at hstep
      · cases hstep
        exact sound_deliver_stream hstarts fun hlast => Bool.noConfusion hlast
      · cases hstep
        exact hstarts
    | _ => cases hstep
  | ended =>
    cases phase with
    | reading held =>
      have hwhole : delivered ++ held = file := hfits
      simp only [Job.step] at hstep
      split at hstep
      · rename_i hempty
        cases hstep
        rw [List.isEmpty_iff.mp hempty, List.append_nil] at hwhole
        exact hwhole
      · cases hstep
        exact sound_deliver_stream h fun _ => hwhole
    | _ => cases hstep
  | broke =>
    cases phase with
    | reading held =>
      cases hstep
      trivial
    | _ => cases hstep
  | taken =>
    cases phase with
    | delivering rest after =>
      cases hstep
      have hslice : delivered ++ rest.take sliceSize ++ rest.drop sliceSize = delivered ++ rest := by
        rw [List.append_assoc, List.take_append_drop]
      cases after with
      | next at_ len =>
        obtain ⟨hsize, hlen, hat, hdelivered⟩ := h
        exact sound_deliver_next hsize hlen hat (hslice.trans hdelivered)
      | stream len last =>
        obtain ⟨hstarts, hlast⟩ := h
        refine sound_deliver_stream ?_ fun hover => hslice.trans (hlast hover)
        show delivered ++ rest.take sliceSize ++ rest.drop sliceSize <+: file
        rw [hslice]
        exact hstarts
    | _ => cases hstep
  | notTaken =>
    cases phase with
    | delivering rest after =>
      cases hstep
      trivial
    | _ => cases hstep
  | abort =>
    cases phase with
    | delivering rest after =>
      cases hstep
      exact h
    | asking at_ n credentials =>
      cases hstep
      trivial
    | reading held =>
      cases hstep
      trivial
    | _ => cases hstep

theorem Run.sound {events : List Event} (hrun : Run file job events job') (h : job.Sound file)
    (hcut : ∀ pre e post t, events = pre ++ e :: post → Run file job pre t → ¬ e.CutsShort file t) :
    job'.Sound file := by
  induction hrun with
  | nil job => exact h
  | @cons job t job' e rest hfits hstep hrest ih =>
    refine ih (Job.sound_step h hfits (hcut [] e rest job rfl (.nil job)) hstep) ?_
    rintro pre e' post u rfl hpre
    exact hcut (e :: pre) e' post u rfl (.cons hfits hstep hpre)

/-! ## Whether the file is whole -/

/-- Nothing follows the end. -/
theorem Run.of_resolved {events : List Event} (hrun : Run file job events job') (h : job.phase = .resolved) :
    job' = job := by
  cases hrun with
  | nil _ => rfl
  | @cons _ t _ e rest hfits hstep hrest =>
    obtain ⟨total, done, plain, aborted, delivered, phase⟩ := job
    subst h
    cases e <;> cases hstep

theorem Run.append {pre post : List Event} {t : Job} (hrun : Run file job (pre ++ post) job')
    (hpre : Run file job pre t) : Run file t post job' := by
  induction hpre with
  | nil job => exact hrun
  | cons hfits hstep hrest ih =>
    cases hrun with
    | cons hfits' hstep' hrest' =>
      cases hstep.symm.trans hstep'
      exact ih hrest'

theorem Job.answered_whole {j : Job} {at_ n : Nat} {credentials : Bool} {contentLength : Option Nat} (hpos : 0 < at_)
    (htotal : j.total = 0) :
    (j.answered at_ n credentials (.whole contentLength)).phase = .resolved ∧
      (j.answered at_ n credentials (.whole contentLength)).delivered = j.delivered := by
  have hgot : ∀ job : Job, job.total = 0 → job.got at_ n (.whole contentLength) = { job with phase := .resolved } := by
    intro job htotal
    show (if at_ = 0 then _ else if job.total = 0 then _ else _) = _
    rw [if_neg hpos.ne', if_pos htotal]
  cases credentials with
  | true =>
    have hanswered : j.answered at_ n true (.whole contentLength) = { j with phase := .resolved } := hgot j htotal
    rw [hanswered]
    exact ⟨rfl, rfl⟩
  | false =>
    have hanswered : j.answered at_ n false (.whole contentLength) =
        { j with plain := true, phase := .resolved } := hgot { j with plain := true } htotal
    rw [hanswered]
    exact ⟨rfl, rfl⟩

/-- A job that is cut short ends with less than the file. -/
theorem Job.cut_short {e : Event} (h : job.Sound file) (hcut : e.CutsShort file job) (hstep : job.step e = some job') :
    job'.phase = .resolved ∧ job'.delivered ≠ file := by
  obtain ⟨total, done, plain, aborted, delivered, phase⟩ := job
  match e, phase, hcut with
  | .answer (.whole contentLength), .asking at_ n credentials, hcut =>
    cases hstep
    obtain ⟨_, _, hdelivered⟩ := h
    obtain ⟨hpos, hlt, htotal⟩ := hcut
    let job : Job := ⟨total, done, plain, aborted, delivered, .asking at_ n credentials⟩
    obtain ⟨hphase, hsame⟩ := Job.answered_whole (n := n) (j := job) hpos htotal
    refine ⟨hphase, ?_⟩
    rw [hsame]
    intro heq
    have hlen : delivered.length = min at_ file.length := by
      rw [show delivered = file.take at_ from hdelivered, List.length_take]
    rw [show delivered = file from heq] at hlen
    omega

theorem Run.resolved_or_sound {events : List Event} (hrun : Run file job events job') (h : job.Sound file) :
    job'.phase = .resolved ∨ job'.Sound file := by
  induction hrun with
  | nil job => exact .inr h
  | @cons job t job' e rest hfits hstep hrest ih =>
    by_cases hcut : e.CutsShort file job
    · have hphase := (Job.cut_short h hcut hstep).1
      rw [hrest.of_resolved hphase]
      exact .inl hphase
    · exact ih (Job.sound_step h hfits hcut hstep)

/-- A download that resolves handed over the file, every byte once and in
order, unless the whole file came to a request from its middle while its size
was not known; and then it never did. -/
theorem resolved_whole_iff {events : List Event} (hrun : Run file Job.start events job) (hend : job.phase = .resolved) :
    job.delivered = file ↔
      ∀ pre e post t, events = pre ++ e :: post → Run file Job.start pre t → ¬ e.CutsShort file t := by
  constructor
  · intro hwhole pre e post t hevents hpre hcut
    subst hevents
    -- the job was asking, and ended short with that answer
    have hsound : t.Sound file := by
      refine (hpre.resolved_or_sound sound_start).resolve_left fun hphase => ?_
      unfold Event.CutsShort at hcut
      rw [hphase] at hcut
      split at hcut
      · rename_i heq
        cases heq
      · exact hcut
    have hafter := hrun.append hpre
    cases hafter with
    | cons hfits hstep hrest =>
      obtain ⟨hphase, hshort⟩ := Job.cut_short hsound hcut hstep
      rw [hrest.of_resolved hphase] at hwhole
      exact hshort hwhole
  · intro hcut
    have hsound := hrun.sound sound_start hcut
    unfold Job.Sound at hsound
    rw [hend] at hsound
    exact hsound

/-- Two bytes, their size told. -/
theorem two_bytes_whole : ∃ job, Run [1, 2] Job.start [.answer (.part [1, 2] (some (0, some 2)) true), .taken] job ∧
    job.delivered = [1, 2] := by
  have hrun : Run [1, 2] Job.start [.answer (.part [1, 2] (some (0, some 2)) true), .taken]
      ⟨2, 2, false, false, [1, 2], .resolved⟩ := by
    refine .cons ⟨List.cons_ne_nil _ _, by decide, List.prefix_rfl, ?_⟩ rfl (.cons trivial rfl (.nil _))
    rintro _ _ ⟨⟩
    exact ⟨rfl, .inr rfl⟩
  refine ⟨_, hrun, (resolved_whole_iff hrun rfl).mpr fun pre e post t hevents _ hcut => ?_⟩
  have he : e ∈ [Event.answer (.part [1, 2] (some (0, some 2)) true), .taken] := by
    rw [hevents]
    exact List.mem_append_right _ List.mem_cons_self
  rcases List.mem_pair.mp he with rfl | rfl
  · exact hcut
  · exact hcut

/-- A first byte, then the whole file: only the first byte is delivered. -/
theorem whole_file_in_the_middle :
    ¬ ∀ file events job, Run file Job.start events job → job.phase = .resolved → job.delivered = file := by
  intro hall
  have hrun : Run [1, 2] Job.start [.answer (.part [1] none true), .taken, .answer (.whole (some 2))]
      ⟨0, 1, false, false, [1], .resolved⟩ := by
    refine .cons ⟨List.cons_ne_nil _ _, by decide, ⟨[2], rfl⟩, ?_⟩ rfl (.cons trivial rfl (.cons trivial rfl (.nil _)))
    exact fun _ _ hrange => nomatch hrange
  exact absurd (hall _ _ _ hrun rfl) (by decide)

end Browser

end Hyperfetch
